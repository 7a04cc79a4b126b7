/-
The header of a message on the wire (`Message::serializeHeader` and
`Message::deserializeHeader` of `message.cpp`): the two names, each ended by a
zero byte, then the fixed-width fields as they lie in memory, each followed by
a zero byte of its own. Zero bytes inside a fixed-width field are data.

Names are `NUL`-free byte strings, as the format needs them.
-/
import Fncs.Lib.Codec

namespace Fncs.Wire

open Codec

/-- The name of an object. -/
structure Name where
  bytes : List UInt8
  noNul : 0 ∉ bytes
  deriving DecidableEq, Repr

instance : Inhabited Name := ⟨⟨[], List.not_mem_nil⟩⟩

/-- The fields of a `Message` that travel in its envelope. -/
@[ext] structure Header where
  msgFrom : Name
  msgTo : Name
  timeStamp : UInt64
  networkDeliverytime : UInt64
  size : UInt32
  tag : UInt8
  delayThroughComm : Bool
  deriving DecidableEq, Repr

/-- A header and as many payload bytes as its size field says. -/
structure Message extends Header where
  data : List UInt8
  size_data : data.length = size.toNat
  deriving DecidableEq, Repr

/-- What `deserializeHeader` throws. The texts of the three time fields are the same. -/
inductive Thrown
  | deserializeFrom
  | deserializeTo
  | deserializeTime
  | deserializeSize
  | deserializeTag
  | deserializeEnd
  /-- `buff[it++]` at the end of the buffer. -/
  | readPastEnd
  deriving DecidableEq, Repr

/-! ## Serializing -/

/-- The bytes of a `bool` in memory. -/
def boolBytes (b : Bool) : List UInt8 := [if b then 1 else 0]

/-- The sections of `serializeHeader`, in the order it pushes them. -/
def Header.sections (h : Header) : List (List UInt8) :=
  [h.msgFrom.bytes,
   h.msgTo.bytes,
   leBytes 8 h.timeStamp.toNat,
   leBytes 8 h.networkDeliverytime.toNat,
   leBytes 4 h.size.toNat,
   [h.tag],
   boolBytes h.delayThroughComm]

/-- `serializeHeader`: the buffer and `buffSize`, an `uint32_t`. -/
def serializeHeader (h : Header) : List UInt8 × UInt32 :=
  let buff := h.sections.flatMap fun bytes => bytes ++ [0]
  (buff, UInt32.ofNat buff.length)

/-- The bytes a sender passes on. -/
def Header.envelope (h : Header) : List UInt8 := (serializeHeader h).1.take (serializeHeader h).2.toNat

/-! ## Deserializing -/

/-- The loop over a name: the bytes before the first zero byte, which is skipped. -/
def readName (e : Thrown) : Decoder Thrown Name := fun input =>
  match input.dropWhile (· != 0) with
  | [] => .error e
  | _ :: rest => .ok (⟨input.takeWhile (· != 0), fun h => by simpa using List.mem_takeWhile_imp h⟩, rest)

/-- The loop over a field of `n` bytes. There must be a byte left after it, which is skipped. -/
def readField (n : ℕ) (e : Thrown) : Decoder Thrown (List UInt8) := fun input =>
  if input.length ≤ n then .error e else .ok (input.take n, input.drop (n + 1))

/-- The tag is read without a look at the end of the buffer. -/
def readTag : Decoder Thrown UInt8
  | [] => .error .readPastEnd
  | [_] => .error .deserializeTag
  | tag :: _ :: rest => .ok (tag, rest)

/-- The sections of `deserializeHeader`. -/
def readHeader : Decoder Thrown Header := do
  let msgFrom ← readName .deserializeFrom
  let msgTo ← readName .deserializeTo
  let timeStamp ← readField 8 .deserializeTime
  let networkDeliverytime ← readField 8 .deserializeTime
  let size ← readField 4 .deserializeSize
  let tag ← readTag
  let delayThroughComm ← readField 1 .deserializeTime
  pure {
    msgFrom := msgFrom
    msgTo := msgTo
    timeStamp := UInt64.ofNat (leValue timeStamp)
    networkDeliverytime := UInt64.ofNat (leValue networkDeliverytime)
    size := UInt32.ofNat (leValue size)
    tag := tag
    delayThroughComm := leValue delayThroughComm != 0 }

/-- `deserializeHeader` on the first `buffSize` bytes of a buffer. -/
def deserializeHeader (buff : List UInt8) (buffSize : UInt32) : Except Thrown Header :=
  match readHeader (buff.take buffSize.toNat) with
  | .error e => .error e
  | .ok (h, []) => .ok h
  | .ok (_, _ :: _) => .error .deserializeEnd

/-- A length as an `int`. -/
def intOfLength (n : ℕ) : ℤ := Int.bmod n (2 ^ 32)

theorem intOfLength_of_lt {n : ℕ} (h : n < 2 ^ 31) : intOfLength n = n := by
  have hmod : (n : ℤ) % ((2 ^ 32 : ℕ) : ℤ) = n := by omega
  unfold intOfLength
  rw [Int.bmod_def, hmod, if_pos]
  omega

theorem mod_le_of_intOfLength {n bound : ℕ} (h0 : 0 ≤ intOfLength n) (h : intOfLength n ≤ bound) :
    n % 2 ^ 32 ≤ bound ∧ n % 2 ^ 32 < 2 ^ 31 := by
  unfold intOfLength at h0 h
  rw [Int.bmod_def] at h0 h
  split at h <;> omega

/-! ## One section -/

theorem takeWhile_name (n : Name) (rest : List UInt8) :
    (n.bytes ++ 0 :: rest).takeWhile (· != 0) = n.bytes ∧ (n.bytes ++ 0 :: rest).dropWhile (· != 0) = 0 :: rest := by
  have h : ∀ b ∈ n.bytes, (b != 0) = true := fun b hb => by
    have : b ≠ 0 := fun h0 => n.noNul (h0 ▸ hb)
    simpa using this
  rw [List.takeWhile_append_of_pos h, List.dropWhile_append_of_pos h]
  simp

theorem reads_readName (e : Thrown) (n : Name) : Reads (readName e) (n.bytes ++ [0]) n := by
  intro rest
  obtain ⟨ht, hd⟩ := takeWhile_name n rest
  rw [List.append_assoc, List.singleton_append, readName]
  simp only [ht, hd]

theorem reads_readField (e : Thrown) {n : ℕ} {bytes : List UInt8} (hn : bytes.length = n) :
    Reads (readField n e) (bytes ++ [0]) bytes := by
  subst hn
  intro rest
  rw [readField, if_neg (by simp)]
  simp [List.drop_append]

theorem reads_readTag (tag : UInt8) : Reads readTag [tag, 0] tag := fun _ => rfl

/-- What is left of the input is a name, a zero byte and the rest. -/
theorem readName_ok {e : Thrown} {input rest : List UInt8} {n : Name} (h : readName e input = .ok (n, rest)) :
    input = n.bytes ++ 0 :: rest := by
  rw [readName] at h
  split at h
  · cases h
  next b rest' hd =>
  simp only [Except.ok.injEq, Prod.mk.injEq] at h
  obtain ⟨rfl, rfl⟩ := h
  have hb : b = 0 := by
    have hne : input.dropWhile (· != 0) ≠ [] := by rw [hd]; exact List.cons_ne_nil _ _
    have := List.head_dropWhile_not (· != 0) hne
    simp only [hd, List.head_cons] at this
    simpa using this
  have hsplit := List.takeWhile_append_dropWhile (p := (· != 0)) (l := input)
  rw [hd, hb] at hsplit
  exact hsplit.symm

theorem spends_readName (e : Thrown) : Spends (readName e) fun n => n.bytes.length + 1 := by
  intro input n rest h
  show input.length = n.bytes.length + 1 + rest.length
  rw [readName_ok h, List.length_append, List.length_cons]
  omega

/-- A name read off the front of a cut input is the name that was there. -/
theorem readName_of_prefix {e : Thrown} {input rest r : List UInt8} {n n' : Name}
    (hp : input <+: n.bytes ++ 0 :: rest) (h : readName e input = .ok (n', r)) : n' = n ∧ r <+: rest := by
  obtain ⟨t, ht⟩ := hp
  have h1 := reads_readName e n rest
  have h2 := reads_readName e n' (r ++ t)
  have heq : n'.bytes ++ [0] ++ (r ++ t) = n.bytes ++ [0] ++ rest := by
    rw [readName_ok h] at ht
    simpa using ht
  rw [heq, h1] at h2
  simp only [Except.ok.injEq, Prod.mk.injEq] at h2
  exact ⟨h2.1.symm, ⟨t, h2.2.symm⟩⟩

theorem spends_readField (n : ℕ) (e : Thrown) : Spends (readField n e) fun _ => n + 1 := by
  intro input bytes rest h
  rw [readField] at h
  split at h
  · cases h
  simp only [Except.ok.injEq, Prod.mk.injEq] at h
  obtain ⟨-, rfl⟩ := h
  show input.length = n + 1 + (input.drop (n + 1)).length
  rw [List.length_drop]
  omega

theorem spends_readTag : Spends readTag fun _ => 2 := by
  intro input tag rest h
  match input, h with
  | _ :: _ :: _, h =>
    simp only [readTag, Except.ok.injEq, Prod.mk.injEq] at h
    obtain ⟨-, rfl⟩ := h
    simp only [List.length_cons]
    omega

/-! ## The whole header -/

/-- How many bytes a header takes. -/
def Header.length (h : Header) : ℕ := h.msgFrom.bytes.length + h.msgTo.bytes.length + 29

theorem length_serializeHeader (h : Header) : (serializeHeader h).1.length = h.length := by
  simp [serializeHeader, Header.sections, boolBytes, Header.length]
  omega

theorem reads_readHeader (h : Header) : Reads readHeader (serializeHeader h).1 h := by
  have hflat : (serializeHeader h).1 = (h.msgFrom.bytes ++ [0]) ++ ((h.msgTo.bytes ++ [0]) ++
      ((leBytes 8 h.timeStamp.toNat ++ [0]) ++ ((leBytes 8 h.networkDeliverytime.toNat ++ [0]) ++
      ((leBytes 4 h.size.toNat ++ [0]) ++ ([h.tag, 0] ++ ((boolBytes h.delayThroughComm ++ [0]) ++ [])))))) := by
    simp [serializeHeader, Header.sections]
  have h64 (x : UInt64) : UInt64.ofNat (leValue (leBytes 8 x.toNat)) = x := by
    rw [leValue_leBytes_of_lt x.toNat_lt]
    exact UInt64.ofNat_toNat
  have h32 (x : UInt32) : UInt32.ofNat (leValue (leBytes 4 x.toNat)) = x := by
    rw [leValue_leBytes_of_lt x.toNat_lt]
    exact UInt32.ofNat_toNat
  have hbool (b : Bool) : (leValue (boolBytes b) != 0) = b := by cases b <;> rfl
  rw [hflat, readHeader]
  refine (reads_readName _ _).bind ((reads_readName _ _).bind ?_)
  refine (reads_readField _ (length_leBytes 8 _)).bind ((reads_readField _ (length_leBytes 8 _)).bind ?_)
  refine (reads_readField _ (length_leBytes 4 _)).bind ((reads_readTag _).bind ?_)
  refine (reads_readField _ (show (boolBytes h.delayThroughComm).length = 1 from rfl)).bind ?_
  rw [h64, h64, h32, hbool]
  exact Reads.pure _

/-- What is read as a header is as long as the header. -/
theorem spends_readHeader : Spends readHeader Header.length := by
  intro input h rest hr
  simp only [readHeader, bind_ok] at hr
  obtain ⟨f, r1, h1, t, r2, h2, ts, r3, h3, nd, r4, h4, sz, r5, h5, tag, r6, h6, dl, r7, h7, hp⟩ := hr
  obtain ⟨rfl, rfl⟩ : _ = h ∧ r7 = rest := by simpa [pure, StateT.pure, Except.pure] using hp
  have e1 : input.length = f.bytes.length + 1 + r1.length := spends_readName _ _ _ _ h1
  have e2 : r1.length = t.bytes.length + 1 + r2.length := spends_readName _ _ _ _ h2
  have e3 : r2.length = 9 + r3.length := spends_readField _ _ _ _ _ h3
  have e4 : r3.length = 9 + r4.length := spends_readField _ _ _ _ _ h4
  have e5 : r4.length = 5 + r5.length := spends_readField _ _ _ _ _ h5
  have e6 : r5.length = 2 + r6.length := spends_readTag _ _ _ h6
  have e7 : r6.length = 2 + r7.length := spends_readField _ _ _ _ _ h7
  show input.length = f.bytes.length + t.bytes.length + 29 + r7.length
  omega

/-- A header that is read has the length of the buffer. -/
theorem length_of_deserializeHeader {buff : List UInt8} {buffSize : UInt32} {h : Header}
    (hd : deserializeHeader buff buffSize = .ok h) : h.length = (buff.take buffSize.toNat).length := by
  rw [deserializeHeader] at hd
  split at hd
  · cases hd
  · next h' hr =>
    obtain rfl : h' = h := Except.ok.inj hd
    simpa using (spends_readHeader _ _ _ hr).symm
  · cases hd

/-- The envelope of a header whose length fits. -/
theorem envelope_of_lt {h : Header} (hlen : h.length < 2 ^ 32) : h.envelope = (serializeHeader h).1 := by
  refine List.take_of_length_le ?_
  show (serializeHeader h).1.length ≤ (UInt32.ofNat (serializeHeader h).1.length).toNat
  rw [UInt32.toNat_ofNat', length_serializeHeader, Nat.mod_eq_of_lt hlen]

theorem length_envelope (h : Header) : h.envelope.length = h.length % 2 ^ 32 := by
  have hmod : (serializeHeader h).2.toNat = h.length % 2 ^ 32 := by
    show (UInt32.ofNat (serializeHeader h).1.length).toNat = _
    rw [UInt32.toNat_ofNat', length_serializeHeader]
  have hle := Nat.mod_le h.length (2 ^ 32)
  rw [Header.envelope, List.length_take, hmod, length_serializeHeader]
  omega

theorem deserializeHeader_whole {h : Header} {buffSize : UInt32} (hn : buffSize.toNat = (serializeHeader h).1.length) :
    deserializeHeader (serializeHeader h).1 buffSize = .ok h := by
  rw [deserializeHeader, hn, List.take_length, (reads_readHeader h).eq_ok]

/-- The header round trip: `serializeHeader` makes as many bytes as the names and the fixed-width
fields need, and `deserializeHeader`, given these bytes and their number, restores the header. -/
theorem deserializeHeader_serializeHeader (h : Header) :
    (serializeHeader h).1.length = h.msgFrom.bytes.length + h.msgTo.bytes.length + 29 ∧
    ∀ buffSize : UInt32, buffSize.toNat = (serializeHeader h).1.length →
      (serializeHeader h).2 = buffSize ∧ deserializeHeader (serializeHeader h).1 buffSize = .ok h := by
  refine ⟨length_serializeHeader h, fun buffSize hn => ⟨?_, deserializeHeader_whole hn⟩⟩
  show UInt32.ofNat (serializeHeader h).1.length = buffSize
  rw [← hn]
  exact UInt32.ofNat_toNat

/-- A header with zero bytes inside its numbers. -/
def selimHeader : Header where
  msgFrom := ⟨[115, 101, 108, 105, 109], by decide⟩
  msgTo := ⟨[], by decide⟩
  timeStamp := 256
  networkDeliverytime := 18446744073709551615
  size := 65537
  tag := 0
  delayThroughComm := true

theorem deserializeHeader_selimHeader : (34 : UInt32).toNat = (serializeHeader selimHeader).1.length ∧
    (serializeHeader selimHeader).2 = 34 ∧
    deserializeHeader (serializeHeader selimHeader).1 34 = .ok selimHeader :=
  ⟨by decide, (deserializeHeader_serializeHeader selimHeader).2 34 (by decide)⟩

/-- What is read off an envelope is the header it was made from: an envelope that was cut is not read. -/
theorem deserializeHeader_envelope {h h' : Header} {n : UInt32} (hn : n.toNat = h.envelope.length)
    (hd : deserializeHeader h.envelope n = .ok h') : h' = h := by
  have hlen' : h'.length = h.length % 2 ^ 32 := by
    rw [length_of_deserializeHeader hd, hn, List.take_length, length_envelope]
  rw [deserializeHeader, hn, List.take_length] at hd
  split at hd
  · cases hd
  · next h₁ hr =>
    obtain rfl := Except.ok.inj hd
    by_cases hlen : h.length < 2 ^ 32
    · rw [envelope_of_lt hlen, (reads_readHeader h).eq_ok] at hr
      simp only [Except.ok.injEq, Prod.mk.injEq, and_true] at hr
      exact hr.symm
    · simp only [readHeader, bind_ok] at hr
      obtain ⟨f, r1, h1, t, r2, h2, ts, r3, -, nd, r4, -, sz, r5, -, tag, r6, -, dl, r7, -, hp⟩ := hr
      obtain ⟨rfl, -⟩ : _ = h₁ ∧ r7 = [] := by simpa [pure, StateT.pure, Except.pure] using hp
      -- the names are read as they were written, so the length is not that of a cut envelope
      obtain ⟨rfl, hp1⟩ := readName_of_prefix (by
        have := List.take_prefix (serializeHeader h).2.toNat (serializeHeader h).1
        simpa [serializeHeader, Header.sections, Header.envelope] using this) h1
      obtain ⟨rfl, -⟩ := readName_of_prefix hp1 h2
      have hmod := Nat.mod_lt h.length (show 0 < 2 ^ 32 by norm_num)
      have hsame : h.msgFrom.bytes.length + h.msgTo.bytes.length + 29 = h.length % 2 ^ 32 := hlen'
      have hdef : h.length = h.msgFrom.bytes.length + h.msgTo.bytes.length + 29 := rfl
      omega
  · cases hd

end Fncs.Wire

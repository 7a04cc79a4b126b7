/-
`Message::deserializeHeader` as it walks its buffer: seven sections, each with
a loop, a test for the end of the buffer and a step over the separator. The
cursor is a `uint32_t`. `follows_deserializeHeader` relates it to the decoder
of `Fncs.Wire.Header`, which reads the bytes of the buffer alone; the one place
where the walk leaves the buffer is the tag, which is read before the test.
-/
import Fncs.Lib.Scanner
import Fncs.Wire.Header

namespace Fncs.Wire

open Codec Scanner

/-- An envelope in memory; `buffSize` is a `uint32_t`. -/
abbrev Envelope := Buffer (2 ^ 32)

/-- A name with one more byte in front. -/
def Name.cons (n : Name) (c : UInt8) (h : c ≠ 0) : Name :=
  ⟨c :: n.bytes, fun hm => (List.mem_cons.mp hm).elim (fun h0 => h h0.symm) n.noNul⟩

namespace Envelope

variable (b : Envelope)

/-- `++it`. -/
def advance : Scan Thrown Unit := Scan.advance (2 ^ 32)

/-- The loop over a name, of at most `turns` turns. Each turn looks at
`buff[it]`, once more where it appends it. -/
def nameLoop : ℕ → Scan Thrown Name
  | 0 => pure default
  | turns + 1 => do
    let it ← Scan.it
    if it < b.size then
      let c ← Scan.access b
      if h : c = 0 then pure default
      else
        advance
        let n ← nameLoop turns
        pure (n.cons c h)
    else pure default

/-- The section of a name. -/
def scanName (e : Thrown) : Scan Thrown Name := do
  let n ← nameLoop b b.size
  let it ← Scan.it
  if b.size ≤ it then throw e
  else
    advance
    pure n

/-- The loop over a field of `limit` bytes. -/
def fieldLoop : ℕ → Scan Thrown (List UInt8)
  | 0 => pure []
  | limit + 1 => do
    let it ← Scan.it
    if it < b.size then
      let c ← Scan.access b
      advance
      let bytes ← fieldLoop limit
      pure (c :: bytes)
    else pure []

/-- The section of a field of `limit` bytes. -/
def scanField (limit : ℕ) (e : Thrown) : Scan Thrown (List UInt8) := do
  let bytes ← fieldLoop b limit
  let it ← Scan.it
  if b.size ≤ it then throw e
  else
    advance
    pure bytes

/-- The section of the tag. -/
def scanTag : Scan Thrown UInt8 := do
  let tag ← Scan.access b
  advance
  let it ← Scan.it
  if b.size ≤ it then throw .deserializeTag
  else
    advance
    pure tag

/-- Nothing may be left. -/
def scanEnd : Scan Thrown Unit := do
  let it ← Scan.it
  if it ≠ b.size then throw .deserializeEnd else pure ()

/-- `deserializeHeader`. -/
def deserializeHeader : Scan Thrown Header := do
  let msgFrom ← scanName b .deserializeFrom
  let msgTo ← scanName b .deserializeTo
  let timeStamp ← scanField b 8 .deserializeTime
  let networkDeliverytime ← scanField b 8 .deserializeTime
  let size ← scanField b 4 .deserializeSize
  let tag ← scanTag b
  let delayThroughComm ← scanField b 1 .deserializeTime
  scanEnd b
  pure {
    msgFrom := msgFrom
    msgTo := msgTo
    timeStamp := UInt64.ofNat (leValue timeStamp)
    networkDeliverytime := UInt64.ofNat (leValue networkDeliverytime)
    size := UInt32.ofNat (leValue size)
    tag := tag
    delayThroughComm := leValue delayThroughComm != 0 }

/-- What `deserializeHeader` returns or throws, the cursor at the end, and the elements it accesses. -/
def scan : Except Thrown Header × Position := (deserializeHeader b).run ⟨0, []⟩

/-! ## The loops -/

variable {b} {p : Position}

theorem run_advance (h : p.it < b.size) : advance.run p = (.ok (), ⟨p.it + 1, p.accesses⟩) := by
  have := b.size_lt
  rw [advance, Scan.run_advance, Nat.mod_eq_of_lt (by omega)]

/-- A name's loop stops at the first zero byte, or at the end. -/
theorem run_nameLoop (turns : ℕ) (h : b.size - p.it ≤ turns) (hp : p.it ≤ b.size) : ∃ n reads,
    (nameLoop b turns).run p = (.ok n, ⟨p.it + n.bytes.length, p.accesses ++ reads⟩) ∧
      n.bytes = (b.rest p.it).takeWhile (· != 0) ∧ b.Inside reads := by
  induction turns generalizing p with
  | zero =>
    refine ⟨default, [], by simp [nameLoop, default], ?_, List.forall_mem_nil _⟩
    rw [Buffer.rest_of_le (by omega)]
    rfl
  | succ turns ih =>
    rw [nameLoop, Scan.run_bind_ok Scan.run_it]
    by_cases hlt : p.it < b.size
    · rw [if_pos hlt, Scan.run_bind_ok (Scan.run_access b), Buffer.rest_of_lt hlt]
      by_cases h0 : b.memory p.it = 0
      · refine ⟨default, [p.it], by simp [h0, default], by simp [h0, default], ?_⟩
        simpa [Buffer.Inside] using hlt
      · obtain ⟨n, reads, hrun, hn, hin⟩ := ih (p := ⟨p.it + 1, p.accesses ++ [p.it]⟩) (by simp only; omega) hlt
        refine ⟨n.cons _ h0, p.it :: reads, ?_, by simp [Name.cons, h0, hn], ?_⟩
        · rw [dif_neg h0, Scan.run_bind_ok (run_advance (p := ⟨p.it, p.accesses ++ [p.it]⟩) hlt), Scan.run_bind_ok hrun,
            Scan.run_pure]
          simp only [Name.cons, List.length_cons, List.append_assoc, List.singleton_append]
          rw [Nat.add_right_comm, Nat.add_assoc]
        · exact List.forall_mem_cons.mpr ⟨hlt, hin⟩
    · rw [if_neg hlt]
      refine ⟨default, [], by simp [default], ?_, List.forall_mem_nil _⟩
      rw [Buffer.rest_of_le (by omega)]
      rfl

/-- A field's loop takes what there is. -/
theorem run_fieldLoop (limit : ℕ) (hp : p.it ≤ b.size) : ∃ reads,
    (fieldLoop b limit).run p =
      (.ok ((b.rest p.it).take limit), ⟨min (p.it + limit) b.size, p.accesses ++ reads⟩) ∧ b.Inside reads := by
  induction limit generalizing p with
  | zero => exact ⟨[], by simp [fieldLoop, hp], List.forall_mem_nil _⟩
  | succ limit ih =>
    rw [fieldLoop, Scan.run_bind_ok Scan.run_it]
    by_cases hlt : p.it < b.size
    · obtain ⟨reads, hrun, hin⟩ := ih (p := ⟨p.it + 1, p.accesses ++ [p.it]⟩) hlt
      refine ⟨p.it :: reads, ?_, List.forall_mem_cons.mpr ⟨hlt, hin⟩⟩
      rw [if_pos hlt, Scan.run_bind_ok (Scan.run_access b),
        Scan.run_bind_ok (run_advance (p := ⟨p.it, p.accesses ++ [p.it]⟩) hlt), Scan.run_bind_ok hrun, Scan.run_pure,
        Buffer.rest_of_lt hlt]
      simp [Nat.add_right_comm, Nat.add_assoc]
    · have hend : p.it = b.size := by omega
      refine ⟨[], ?_, List.forall_mem_nil _⟩
      rw [if_neg hlt, Scan.run_pure, Buffer.rest_of_le (by omega), Nat.min_eq_right (by omega), ← hend]
      simp

/-! ## The sections -/

/-- The error that stands for the access of the tag past the end. -/
def Blind (e : Thrown) : Prop := e = .readPastEnd

theorem rest_advance {it : ℕ} {c : UInt8} {r : List UInt8} (h : b.rest it = c :: r) :
    it < b.size ∧ b.rest (it + 1) = r := by
  have hlt : it < b.size := by
    by_contra hn
    rw [Buffer.rest_of_le (not_lt.mp hn)] at h
    cases h
  rw [Buffer.rest_of_lt hlt] at h
  exact ⟨hlt, (List.cons.inj h).2⟩

theorem follows_scanName {e : Thrown} (he : ¬ Blind e) : Follows b Blind (scanName b e) (readName e) := by
  intro p hp
  obtain ⟨n, reads, hrun, hn, hin⟩ := run_nameLoop (b := b) b.size (Nat.sub_le _ _) hp
  have hrest : b.rest (p.it + n.bytes.length) = (b.rest p.it).dropWhile (· != 0) := by
    have hsplit : n.bytes ++ (b.rest p.it).dropWhile (· != 0) = b.rest p.it := by
      rw [hn]
      exact List.takeWhile_append_dropWhile
    calc b.rest (p.it + n.bytes.length) = (b.rest p.it).drop n.bytes.length := (Buffer.drop_rest _ _).symm
      _ = (n.bytes ++ (b.rest p.it).dropWhile (· != 0)).drop n.bytes.length := by rw [hsplit]
      _ = (b.rest p.it).dropWhile (· != 0) := List.drop_left
  have hscan : (scanName b e).run p = _ := (Scan.run_bind_ok hrun).trans (Scan.run_bind_ok Scan.run_it)
  cases hd : (b.rest p.it).dropWhile (· != 0) with
  | nil =>
    have hle : b.size ≤ p.it + n.bytes.length := by
      have := Buffer.length_rest (b := b) (p.it + n.bytes.length)
      rw [hrest, hd, List.length_nil] at this
      omega
    rw [if_pos hle, Scan.run_throw] at hscan
    exact .of_error hscan (by simp [readName, hd]) he hin
  | cons c r =>
    rw [hd] at hrest
    obtain ⟨hlt, hnext⟩ := rest_advance hrest
    rw [if_neg (not_le.mpr hlt), Scan.run_bind_ok (run_advance hlt), Scan.run_pure] at hscan
    refine .of_ok hscan ?_ hlt hnext hin
    simp only [readName, hd, ← hn]

theorem follows_scanField {limit : ℕ} {e : Thrown} (he : ¬ Blind e) :
    Follows b Blind (scanField b limit e) (readField limit e) := by
  intro p hp
  obtain ⟨reads, hrun, hin⟩ := run_fieldLoop (b := b) limit hp
  have hscan : (scanField b limit e).run p = _ := (Scan.run_bind_ok hrun).trans (Scan.run_bind_ok Scan.run_it)
  have hlen := Buffer.length_rest (b := b) p.it
  by_cases hle : b.size ≤ p.it + limit
  · rw [if_pos (by simp [hle]), Scan.run_throw] at hscan
    exact .of_error hscan (by rw [readField, if_pos (by omega)]) he hin
  · have hmin : min (p.it + limit) b.size = p.it + limit := by omega
    rw [hmin] at hscan
    rw [if_neg hle, Scan.run_bind_ok (run_advance (by simpa using hle)), Scan.run_pure] at hscan
    have hlt := not_le.mp hle
    refine .of_ok hscan (by rw [readField, if_neg (by omega)]) hlt ?_ hin
    rw [Buffer.drop_rest, Nat.add_assoc]

/-- Before the end the tag is read inside the buffer. -/
theorem follows_scanTag {p : Position} (hp : p.it < b.size) : FollowsAt b Blind p (scanTag b) readTag := by
  have hscan : (scanTag b).run p = _ := (Scan.run_bind_ok (Scan.run_access b)).trans
    ((Scan.run_bind_ok (run_advance (p := ⟨p.it, p.accesses ++ [p.it]⟩) hp)).trans (Scan.run_bind_ok Scan.run_it))
  have hin : b.Inside [p.it] := by simpa [Buffer.Inside] using hp
  by_cases hle : b.size ≤ p.it + 1
  · rw [if_pos hle, Scan.run_throw] at hscan
    refine .of_error hscan ?_ (by simp [Blind]) hin
    rw [Buffer.rest_of_lt hp, Buffer.rest_of_le hle]
    rfl
  · have hlt := not_le.mp hle
    rw [if_neg hle, Scan.run_bind_ok (run_advance hlt), Scan.run_pure] at hscan
    refine .of_ok hscan ?_ hlt rfl hin
    rw [Buffer.rest_of_lt hp, Buffer.rest_of_lt hlt]
    rfl

/-- Nothing is left. -/
def readEnd : Decoder Thrown Unit
  | [] => .ok ((), [])
  | _ :: _ => .error .deserializeEnd

theorem follows_scanEnd : Follows b Blind (scanEnd b) readEnd := by
  intro p hp
  have hscan : (scanEnd b).run p = _ := Scan.run_bind_ok Scan.run_it
  by_cases h : p.it = b.size
  · have hok : (scanEnd b).run p = (.ok (), ⟨p.it, p.accesses ++ []⟩) := by
      rw [hscan, if_neg (not_not.mpr h)]
      simp
    refine .of_ok hok ?_ hp (Buffer.rest_of_le h.ge) (List.forall_mem_nil _)
    rw [Buffer.rest_of_le h.ge]
    rfl
  · have hthrow : (scanEnd b).run p = (.error .deserializeEnd, ⟨p.it, p.accesses ++ []⟩) := by simp [hscan, h]
    refine .of_error hthrow ?_ (by simp [Blind]) (List.forall_mem_nil _)
    rw [Buffer.rest_of_lt (by omega)]
    rfl

/-! ## The whole header -/

/-- At the end of the buffer the tag is read past it. What follows throws, also
when the cursor wraps. -/
theorem throws_scanTag {p : Position} (hp : p.it = b.size) (mk : UInt8 → List UInt8 → Header) : ∃ e it' reads,
    (do
      let tag ← scanTag b
      let delayThroughComm ← scanField b 1 .deserializeTime
      scanEnd b
      pure (mk tag delayThroughComm) : Scan Thrown Header).run p = (.error e, ⟨it', p.accesses ++ reads⟩) ∧
      ¬ b.Inside reads := by
  have hout {reads : List ℕ} (h : b.size ∈ reads) : ¬ b.Inside reads := fun hin => lt_irrefl _ (hin _ h)
  have hscan : (scanTag b).run p = _ := (Scan.run_bind_ok (Scan.run_access b)).trans
    ((Scan.run_bind_ok Scan.run_advance).trans (Scan.run_bind_ok Scan.run_it))
  rw [hp] at hscan
  by_cases hw : b.size + 1 < 2 ^ 32
  · simp only [Nat.mod_eq_of_lt hw] at hscan
    rw [if_pos (Nat.le_succ _), Scan.run_throw] at hscan
    exact ⟨_, _, [b.size], Scan.run_bind_error hscan, hout List.mem_cons_self⟩
  · have hsize : b.size = 2 ^ 32 - 1 := by
      have := b.size_lt
      omega
    have hmod : (b.size + 1) % 2 ^ 32 = 0 := by omega
    simp only [hmod] at hscan
    rw [if_neg (show ¬ b.size ≤ 0 by omega), Scan.run_bind_ok (run_advance (show 0 < b.size by omega)),
      Scan.run_pure] at hscan
    rw [Scan.run_bind_ok hscan]
    obtain ⟨reads, hloop, -⟩ := run_fieldLoop (b := b) 1 (p := ⟨0 + 1, p.accesses ++ [b.size]⟩)
      (show 0 + 1 ≤ b.size by omega)
    have hmin : min (0 + 1 + 1) b.size = 2 := by omega
    simp only [hmin] at hloop
    have hfield := (Scan.run_bind_ok (f := fun bytes => do
      let it ← Scan.it
      if b.size ≤ it then throw Thrown.deserializeTime
      else
        advance
        pure bytes) hloop).trans (Scan.run_bind_ok Scan.run_it)
    rw [if_neg (show ¬ b.size ≤ 2 by omega), Scan.run_bind_ok (run_advance (show 2 < b.size by omega)),
      Scan.run_pure] at hfield
    rw [scanField, Scan.run_bind_ok hfield]
    have hend : (scanEnd b).run ⟨2 + 1, p.accesses ++ [b.size] ++ reads⟩ =
        (.error .deserializeEnd, ⟨2 + 1, p.accesses ++ ([b.size] ++ reads)⟩) := by
      rw [scanEnd, Scan.run_bind_ok Scan.run_it, if_pos (show 2 + 1 ≠ b.size by omega), Scan.run_throw,
        List.append_assoc]
    exact ⟨_, _, _, Scan.run_bind_error hend, hout (by simp)⟩

/-- The sections after the size. -/
theorem follows_tail (mk : UInt8 → List UInt8 → Header) : Follows b Blind
    (do
      let tag ← scanTag b
      let delayThroughComm ← scanField b 1 .deserializeTime
      scanEnd b
      pure (mk tag delayThroughComm))
    (do
      let tag ← readTag
      let delayThroughComm ← readField 1 .deserializeTime
      readEnd
      pure (mk tag delayThroughComm)) := by
  intro p hp
  rcases hp.lt_or_eq with hlt | heq
  · exact (follows_scanTag hlt).bind fun tag =>
      (follows_scanField (by simp [Blind])).bind fun d => follows_scanEnd.bind fun _ => .pure _
  · obtain ⟨e, it', reads, hrun, hout⟩ := throws_scanTag heq mk
    refine ⟨_, it', reads, hrun, ?_⟩
    have hpast : (do
        let tag ← readTag
        let delayThroughComm ← readField 1 .deserializeTime
        readEnd
        pure (mk tag delayThroughComm) : Decoder Thrown Header) (b.rest p.it) = .error .readPastEnd := by
      rw [Buffer.rest_of_le heq.ge]
      rfl
    rw [hpast]
    exact ⟨⟨e, rfl⟩, fun _ => hout, fun h => absurd rfl h⟩

/-- `readHeader`, and nothing may be left. -/
def readWhole : Decoder Thrown Header := do
  let h ← readHeader
  readEnd
  pure h

/-- The walk does what the decoder does, as far as the buffer goes. -/
theorem follows_deserializeHeader : Follows b Blind (deserializeHeader b) readWhole := by
  have hwhole : readWhole = (do
      let msgFrom ← readName .deserializeFrom
      let msgTo ← readName .deserializeTo
      let timeStamp ← readField 8 .deserializeTime
      let networkDeliverytime ← readField 8 .deserializeTime
      let size ← readField 4 .deserializeSize
      let tag ← readTag
      let delayThroughComm ← readField 1 .deserializeTime
      readEnd
      pure {
        msgFrom := msgFrom
        msgTo := msgTo
        timeStamp := UInt64.ofNat (leValue timeStamp)
        networkDeliverytime := UInt64.ofNat (leValue networkDeliverytime)
        size := UInt32.ofNat (leValue size)
        tag := tag
        delayThroughComm := leValue delayThroughComm != 0 }) := by
    simp only [readWhole, readHeader, bind_assoc, pure_bind]
  rw [hwhole]
  refine (follows_scanName (by simp [Blind])).bind fun f => (follows_scanName (by simp [Blind])).bind fun t => ?_
  refine (follows_scanField (by simp [Blind])).bind fun ts => (follows_scanField (by simp [Blind])).bind fun nd => ?_
  exact (follows_scanField (by simp [Blind])).bind fun sz => follows_tail fun tag d => ⟨f, t, _, _, _, tag, _⟩

/-- What the walk comes to. -/
theorem scan_cases (b : Envelope) :
    match readWhole b.bytes with
    | .ok (h, _) => b.scan.1 = .ok h ∧ b.Inside b.scan.2.accesses
    | .error e => (∃ e', b.scan.1 = .error e') ∧ (b.Inside b.scan.2.accesses ↔ e ≠ .readPastEnd) := by
  obtain ⟨r, it', reads, hrun, hm⟩ := follows_deserializeHeader (b := b) ⟨0, []⟩ (Nat.zero_le _)
  have hscan : b.scan = (r, ⟨it', reads⟩) := by simpa [scan] using hrun
  rw [hscan]
  cases hr : readWhole b.bytes with
  | error e =>
    simp only [show readWhole (b.rest (Position.mk 0 []).it) = _ from hr] at hm
    obtain ⟨he, hblind, hclear⟩ := hm
    exact ⟨he, fun hin hb => hblind hb hin, fun hb => (hclear hb).2⟩
  | ok x =>
    simp only [show readWhole (b.rest (Position.mk 0 []).it) = _ from hr] at hm
    exact ⟨hm.1, hm.2.2.2⟩

/-! ## The language -/

/-- Two names, each ended by a zero byte, and `n` more bytes. -/
def Splits (bytes f t r : List UInt8) (n : ℕ) : Prop :=
  0 ∉ f ∧ 0 ∉ t ∧ r.length = n ∧ bytes = f ++ [0] ++ t ++ [0] ++ r

/-- `r` holds the bytes of the numbers, as they lie in memory, each with a
separator after it. -/
structure Spells (h : Header) (r : List UInt8) : Prop where
  timeStamp : leBytes 8 h.timeStamp.toNat = r.take 8
  networkDeliverytime : leBytes 8 h.networkDeliverytime.toNat = (r.drop 9).take 8
  size : leBytes 4 h.size.toNat = (r.drop 18).take 4
  tag : [h.tag] = (r.drop 23).take 1
  delayThroughComm : h.delayThroughComm = (leValue ((r.drop 25).take 1) != 0)

/-- The sections after the names. -/
def readNumbers (f t : Name) : Decoder Thrown Header := do
  let timeStamp ← readField 8 .deserializeTime
  let networkDeliverytime ← readField 8 .deserializeTime
  let size ← readField 4 .deserializeSize
  let tag ← readTag
  let delayThroughComm ← readField 1 .deserializeTime
  pure {
    msgFrom := f
    msgTo := t
    timeStamp := UInt64.ofNat (leValue timeStamp)
    networkDeliverytime := UInt64.ofNat (leValue networkDeliverytime)
    size := UInt32.ofNat (leValue size)
    tag := tag
    delayThroughComm := leValue delayThroughComm != 0 }

theorem readHeader_eq : readHeader = (do
    let f ← readName .deserializeFrom
    let t ← readName .deserializeTo
    readNumbers f t) := rfl

/-- Before the end of the numbers every section throws; the tag is missed just at 23 bytes. -/
theorem readNumbers_short {f t : Name} {r : List UInt8} (h : r.length < 27) : ∃ e, readNumbers f t r = .error e ∧
    (e = .readPastEnd ↔ r.length = 23) := by
  unfold readNumbers
  simp only [bind, StateT.bind, readField]
  by_cases h8 : r.length ≤ 8
  · exact ⟨_, by rw [if_pos h8]; rfl, by simp; omega⟩
  simp only [if_neg h8, Except.bind, List.length_drop]
  by_cases h17 : r.length - (8 + 1) ≤ 8
  · exact ⟨_, by rw [if_pos h17], by simp; omega⟩
  simp only [if_neg h17, List.drop_drop, List.length_drop]
  by_cases h22 : r.length - (8 + 1 + (8 + 1)) ≤ 4
  · exact ⟨_, by rw [if_pos h22], by simp; omega⟩
  simp only [if_neg h22]
  have hlen : (r.drop (8 + 1 + (8 + 1) + (4 + 1))).length = r.length - 23 := List.length_drop
  generalize r.drop (8 + 1 + (8 + 1) + (4 + 1)) = d at hlen ⊢
  rcases d with _ | ⟨tag, _ | ⟨nul, rest⟩⟩
  · exact ⟨_, rfl, by simp at hlen ⊢; omega⟩
  · exact ⟨_, rfl, by simp at hlen ⊢; omega⟩
  · have h1 : rest.length ≤ 1 := by simp at hlen; omega
    exact ⟨_, by simp only [readTag]; rw [if_pos h1], by simp at hlen ⊢; omega⟩

/-- With all 27 bytes the numbers are read off them. -/
theorem readNumbers_long {f t : Name} {r : List UInt8} (h : 27 ≤ r.length) :
    ∃ hdr, readNumbers f t r = .ok (hdr, r.drop 27) ∧ hdr.msgFrom = f ∧ hdr.msgTo = t ∧ Spells hdr r := by
  have hfield {n k : ℕ} {e : Thrown} (hk : n + k < r.length) :
      readField n e (r.drop k) = .ok ((r.drop k).take n, r.drop (k + (n + 1))) := by
    rw [readField, if_neg (by rw [List.length_drop]; omega), List.drop_drop]
  have htag : ∃ tag, (r.drop 23).take 1 = [tag] ∧ readTag (r.drop 23) = .ok (tag, r.drop 25) := by
    have h2 : (r.drop 23).drop 2 = r.drop 25 := by rw [List.drop_drop]
    have hlen : (r.drop 23).length = r.length - 23 := List.length_drop
    generalize r.drop 23 = d at hlen h2 ⊢
    rcases d with _ | ⟨tag, _ | ⟨nul, rest⟩⟩
    · simp at hlen
      omega
    · simp at hlen
      omega
    · exact ⟨tag, rfl, by rw [← h2]; rfl⟩
  obtain ⟨tag, hbyte, htag⟩ := htag
  have hrun : readNumbers f t r = .ok (⟨f, t, UInt64.ofNat (leValue (r.take 8)),
      UInt64.ofNat (leValue ((r.drop 9).take 8)), UInt32.ofNat (leValue ((r.drop 18).take 4)), tag,
      leValue ((r.drop 25).take 1) != 0⟩, r.drop 27) := by
    simp only [readNumbers, bind_ok]
    exact ⟨_, _, hfield (k := 0) (by omega), _, _, hfield (k := 9) (by omega), _, _, hfield (k := 18) (by omega), _, _,
      htag, _, _, hfield (k := 25) (by omega), rfl⟩
  have h64 {k : ℕ} (hk : k + 8 ≤ r.length) :
      leBytes 8 (UInt64.ofNat (leValue ((r.drop k).take 8))).toNat = (r.drop k).take 8 := by
    have hlen : ((r.drop k).take 8).length = 8 := by simp; omega
    have hlt := leValue_lt ((r.drop k).take 8)
    have hbytes := leBytes_leValue ((r.drop k).take 8)
    rw [hlen] at hlt hbytes
    rw [UInt64.toNat_ofNat', Nat.mod_eq_of_lt (hlt.trans_eq (by norm_num)), hbytes]
  have h32 : leBytes 4 (UInt32.ofNat (leValue ((r.drop 18).take 4))).toNat = (r.drop 18).take 4 := by
    have hlen : ((r.drop 18).take 4).length = 4 := by simp; omega
    have hlt := leValue_lt ((r.drop 18).take 4)
    have hbytes := leBytes_leValue ((r.drop 18).take 4)
    rw [hlen] at hlt hbytes
    rw [UInt32.toNat_ofNat', Nat.mod_eq_of_lt (hlt.trans_eq (by norm_num)), hbytes]
  exact ⟨_, hrun, rfl, rfl, h64 (k := 0) (by omega), h64 (by omega), h32, hbyte.symm, rfl⟩

theorem readWhole_of_splits {bytes f t r : List UInt8} {n : ℕ} (h : Splits bytes f t r n) :
    readWhole bytes = (do
      let hdr ← readNumbers ⟨f, h.1⟩ ⟨t, h.2.1⟩
      readEnd
      pure hdr) r := by
  obtain ⟨hf, ht, -, rfl⟩ := h
  have hnames : readHeader (f ++ [0] ++ t ++ [0] ++ r) = readNumbers ⟨f, hf⟩ ⟨t, ht⟩ r := by
    have h1 := reads_readName .deserializeFrom ⟨f, hf⟩ (t ++ [0] ++ r)
    have h2 := reads_readName .deserializeTo ⟨t, ht⟩ r
    rw [show f ++ [0] ++ t ++ [0] ++ r = f ++ [0] ++ (t ++ [0] ++ r) by simp, readHeader_eq]
    show (readName .deserializeFrom (f ++ [0] ++ (t ++ [0] ++ r)) >>= fun y => _) = _
    rw [h1]
    show (readName .deserializeTo (t ++ [0] ++ r) >>= fun y => _) = _
    rw [h2]
    rfl
  show (readHeader (f ++ [0] ++ t ++ [0] ++ r) >>= fun y => _) = _
  rw [hnames]
  rfl

/-- Without its two names an envelope is not read. -/
theorem splits_or_throws (bytes : List UInt8) : (∃ f t r n, Splits bytes f t r n) ∨
    ∃ e, readWhole bytes = .error e ∧ e ≠ .readPastEnd := by
  cases h1 : readName .deserializeFrom bytes with
  | error e =>
    refine .inr ⟨e, ?_, ?_⟩
    · show ((readName .deserializeFrom bytes >>= fun y => _) >>= fun y => _) = _
      rw [h1]
      rfl
    · rw [readName] at h1
      split at h1 <;> cases h1
      decide
  | ok x =>
    obtain ⟨f, r1⟩ := x
    cases h2 : readName .deserializeTo r1 with
    | error e =>
      refine .inr ⟨e, ?_, ?_⟩
      · show ((readName .deserializeFrom bytes >>= fun y => _) >>= fun y => _) = _
        rw [h1]
        show ((readName .deserializeTo r1 >>= fun y => _) >>= fun y => _) = _
        rw [h2]
        rfl
      · rw [readName] at h2
        split at h2 <;> cases h2
        decide
    | ok x =>
      obtain ⟨t, r⟩ := x
      refine .inl ⟨f.bytes, t.bytes, r, _, f.noNul, t.noNul, rfl, ?_⟩
      rw [readName_ok h1, readName_ok h2]
      simp

/-- What comes of an envelope with its two names. -/
theorem readWhole_splits {bytes f t r : List UInt8} {n : ℕ} (h : Splits bytes f t r n) :
    (n = 27 ∧ ∃ hdr, readWhole bytes = .ok (hdr, []) ∧ hdr.msgFrom.bytes = f ∧ hdr.msgTo.bytes = t ∧ Spells hdr r) ∨
      (n ≠ 27 ∧ ∃ e, readWhole bytes = .error e ∧ (e = .readPastEnd ↔ n = 23)) := by
  have hn : r.length = n := h.2.2.1
  rw [readWhole_of_splits h]
  by_cases hlt : r.length < 27
  · obtain ⟨e, he, hiff⟩ := readNumbers_short (f := ⟨f, h.1⟩) (t := ⟨t, h.2.1⟩) hlt
    refine .inr ⟨by omega, e, ?_, hn ▸ hiff⟩
    show (readNumbers _ _ r >>= fun y => _) = _
    rw [he]
    rfl
  · obtain ⟨hdr, hr, hf, ht, hs⟩ := readNumbers_long (f := ⟨f, h.1⟩) (t := ⟨t, h.2.1⟩) (not_lt.mp hlt)
    have hend : (do
        let hdr ← readNumbers ⟨f, h.1⟩ ⟨t, h.2.1⟩
        readEnd
        pure hdr : Decoder Thrown Header) r = (readEnd (r.drop 27) >>= fun y => .ok (hdr, y.2)) := by
      show (readNumbers _ _ r >>= fun y => _) = _
      rw [hr]
      rfl
    rw [hend]
    cases hd : r.drop 27 with
    | nil =>
      have hle := List.drop_eq_nil_iff.mp hd
      exact .inl ⟨by omega, hdr, rfl, by rw [hf], by rw [ht], hs⟩
    | cons c rest =>
      have hlen := congrArg List.length hd
      rw [List.length_drop, List.length_cons] at hlen
      exact .inr ⟨by omega, _, rfl, by simp; omega⟩

/-- The tag is missed where the buffer ends after the size. -/
theorem readWhole_pastEnd_iff {bytes : List UInt8} :
    readWhole bytes = .error .readPastEnd ↔ ∃ f t r, Splits bytes f t r 23 := by
  constructor
  · intro h
    obtain ⟨f, t, r, n, hs⟩ | ⟨e, he, hne⟩ := splits_or_throws bytes
    · obtain ⟨-, hdr, hr, -⟩ | ⟨-, e, he, hiff⟩ := readWhole_splits hs
      · cases h.symm.trans hr
      · obtain rfl := Except.error.inj (h.symm.trans he)
        exact ⟨f, t, r, hiff.mp rfl ▸ hs⟩
    · exact absurd (Except.error.inj (he.symm.trans h)) hne
  · rintro ⟨f, t, r, hs⟩
    obtain ⟨h, -⟩ | ⟨-, e, he, hiff⟩ := readWhole_splits hs
    · cases h
    · rw [he, hiff.mpr rfl]

/-- `deserializeHeader` accepts just the buffers that consist of two names without zero bytes, a zero
byte after each, and 27 more bytes, which hold the numbers; it throws on all others. -/
theorem scan_accepts_iff (b : Envelope) :
    ((∃ h, b.scan.1 = .ok h) ↔ ∃ f t r, Splits b.bytes f t r 27) ∧
    (∀ h f t r, b.scan.1 = .ok h → Splits b.bytes f t r 27 →
      h.msgFrom.bytes = f ∧ h.msgTo.bytes = t ∧ Spells h r) ∧
    ((¬ ∃ f t r, Splits b.bytes f t r 27) → ∃ e, b.scan.1 = .error e) := by
  have hcases := scan_cases b
  have accepts {f t r : List UInt8} (h : Splits b.bytes f t r 27) :
      ∃ hdr, b.scan.1 = .ok hdr ∧ hdr.msgFrom.bytes = f ∧ hdr.msgTo.bytes = t ∧ Spells hdr r := by
    obtain ⟨-, hdr, hr, hs⟩ | ⟨hne, -⟩ := readWhole_splits h
    · rw [hr] at hcases
      exact ⟨hdr, hcases.1, hs⟩
    · exact absurd rfl hne
  have throws (h : ¬ ∃ f t r, Splits b.bytes f t r 27) : ∃ e, b.scan.1 = .error e := by
    have herr : ∃ e, readWhole b.bytes = .error e := by
      obtain ⟨f, t, r, n, hs⟩ | ⟨e, he, -⟩ := splits_or_throws b.bytes
      · obtain ⟨rfl, -⟩ | ⟨-, e, he, -⟩ := readWhole_splits hs
        · exact absurd ⟨f, t, r, hs⟩ h
        · exact ⟨e, he⟩
      · exact ⟨e, he⟩
    obtain ⟨e, he⟩ := herr
    rw [he] at hcases
    exact hcases.1
  refine ⟨⟨fun ⟨h, hh⟩ => ?_, fun ⟨f, t, r, h⟩ => ?_⟩, fun h f t r hh hs => ?_, throws⟩
  · by_contra hn
    obtain ⟨e, he⟩ := throws hn
    cases hh.symm.trans he
  · obtain ⟨hdr, hr, -⟩ := accepts h
    exact ⟨hdr, hr⟩
  · obtain ⟨hdr, hr, hf⟩ := accepts hs
    obtain rfl := Except.ok.inj (hh.symm.trans hr)
    exact hf

/-- `deserializeHeader` stays inside its buffer unless the buffer ends just where the tag should be: two
names, a zero byte after each, and 23 more bytes. -/
theorem scan_inside_iff (b : Envelope) :
    b.Inside b.scan.2.accesses ↔ ¬ ∃ f t r, Splits b.bytes f t r 23 := by
  rw [← readWhole_pastEnd_iff]
  have hcases := scan_cases b
  cases hr : readWhole b.bytes with
  | error e =>
    rw [hr] at hcases
    rw [hcases.2, ne_eq, Except.error.injEq]
  | ok x =>
    rw [hr] at hcases
    exact iff_of_true hcases.2 (by simp)

/-- 25 zero bytes: two empty names, and the numbers cut before the tag. -/
def cutBeforeTag : Envelope := ⟨fun _ => 0, 25, by norm_num⟩

/-- The tag is read past the end. -/
theorem cut_read_past_end : ¬ ∀ b : Envelope, b.Inside b.scan.2.accesses := fun h =>
  absurd (h cutBeforeTag) (by decide +kernel)

end Envelope

end Fncs.Wire

/-
A `Message` in memory (`message.h`, `message.cpp`). Its payload buffer is a
pointer beside the size field; four constructors and the setters write the two,
while `operator==`, the copy constructor and `ZmqNetworkInterface::send` read as
many bytes as the field says. Names are any bytes here, and a member that a
constructor does not write holds whatever the memory held.
-/
import Fncs.Sync.Time
import Fncs.Wire.Header
import Fncs.Lib.Trace

namespace Fncs.Memory

open Codec

/-- The members of a `Message`. A null `data` is `none`. -/
structure Message where
  msgFrom : List UInt8
  msgTo : List UInt8
  timeStamp : UInt64
  tag : UInt8
  data : Option (List UInt8)
  size : UInt32
  networkDeliverytime : UInt64
  delayThroughComm : Bool
  deriving DecidableEq, Repr

/-- The `data` and `dataSize` a caller passes: as many bytes as it says. -/
structure Payload where
  bytes : List UInt8
  length_lt : bytes.length < 2 ^ 32

def Payload.size (p : Payload) : UInt32 := .ofNat p.bytes.length

/-- What the members that the copy constructor leaves alone hold. -/
structure Indeterminate where
  tag : UInt8
  networkDeliverytime : UInt64
  delayThroughComm : Bool
  deriving DecidableEq, Repr

inductive Fault
  | thrown (why : Wire.Thrown)
  /-- A null buffer where the size says there are bytes. -/
  | nullData
  /-- A buffer is read beyond its last byte. -/
  | readPastEnd
  | notAllowed
  deriving DecidableEq, Repr

namespace Message

/-- `new uint8_t[n]` and `memcpy`, unless there is nothing to copy. -/
def buffer (p : Payload) : Option (List UInt8) := if p.size > 0 then some p.bytes else none

/-- The explicit constructors, in a simulator with integrator `g`. -/
def create (g : Integrator) (msgFrom msgTo : List UInt8) (timeStamp : TIME) (p : Payload) (tag : UInt8) :
    Message where
  msgFrom := msgFrom
  msgTo := msgTo
  timeStamp := UInt64.ofNat (subTime (convertToFrameworkTime g.simTimeMetric timeStamp) g.offset)
  tag := tag
  data := buffer p
  size := p.size
  networkDeliverytime := UInt64.ofNat Infinity
  delayThroughComm := true

/-- The first `n` bytes of a buffer. -/
def read (n : UInt32) : Option (List UInt8) → Except Fault (List UInt8)
  | none => .error .nullData
  | some bytes => if bytes.length < n.toNat then .error .readPastEnd else .ok (bytes.take n.toNat)

/-- The members once the header has been deserialized. -/
def ofHeader (h : Wire.Header) (data : Option (List UInt8)) : Message where
  msgFrom := h.msgFrom.bytes
  msgTo := h.msgTo.bytes
  timeStamp := h.timeStamp
  tag := h.tag
  data := data
  size := h.size
  networkDeliverytime := h.networkDeliverytime
  delayThroughComm := h.delayThroughComm

/-- The constructor from an envelope. Given data is copied, also when there are 0 bytes of it. -/
def ofEnvelope (envelope : List UInt8) (size : UInt32) (data : Option (List UInt8)) : Except Fault Message :=
  match Wire.deserializeHeader envelope size with
  | .error e => .error (.thrown e)
  | .ok h =>
    match data with
    | none => .ok (ofHeader h none)
    | some bytes => (read h.size (some bytes)).map fun bytes => ofHeader h (some bytes)

/-- The copy constructor, in memory that holds `memory`: `tag` is assigned to itself. -/
def copy (memory : Indeterminate) (other : Message) : Except Fault Message := do
  let data ← if other.size > 0 then (read other.size other.data).map some else .ok none
  .ok { other with
    data := data
    tag := memory.tag
    networkDeliverytime := memory.networkDeliverytime
    delayThroughComm := memory.delayThroughComm }

/-- The size is left as it is. -/
def setData (p : Payload) (m : Message) : Message := { m with data := buffer p }

def setTo (msgTo : List UInt8) (m : Message) : Message := { m with msgTo := msgTo }

def setDeliveryTime (g : Integrator) (currentTime : TIME) (m : Message) : Message :=
  { m with networkDeliverytime :=
      UInt64.ofNat (subTime (convertToFrameworkTime g.simTimeMetric currentTime) m.timeStamp.toNat) }

def setDelayThroughComm (val : Bool) (m : Message) : Message := { m with delayThroughComm := val }

/-- `operator==`. The assertions on the buffers are in `read`. -/
def equals (m that : Message) : Except Fault Bool :=
  if m.msgFrom ≠ that.msgFrom then .ok false
  else if m.msgTo ≠ that.msgTo then .ok false
  else if m.timeStamp ≠ that.timeStamp then .ok false
  else if m.size ≠ that.size then .ok false
  else if m.tag ≠ that.tag then .ok false
  else if m.size > 0 then do
    let bytes ← read m.size m.data
    let thatBytes ← read m.size that.data
    .ok (bytes == thatBytes)
  else .ok true

/-- The bytes of `serializeHeader`. -/
def serializeHeader (m : Message) : List UInt8 :=
  [m.msgFrom,
   m.msgTo,
   leBytes 8 m.timeStamp.toNat,
   leBytes 8 m.networkDeliverytime.toNat,
   leBytes 4 m.size.toNat,
   [m.tag],
   Wire.boolBytes m.delayThroughComm].flatMap fun bytes => bytes ++ [0]

/-- The envelope and the payload, if any, that `ZmqNetworkInterface::send` hands to the socket. -/
def send (m : Message) : Except Fault (List UInt8 × Option (List UInt8)) :=
  if m.size > 0 then (read m.size m.data).map fun bytes => (m.serializeHeader, some bytes)
  else .ok (m.serializeHeader, none)

/-- A decoded header is serialized as it came. -/
theorem serializeHeader_ofHeader (h : Wire.Header) (data : Option (List UInt8)) :
    (ofHeader h data).serializeHeader = (Wire.serializeHeader h).1 := rfl

end Message

/-- A message that has been built, and the one it is a copy of, while neither has been changed. -/
structure Object where
  message : Message
  original : Option Message
  deriving DecidableEq, Repr

inductive Event
  | create (g : Integrator) (msgFrom msgTo : List UInt8) (timeStamp : TIME) (p : Payload) (tag : UInt8)
  | ofEnvelope (envelope : List UInt8) (size : UInt32) (data : Option (List UInt8))
  /-- What follows is done to the copy. -/
  | copy (memory : Indeterminate)
  | setData (p : Payload)
  | setTo (msgTo : List UInt8)
  | setDeliveryTime (g : Integrator) (currentTime : TIME)
  | setDelayThroughComm (val : Bool)

/-- A message is built first. -/
def step : Option Object → Event → Except Fault (Option Object)
  | none, .create g msgFrom msgTo timeStamp p tag => .ok (some ⟨.create g msgFrom msgTo timeStamp p tag, none⟩)
  | none, .ofEnvelope envelope size data =>
    (Message.ofEnvelope envelope size data).map fun m => some ⟨m, none⟩
  | some x, .copy memory => (x.message.copy memory).map fun m => some ⟨m, some x.message⟩
  | some x, .setData p => .ok (some ⟨x.message.setData p, none⟩)
  | some x, .setTo msgTo => .ok (some ⟨x.message.setTo msgTo, none⟩)
  | some x, .setDeliveryTime g currentTime => .ok (some ⟨x.message.setDeliveryTime g currentTime, none⟩)
  | some x, .setDelayThroughComm val => .ok (some ⟨x.message.setDelayThroughComm val, none⟩)
  | _, _ => .error .notAllowed

/-- The buffer is null iff the size is 0, and otherwise holds that many bytes. -/
structure Message.Represented (m : Message) : Prop where
  null_iff : m.data = none ↔ m.size = 0
  length : ∀ bytes, m.data = some bytes → bytes.length = m.size.toNat

/-- The message is represented, its readers find their bytes, and a copy equals its original. -/
structure Object.Sound (x : Object) : Prop where
  represented : x.message.Represented
  sendable : ∃ parts, x.message.send = .ok parts
  copyable : ∀ memory, ∃ m, x.message.copy memory = .ok m
  comparable : x.message.equals x.message = .ok true
  copied : ∀ m, x.original = some m → x.message.equals m = .ok true ∧ x.message.serializeHeader = m.serializeHeader

/-- Given data goes with an announced payload, new data is as long as the old,
and a copy is made where the memory happens to hold what it leaves out. -/
def Careful (s : Option Object) : Event → Prop
  | .ofEnvelope envelope size data => ∀ h, Wire.deserializeHeader envelope size = .ok h → (data = none ↔ h.size = 0)
  | .copy memory => ∀ x, s = some x → memory.tag = x.message.tag ∧
      memory.networkDeliverytime = x.message.networkDeliverytime ∧ memory.delayThroughComm = x.message.delayThroughComm
  | .setData p => ∀ x, s = some x → p.size = x.message.size
  | _ => True

variable {m c : Message} {p : Payload} {x : Object} {s s' : Option Object} {e : Event}

/-! ## The buffer -/

theorem size_pos_iff {n : UInt32} : n > 0 ↔ n ≠ 0 := by
  rw [gt_iff_lt, UInt32.lt_iff_toNat_lt, ne_eq, ← UInt32.toNat_inj]
  exact Nat.pos_iff_ne_zero

@[simp] theorem Payload.toNat_size (p : Payload) : p.size.toNat = p.bytes.length := by
  rw [size, UInt32.toNat_ofNat', Nat.mod_eq_of_lt p.length_lt]

/-- A buffer for given bytes represents a size exactly when there are that many of them. -/
theorem represented_buffer_iff (h : m.data = Message.buffer p) : m.Represented ↔ p.size = m.size := by
  by_cases hp : p.size > 0
  · have hdata : m.data = some p.bytes := h.trans (if_pos hp)
    constructor
    · intro hr
      rw [← UInt32.toNat_inj, p.toNat_size]
      exact hr.length _ hdata
    · intro he
      refine ⟨?_, fun bytes hb => ?_⟩
      · rw [hdata, ← he]
        exact iff_of_false nofun (size_pos_iff.mp hp)
      · obtain rfl := Option.some.inj (hdata.symm.trans hb)
        rw [← he, p.toNat_size]
  · have h0 : p.size = 0 := not_not.mp fun hne => hp (size_pos_iff.mpr hne)
    have hdata : m.data = none := h.trans (if_neg hp)
    rw [h0]
    constructor
    · intro hr
      exact (hr.null_iff.mp hdata).symm
    · intro he
      exact ⟨iff_of_true hdata he.symm, fun bytes hb => by rw [hdata] at hb; cases hb⟩

/-- Who reads as many bytes as the size says finds them. -/
theorem Message.Represented.read (h : m.Represented) (hs : m.size > 0) :
    ∃ bytes, m.data = some bytes ∧ Message.read m.size m.data = .ok bytes := by
  cases hd : m.data with
  | none => exact absurd (h.null_iff.mp hd) (size_pos_iff.mp hs)
  | some bytes =>
    have hlen := h.length bytes hd
    refine ⟨bytes, rfl, ?_⟩
    rw [Message.read, if_neg (by omega), List.take_of_length_le hlen.le]

theorem Message.Represented.null (h : m.Represented) (hs : ¬ m.size > 0) : m.data = none :=
  h.null_iff.mpr (not_not.mp fun hne => hs (size_pos_iff.mpr hne))

/-! ## The readers -/

theorem Message.Represented.send (h : m.Represented) : ∃ parts, m.send = .ok parts := by
  unfold Message.send
  split
  · next hs =>
    obtain ⟨bytes, -, hr⟩ := h.read hs
    exact ⟨_, by rw [hr]; rfl⟩
  · exact ⟨_, rfl⟩

/-- What the copy constructor makes of a represented message. -/
theorem Message.Represented.copy (h : m.Represented) (memory : Indeterminate) :
    m.copy memory = .ok { m with
      tag := memory.tag
      networkDeliverytime := memory.networkDeliverytime
      delayThroughComm := memory.delayThroughComm } := by
  unfold Message.copy
  split
  · next hs =>
    obtain ⟨bytes, hd, hr⟩ := h.read hs
    rw [hr, hd]
    rfl
  · next hs =>
    rw [h.null hs]
    rfl

/-- Messages that differ at most in what the copy constructor leaves alone. -/
theorem Message.Represented.equals (h : m.Represented) (tag : UInt8) (networkDeliverytime : UInt64)
    (delayThroughComm : Bool) :
    Message.equals { m with
      tag := tag
      networkDeliverytime := networkDeliverytime
      delayThroughComm := delayThroughComm } m = .ok (tag == m.tag) := by
  unfold Message.equals
  by_cases ht : tag = m.tag
  · subst ht
    by_cases hs : m.size > 0
    · obtain ⟨bytes, -, hr⟩ := h.read hs
      simp [hs, hr, bind, Except.bind]
    · simp [hs]
  · simp [ht]

theorem leBytes_inj {a b : UInt64} (h : leBytes 8 a.toNat = leBytes 8 b.toNat) : a = b := by
  have hv := congrArg leValue h
  rw [leValue_leBytes_of_lt a.toNat_lt, leValue_leBytes_of_lt b.toNat_lt] at hv
  exact UInt64.toNat_inj.mp hv

/-- The header tells these members apart. -/
theorem serializeHeader_eq_iff (m : Message) (tag : UInt8) (networkDeliverytime : UInt64) (delayThroughComm : Bool) :
    Message.serializeHeader { m with
      tag := tag
      networkDeliverytime := networkDeliverytime
      delayThroughComm := delayThroughComm } = m.serializeHeader ↔
    tag = m.tag ∧ networkDeliverytime = m.networkDeliverytime ∧ delayThroughComm = m.delayThroughComm := by
  constructor
  · intro h
    simp only [Message.serializeHeader, List.flatMap_cons, List.append_cancel_left_eq] at h
    obtain ⟨htime, h⟩ := List.append_inj h (by simp)
    simp only [List.append_cancel_left_eq] at h
    obtain ⟨htag, h⟩ := List.append_inj h rfl
    obtain ⟨hdelay, -⟩ := List.append_inj h rfl
    refine ⟨by simpa using htag, leBytes_inj (List.append_cancel_right htime), ?_⟩
    cases delayThroughComm <;> cases hm : m.delayThroughComm <;> simp [Wire.boolBytes, hm] at hdelay ⊢
  · intro h
    obtain ⟨rfl, rfl, rfl⟩ := h
    rfl

/-- A message that is no copy is sound when it is represented. -/
theorem Message.Represented.sound (h : m.Represented) {original : Option Message}
    (hcopied : ∀ o, original = some o → m.equals o = .ok true ∧ m.serializeHeader = o.serializeHeader) :
    Object.Sound ⟨m, original⟩ where
  represented := h
  sendable := h.send
  copyable memory := ⟨_, h.copy memory⟩
  comparable := by simpa using h.equals m.tag m.networkDeliverytime m.delayThroughComm
  copied := hcopied

theorem sound_iff (m : Message) : Object.Sound ⟨m, none⟩ ↔ m.Represented :=
  ⟨Object.Sound.represented, fun h => h.sound nofun⟩

/-- A copy is sound exactly when the memory held what the constructor leaves out. -/
theorem sound_copy_iff (h : m.Represented) {memory : Indeterminate} (hc : m.copy memory = .ok c) :
    Object.Sound ⟨c, some m⟩ ↔ memory.tag = m.tag ∧ memory.networkDeliverytime = m.networkDeliverytime ∧
      memory.delayThroughComm = m.delayThroughComm := by
  rw [h.copy memory] at hc
  obtain rfl := Except.ok.inj hc
  constructor
  · intro hs
    exact (serializeHeader_eq_iff _ _ _ _).mp (hs.copied m rfl).2
  · intro heq
    obtain ⟨htag, htime, hdelay⟩ := heq
    have hsame : ({ m with
        tag := memory.tag
        networkDeliverytime := memory.networkDeliverytime
        delayThroughComm := memory.delayThroughComm } : Message) = m := by
      rw [htag, htime, hdelay]
    rw [hsame]
    refine h.sound fun o ho => ?_
    obtain rfl := Option.some.inj ho
    exact ⟨by simpa using h.equals m.tag m.networkDeliverytime m.delayThroughComm, rfl⟩

/-- A message from an envelope is represented exactly when data is given for an announced payload. -/
theorem represented_ofEnvelope_iff {envelope : List UInt8} {size : UInt32} {data : Option (List UInt8)}
    {h : Wire.Header} (hh : Wire.deserializeHeader envelope size = .ok h)
    (hm : Message.ofEnvelope envelope size data = .ok m) : m.Represented ↔ (data = none ↔ h.size = 0) := by
  unfold Message.ofEnvelope at hm
  rw [hh] at hm
  cases data with
  | none =>
    obtain rfl := Except.ok.inj hm
    exact ⟨fun hr => hr.null_iff, fun he => ⟨he, nofun⟩⟩
  | some bytes =>
    dsimp only [Message.read] at hm
    split at hm
    · cases hm
    · next hle =>
      obtain rfl := Except.ok.inj hm
      have hlen : (bytes.take h.size.toNat).length = h.size.toNat := by
        rw [List.length_take]
        omega
      constructor
      · intro hr
        exact iff_of_false nofun fun h0 => by cases hr.null_iff.mpr h0
      · intro he
        refine ⟨iff_of_false nofun fun h0 => (by cases he.mpr h0), fun b hb => ?_⟩
        obtain rfl := Option.some.inj hb
        exact hlen

/-! ## Runs -/

/-- What is said of a message once there is one. -/
def Sound (s : Option Object) : Prop := ∀ x, s = some x → x.Sound

theorem sound_some (x : Object) : Sound (some x) ↔ x.Sound :=
  ⟨fun h => h x rfl, fun h _ hy => Option.some.inj hy ▸ h⟩

/-- Building a message. -/
theorem step_none_iff (hs : step none e = .ok s') : Sound s' ↔ Careful none e := by
  cases e with
  | create g msgFrom msgTo timeStamp p tag =>
    obtain rfl := Except.ok.inj hs
    rw [sound_some, sound_iff]
    exact iff_of_true ((represented_buffer_iff rfl).mpr rfl) trivial
  | ofEnvelope envelope size data =>
    cases hd : Wire.deserializeHeader envelope size with
    | error why => simp [step, Message.ofEnvelope, hd, Except.map] at hs
    | ok h =>
      cases hm : Message.ofEnvelope envelope size data with
      | error f => simp [step, hm, Except.map] at hs
      | ok m =>
        simp only [step, hm, Except.map] at hs
        obtain rfl := Except.ok.inj hs
        rw [sound_some, sound_iff, represented_ofEnvelope_iff hd hm]
        constructor
        · intro hdata h' hh'
          obtain rfl := Except.ok.inj (hd.symm.trans hh')
          exact hdata
        · exact fun hall => hall h hd
  | _ => cases hs

/-- A setter leaves a message sound exactly when the size agrees with the new data. -/
theorem step_some_iff (h : x.Sound) (hs : step (some x) e = .ok s') : Sound s' ↔ Careful (some x) e := by
  have hr := h.represented
  have hsame {m : Message} (hdata : m.data = x.message.data) (hsize : m.size = x.message.size) : m.Represented :=
    ⟨by rw [hdata, hsize]; exact hr.null_iff, by rw [hdata, hsize]; exact hr.length⟩
  cases e with
  | create => cases hs
  | ofEnvelope => cases hs
  | copy memory =>
    cases hc : x.message.copy memory with
    | error f => simp [step, hc, Except.map] at hs
    | ok c =>
      simp only [step, hc, Except.map] at hs
      obtain rfl := Except.ok.inj hs
      rw [sound_some, sound_copy_iff hr hc]
      exact ⟨fun heq y hy => Option.some.inj hy ▸ heq, fun hall => hall x rfl⟩
  | setData p =>
    obtain rfl := Except.ok.inj hs
    rw [sound_some, sound_iff, represented_buffer_iff (p := p) rfl]
    exact ⟨fun heq y hy => Option.some.inj hy ▸ heq, fun hall => hall x rfl⟩
  | setTo msgTo =>
    obtain rfl := Except.ok.inj hs
    rw [sound_some, sound_iff]
    exact iff_of_true (hsame rfl rfl) trivial
  | setDeliveryTime g currentTime =>
    obtain rfl := Except.ok.inj hs
    rw [sound_some, sound_iff]
    exact iff_of_true (hsame rfl rfl) trivial
  | setDelayThroughComm val =>
    obtain rfl := Except.ok.inj hs
    rw [sound_some, sound_iff]
    exact iff_of_true (hsame rfl rfl) trivial

/-- A message stays sound exactly in the runs whose steps are careful. -/
theorem sound_iff_careful (es : List Event) :
    Trace.Always step Sound none es ↔ Trace.Guarded step Careful none es := by
  refine Trace.always_iff_guarded (J := fun _ => True) (fun _ _ _ _ _ => trivial) ?_ trivial nofun
  intro s e s' _ h hs
  cases s with
  | none => exact step_none_iff hs
  | some x => exact step_some_iff ((sound_some x).mp h) hs

/-- A message with tag 5, copied in memory that held zeros. -/
def copiedTag : List Event :=
  [.create (.init .nanoseconds 0 1) [97] [98] 0 ⟨[1], by norm_num⟩ 5, .copy ⟨0, 0, false⟩]

/-- The copy differs from its original. -/
theorem tag_not_copied :
    (∃ x m, Trace.run step none copiedTag = .ok (some x) ∧ x.original = some m ∧ m.tag = 5 ∧
      x.message.equals m = .ok false) ∧
    ¬ ∀ es : List Event, Trace.Always step Sound none es := by
  have hrun : ∃ x m, Trace.run step none copiedTag = .ok (some x) ∧ x.original = some m ∧ m.tag = 5 ∧
      x.message.equals m = .ok false := ⟨_, _, rfl, rfl, rfl, by decide⟩
  refine ⟨hrun, fun hall => ?_⟩
  obtain ⟨x, m, hx, ho, -, hne⟩ := hrun
  have hsound := (hall copiedTag).last hx x rfl
  rw [(hsound.copied m ho).1] at hne
  cases hne

end Fncs.Memory

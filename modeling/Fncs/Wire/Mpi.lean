/-
Messages over MPI (`mpinetworkinterface.cpp`): `send` posts the envelope and
the payload of a message to the same rank under two tags, and `makeProgress`
takes an envelope and, when its size field is not 0, waits for a payload from
the same rank.

A `Link` is the state of one receiving rank and of the two channels from every
rank that sends to it. Its labels are the sends, the arrivals under either tag
and the receiver's calls, in any order.
-/
import Fncs.Lib.Channel
import Fncs.Lib.Trace
import Fncs.Wire.Header

namespace Fncs.Wire.Mpi

/-- A message as it is built: bytes of the buffer that nothing was received into are `none`. -/
structure Built where
  header : Header
  data : List (Option UInt8)
  deriving DecidableEq, Repr

/-- The message that was sent, as it should be built. -/
def built (m : Message) : Built := ⟨m.toHeader, m.data.map some⟩

/-- The receiving rank and what the ranks `ρ` have sent it. -/
structure Link (ρ : Type) where
  /-- FNCS_TAG_ENVELOPE. -/
  envelopes : ρ → Channel (List UInt8)
  /-- FNCS_TAG_DATA. -/
  payloads : ρ → Channel (List UInt8)
  /-- The message whose payload `makeProgress` waits for. -/
  waiting : Option (ρ × Header)
  /-- The messages built from each rank's, in order. -/
  received : ρ → List Built
  /-- What each rank has passed to `send`, in order. -/
  sent : ρ → List Message

def init (ρ : Type) : Link ρ where
  envelopes := fun _ => .empty
  payloads := fun _ => .empty
  waiting := none
  received := fun _ => []
  sent := fun _ => []

inductive Event (ρ : Type)
  | send (source : ρ) (m : Message)
  | arriveEnvelope (source : ρ)
  | arriveData (source : ρ)
  /-- `MPI_Iprobe` finds an envelope of `source`, which is received. -/
  | recvEnvelope (source : ρ)
  /-- The payload waited for is received. -/
  | recvData

/-- Why a link takes no step. -/
inductive Halt
  | notEnabled
  /-- MPI reports an error: a negative count, or a payload longer than its buffer. -/
  | mpiError
  | thrown (why : Thrown)
  deriving DecidableEq, Repr

variable {ρ : Type} [DecidableEq ρ]

/-- `MpiNetworkInterface::send`: a payload is posted even when it is empty. -/
def send (s : Link ρ) (source : ρ) (m : Message) : Except Halt (Link ρ) :=
  if intOfLength m.envelope.length < 0 ∨ intOfLength m.data.length < 0 then .error .mpiError
  else .ok { s with
    envelopes := Function.update s.envelopes source ((s.envelopes source).post m.envelope)
    payloads := Function.update s.payloads source ((s.payloads source).post m.data)
    sent := Function.update s.sent source (s.sent source ++ [m]) }

/-- A message is complete: the callback, or the list of received messages. -/
def deliver (s : Link ρ) (source : ρ) (b : Built) : Link ρ :=
  { s with
    waiting := none
    received := Function.update s.received source (s.received source ++ [b]) }

/-- `makeProgress` up to the payload: it is received only when the size is not 0. -/
def recvEnvelope (s : Link ρ) (source : ρ) : Except Halt (Link ρ) :=
  match s.waiting, (s.envelopes source).receive with
  | none, some (envelope, rest) =>
    match deserializeHeader envelope (UInt32.ofNat envelope.length) with
    | .error e => .error (.thrown e)
    | .ok h =>
      let s := { s with envelopes := Function.update s.envelopes source rest }
      if h.size > 0 then .ok { s with waiting := some (source, h) }
      else .ok (deliver s source ⟨h, []⟩)
  | _, _ => .error .notEnabled

/-- The rest of `makeProgress`: a payload is received into a buffer of the header's size. -/
def recvData (s : Link ρ) : Except Halt (Link ρ) :=
  match s.waiting with
  | none => .error .notEnabled
  | some (source, h) =>
    match (s.payloads source).receive with
    | none => .error .notEnabled
    | some (payload, rest) =>
      if payload.length > h.size.toNat then .error .mpiError
      else
        .ok (deliver { s with payloads := Function.update s.payloads source rest } source
          ⟨h, payload.map some ++ List.replicate (h.size.toNat - payload.length) none⟩)

def arriveEnvelope (s : Link ρ) (source : ρ) : Except Halt (Link ρ) :=
  match (s.envelopes source).arrive with
  | none => .error .notEnabled
  | some c => .ok { s with envelopes := Function.update s.envelopes source c }

def arriveData (s : Link ρ) (source : ρ) : Except Halt (Link ρ) :=
  match (s.payloads source).arrive with
  | none => .error .notEnabled
  | some c => .ok { s with payloads := Function.update s.payloads source c }

def step (s : Link ρ) : Event ρ → Except Halt (Link ρ)
  | .send source m => send s source m
  | .arriveEnvelope source => arriveEnvelope s source
  | .arriveData source => arriveData s source
  | .recvEnvelope source => recvEnvelope s source
  | .recvData => recvData s

/-- The messages built are those sent, in order. -/
def Paired (s : Link ρ) : Prop := ∀ r, s.received r <+: (s.sent r).map built

/-- A message with a payload is sent only while its rank has sent no empty one. -/
def Separable (s : Link ρ) : Event ρ → Prop
  | .send source m => m.data ≠ [] → ∀ m' ∈ s.sent source, m'.data ≠ []
  | _ => True

instance (s : Link ρ) : (e : Event ρ) → Decidable (Separable s e)
  | .send source m => inferInstanceAs (Decidable (m.data ≠ [] → ∀ m' ∈ s.sent source, m'.data ≠ []))
  | .arriveEnvelope _ | .arriveData _ | .recvEnvelope _ | .recvData => isTrue trivial

/-! ## What the steps do -/

section Steps

variable {s s' : Link ρ} {r : ρ}

theorem send_ok {m : Message} (h : send s r m = .ok s') : s' = { s with
    envelopes := Function.update s.envelopes r ((s.envelopes r).post m.envelope)
    payloads := Function.update s.payloads r ((s.payloads r).post m.data)
    sent := Function.update s.sent r (s.sent r ++ [m]) } := by
  rw [send] at h
  split at h
  · cases h
  · exact (Except.ok.inj h).symm

theorem arriveEnvelope_ok (h : arriveEnvelope s r = .ok s') : ∃ c, (s.envelopes r).arrive = some c ∧
    s' = { s with envelopes := Function.update s.envelopes r c } := by
  rw [arriveEnvelope] at h
  split at h
  · cases h
  · next c hc => exact ⟨c, hc, (Except.ok.inj h).symm⟩

theorem arriveData_ok (h : arriveData s r = .ok s') : ∃ c, (s.payloads r).arrive = some c ∧
    s' = { s with payloads := Function.update s.payloads r c } := by
  rw [arriveData] at h
  split at h
  · cases h
  · next c hc => exact ⟨c, hc, (Except.ok.inj h).symm⟩

theorem recvEnvelope_ok (h : recvEnvelope s r = .ok s') : ∃ envelope rest hdr, s.waiting = none ∧
    (s.envelopes r).receive = some (envelope, rest) ∧
    deserializeHeader envelope (UInt32.ofNat envelope.length) = .ok hdr ∧
    (hdr.size > 0 ∧ s' = { s with
        envelopes := Function.update s.envelopes r rest
        waiting := some (r, hdr) } ∨
      ¬ hdr.size > 0 ∧ s' = deliver { s with envelopes := Function.update s.envelopes r rest } r ⟨hdr, []⟩) := by
  rw [recvEnvelope] at h
  split at h
  · next envelope rest hw hr =>
    split at h
    · cases h
    · next hdr hd =>
      split at h
      · next hs => exact ⟨envelope, rest, hdr, hw, hr, hd, .inl ⟨hs, (Except.ok.inj h).symm⟩⟩
      · next hs => exact ⟨envelope, rest, hdr, hw, hr, hd, .inr ⟨hs, (Except.ok.inj h).symm⟩⟩
  · cases h

theorem recvData_ok (h : recvData s = .ok s') : ∃ r hdr payload rest, s.waiting = some (r, hdr) ∧
    (s.payloads r).receive = some (payload, rest) ∧
    s' = deliver { s with payloads := Function.update s.payloads r rest } r
      ⟨hdr, payload.map some ++ List.replicate (hdr.size.toNat - payload.length) none⟩ := by
  rw [recvData] at h
  split at h
  · cases h
  next r hdr hw =>
  split at h
  · cases h
  next payload rest hr =>
  split at h
  · cases h
  · exact ⟨r, hdr, payload, rest, hw, hr, (Except.ok.inj h).symm⟩

end Steps

/-! ## The invariant -/

/-- Where the messages of a rank are: built, waited for, not yet taken up. The receiver has left
`stale` empty payloads behind. -/
structure Cut where
  done : List Message
  front : List Message
  rest : List Message
  stale : ℕ

/-- The two channels of a rank, and what the receiver has of it, as a cut of what was sent. -/
structure Matches (c : Cut) (envelopes payloads : List (List UInt8)) (waiting : List Header)
    (received : List Built) (sent : List Message) : Prop where
  sent_eq : sent = c.done ++ (c.front ++ c.rest)
  received_eq : received = c.done.map built
  waiting_eq : waiting = c.front.map Message.toHeader
  front_data : ∀ m ∈ c.front, m.data ≠ []
  envelopes_eq : envelopes = c.rest.map fun m => m.envelope
  payloads_eq : payloads = List.replicate c.stale [] ++ (c.front ++ c.rest).map Message.data
  stale_of : 0 < c.stale → ∃ m ∈ c.done, m.data = []

/-- The header of rank `r` whose payload is waited for. -/
def Link.waitingOf (s : Link ρ) (r : ρ) : List Header :=
  match s.waiting with
  | none => []
  | some (r', h) => if r' = r then [h] else []

structure InStep (s : Link ρ) : Prop where
  separated : ∀ r, (s.sent r).Pairwise fun a b => b.data ≠ [] → a.data ≠ []
  matched : ∀ r, ∃ c, Matches c (s.envelopes r).queue (s.payloads r).queue (s.waitingOf r) (s.received r) (s.sent r)

theorem InStep.init : InStep (init ρ) where
  separated _ := List.Pairwise.nil
  matched _ := ⟨⟨[], [], [], 0⟩, rfl, rfl, rfl, fun _ h => absurd h List.not_mem_nil, rfl, rfl,
    fun h => absurd h (lt_irrefl 0)⟩

theorem InStep.paired {s : Link ρ} (h : InStep s) : Paired s := by
  intro r
  obtain ⟨c, hc⟩ := h.matched r
  rw [hc.received_eq, hc.sent_eq, List.map_append]
  exact List.prefix_append _ _

/-! ## One rank, one step -/

section Rank

variable {c : Cut} {envelopes payloads : List (List UInt8)} {waiting : List Header} {received : List Built}
  {sent : List Message}

theorem Matches.send (h : Matches c envelopes payloads waiting received sent) (m : Message) :
    Matches { c with rest := c.rest ++ [m] } (envelopes ++ [m.envelope]) (payloads ++ [m.data]) waiting received
      (sent ++ [m]) where
  sent_eq := by rw [h.sent_eq]; simp
  received_eq := h.received_eq
  waiting_eq := h.waiting_eq
  front_data := h.front_data
  envelopes_eq := by rw [h.envelopes_eq]; simp
  payloads_eq := by rw [h.payloads_eq]; simp
  stale_of := h.stale_of

/-- The receiver takes up the next message, and waits for its payload or is done with it. -/
theorem Matches.recvEnvelope {envelope : List UInt8} {hdr : Header}
    (h : Matches c (envelope :: envelopes) payloads [] received sent)
    (hd : deserializeHeader envelope (UInt32.ofNat envelope.length) = .ok hdr) :
    (hdr.size > 0 → ∃ c', Matches c' envelopes payloads [hdr] received sent) ∧
      (¬ hdr.size > 0 → ∃ c', Matches c' envelopes payloads [] (received ++ [⟨hdr, []⟩]) sent) := by
  obtain ⟨done, front, rest, stale⟩ := c
  obtain ⟨hsent, hrecv, hwait, hfront, henv, hpay, hstale⟩ := h
  simp only at hsent hrecv hwait hfront henv hpay hstale
  obtain rfl : front = [] := List.map_eq_nil_iff.mp hwait.symm
  cases rest with
  | nil => cases henv
  | cons m rest =>
    simp only [List.map_cons, List.cons.injEq] at henv
    obtain ⟨rfl, henv⟩ := henv
    have hn : (UInt32.ofNat m.envelope.length).toNat = m.envelope.length := by
      rw [UInt32.toNat_ofNat', length_envelope]
      exact Nat.mod_eq_of_lt (Nat.mod_lt _ (by norm_num))
    obtain rfl := deserializeHeader_envelope hn hd
    refine ⟨fun hs => ?_, fun hs => ?_⟩
    · have hm : m.data ≠ [] := fun h0 => by
        have := m.size_data
        rw [h0] at this
        exact absurd (UInt32.lt_iff_toNat_lt.mp hs) (by rw [← this]; exact lt_irrefl 0)
      exact ⟨⟨done, [m], rest, stale⟩, by simpa using hsent, hrecv, rfl, by simpa using hm, henv, by simpa using hpay,
        hstale⟩
    · have hm : m.data = [] := List.length_eq_zero_iff.mp (by
        rw [m.size_data]
        exact Nat.eq_zero_of_not_pos fun h0 => hs (UInt32.lt_iff_toNat_lt.mpr h0))
      refine ⟨⟨done ++ [m], [], rest, stale + 1⟩, by simpa using hsent, by simp [hrecv, built, hm], rfl, nofun, henv, ?_,
        fun _ => ⟨m, by simp, hm⟩⟩
      rw [hpay]
      simp [hm, List.replicate_succ', List.append_assoc]

/-- The payload the receiver waits for is the next one: no stale one is in front of it. -/
theorem Matches.recvData {hdr : Header} {payload : List UInt8}
    (hsep : sent.Pairwise fun a b => b.data ≠ [] → a.data ≠ [])
    (h : Matches c envelopes (payload :: payloads) [hdr] received sent) :
    ∃ c', Matches c' envelopes payloads []
      (received ++ [⟨hdr, payload.map some ++ List.replicate (hdr.size.toNat - payload.length) none⟩]) sent := by
  obtain ⟨done, front, rest, stale⟩ := c
  obtain ⟨hsent, hrecv, hwait, hfront, henv, hpay, hstale⟩ := h
  simp only at hsent hrecv hwait hfront henv hpay hstale
  cases front with
  | nil => cases hwait
  | cons m front =>
    simp only [List.map_cons, List.cons.injEq] at hwait
    obtain ⟨rfl, hfr⟩ := hwait
    obtain rfl : front = [] := List.map_eq_nil_iff.mp hfr.symm
    have hm : m.data ≠ [] := hfront m (by simp)
    have h0 : stale = 0 := by
      by_contra hpos
      obtain ⟨m', hm', hempty⟩ := hstale (Nat.pos_of_ne_zero hpos)
      rw [hsent] at hsep
      exact (List.pairwise_append.mp hsep).2.2 m' hm' m (by simp) hm hempty
    subst h0
    simp only [List.replicate_zero, List.nil_append, List.singleton_append, List.map_cons, List.cons.injEq] at hpay
    obtain ⟨rfl, hpay⟩ := hpay
    refine ⟨⟨done ++ [m], [], rest, 0⟩, by simpa using hsent, ?_, rfl, nofun, henv, by simpa using hpay, nofun⟩
    simp [hrecv, built, m.size_data]

end Rank

/-! ## Every run -/

/-- Nothing of the rank `q` changes. -/
structure Link.SameRank (s s' : Link ρ) (q : ρ) : Prop where
  envelopes : s'.envelopes q = s.envelopes q
  payloads : s'.payloads q = s.payloads q
  waiting : s'.waitingOf q = s.waitingOf q
  received : s'.received q = s.received q
  sent : s'.sent q = s.sent q

/-- A step is one rank's. -/
theorem InStep.of_rank {s s' : Link ρ} (r : ρ) (h : InStep s) (hother : ∀ q, q ≠ r → s.SameRank s' q)
    (hsep : (s'.sent r).Pairwise fun a b => b.data ≠ [] → a.data ≠ [])
    (hr : ∃ c, Matches c (s'.envelopes r).queue (s'.payloads r).queue (s'.waitingOf r) (s'.received r) (s'.sent r)) :
    InStep s' where
  separated q := by
    by_cases hq : q = r
    · exact hq ▸ hsep
    · exact (hother q hq).sent ▸ h.separated q
  matched q := by
    by_cases hq : q = r
    · exact hq ▸ hr
    · obtain ⟨h1, h2, h3, h4, h5⟩ := hother q hq
      rw [h1, h2, h3, h4, h5]
      exact h.matched q

theorem InStep.step {s s' : Link ρ} {e : Event ρ} (h : InStep s) (hsep : Separable s e) (hs : step s e = .ok s') :
    InStep s' := by
  cases e with
  | send r m =>
    obtain rfl := send_ok hs
    obtain ⟨c, hc⟩ := h.matched r
    refine h.of_rank r (fun q hq => ?_) ?_ ?_
    · constructor <;> simp [Link.waitingOf, hq]
    · simp only [Function.update_self]
      refine List.pairwise_append.mpr ⟨h.separated r, List.pairwise_singleton _ _, fun a ha b hb => ?_⟩
      rw [List.mem_singleton.mp hb]
      exact fun hm => hsep hm a ha
    · simp only [Function.update_self, Channel.queue_post]
      exact ⟨_, hc.send m⟩
  | arriveEnvelope r =>
    obtain ⟨ch, hch, rfl⟩ := arriveEnvelope_ok hs
    refine h.of_rank r (fun q hq => ?_) (h.separated r) ?_
    · constructor <;> simp [Link.waitingOf, hq]
    · simp only [Function.update_self, Channel.queue_arrive hch]
      exact h.matched r
  | arriveData r =>
    obtain ⟨ch, hch, rfl⟩ := arriveData_ok hs
    refine h.of_rank r (fun q hq => ?_) (h.separated r) ?_
    · constructor <;> simp [Link.waitingOf, hq]
    · simp only [Function.update_self, Channel.queue_arrive hch]
      exact h.matched r
  | recvEnvelope r =>
    obtain ⟨envelope, rest, hdr, hw, hr, hd, hcase⟩ := recvEnvelope_ok hs
    have hwait (q : ρ) : s.waitingOf q = [] := by rw [Link.waitingOf, hw]
    obtain ⟨c, hc⟩ := h.matched r
    rw [hwait, Channel.queue_receive hr] at hc
    rcases hcase with ⟨hsize, rfl⟩ | ⟨hsize, rfl⟩
    · refine h.of_rank r (fun q hq => ?_) (h.separated r) ?_
      · constructor <;> simp [Link.waitingOf, hw, hq, Ne.symm hq]
      · simp only [Function.update_self, Link.waitingOf, if_true]
        exact (hc.recvEnvelope hd).1 hsize
    · refine h.of_rank r (fun q hq => ?_) (h.separated r) ?_
      · constructor <;> simp [deliver, Link.waitingOf, hw, hq]
      · simp only [deliver, Function.update_self, Link.waitingOf]
        exact (hc.recvEnvelope hd).2 hsize
  | recvData =>
    obtain ⟨r, hdr, payload, rest, hw, hr, rfl⟩ := recvData_ok hs
    have hwait : s.waitingOf r = [hdr] := by simp [Link.waitingOf, hw]
    obtain ⟨c, hc⟩ := h.matched r
    rw [hwait, Channel.queue_receive hr] at hc
    refine h.of_rank r (fun q hq => ?_) (h.separated r) ?_
    · constructor <;> simp [deliver, Link.waitingOf, hw, hq, Ne.symm hq]
    · simp only [deliver, Function.update_self, Link.waitingOf]
      exact hc.recvData (h.separated r)

/-- Envelopes and payloads are paired all along a run in which no rank sends a message with a payload
after an empty one. -/
theorem envelopes_paired (es : List (Event ρ)) (h : Trace.Guarded step Separable (init ρ) es) :
    Trace.Always step Paired (init ρ) es :=
  (Trace.always_of_guarded (fun _ _ _ hI hc hs => InStep.step hI hc hs) InStep.init h).imp fun _ => InStep.paired

/-- A message of rank 0, with the payload `data`. -/
def textMessage (data : List UInt8) (h : data.length < 2 ^ 32) : Message where
  msgFrom := ⟨[97], by decide⟩
  msgTo := ⟨[98], by decide⟩
  timeStamp := 1
  networkDeliverytime := 2
  size := UInt32.ofNat data.length
  tag := 0
  delayThroughComm := false
  data := data
  size_data := by rw [UInt32.toNat_ofNat', Nat.mod_eq_of_lt h]

/-- Rank 0 sends the messages, all of which arrive, and the receiver takes up as many envelopes. -/
def exchange (ms : List Message) : List (Event ℕ) :=
  (ms.map fun m => [.send 0 m, .arriveEnvelope 0, .arriveData 0]).flatten

/-- A byte sent after an empty payload. -/
def emptyThenByte : List Message := [textMessage [] (by norm_num), textMessage [7] (by norm_num)]

/-- The receiver gets the empty payload of the first message for that of the second, and its byte is
never received. -/
theorem byte_lost : ∃ s, Trace.run step (init ℕ) (exchange emptyThenByte ++
      [.recvEnvelope 0, .recvEnvelope 0, .recvData]) = .ok s ∧ ¬ Paired s := by
  obtain ⟨s, hs, hp⟩ := Trace.exists_run_of_check step (init ℕ)
    (exchange emptyThenByte ++ [.recvEnvelope 0, .recvEnvelope 0, .recvData])
    (fun s => !decide (s.received 0 <+: (s.sent 0).map built)) (by decide +kernel)
  exact ⟨s, hs, fun h => by simp [h 0] at hp⟩

/-- Two messages with a payload, then an empty one. -/
def bytesThenEmpty : List (Event ℕ) :=
  exchange [textMessage [7] (by norm_num), textMessage [8, 9] (by norm_num), textMessage [] (by norm_num)] ++
    [.recvEnvelope 0, .recvData, .recvEnvelope 0, .recvData, .recvEnvelope 0]

theorem envelopes_paired_bytes : ∃ s, Trace.run step (init ℕ) bytesThenEmpty = .ok s ∧ (s.received 0).length = 3 ∧
    Trace.Guarded step Separable (init ℕ) bytesThenEmpty ∧ Trace.Always step Paired (init ℕ) bytesThenEmpty := by
  have hg : Trace.Guarded step Separable (init ℕ) bytesThenEmpty := by decide +kernel
  obtain ⟨s, hs, hp⟩ := Trace.exists_run_of_check step (init ℕ) bytesThenEmpty
    (fun s => decide ((s.received 0).length = 3)) (by decide +kernel)
  exact ⟨s, hs, of_decide_eq_true hp, hg, envelopes_paired bytesThenEmpty hg⟩

end Fncs.Wire.Mpi

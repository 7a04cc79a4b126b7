/-
Runs of the broker together with its simulators: which request of each
simulator is unanswered. `allowed` is what a claim about runs assumes of the
simulators; the broker's own behaviour is `Broker.step`.
-/
import Fncs.Broker.Cases
import Fncs.Lib.Trace
import Fncs.Lib.Pending

namespace Fncs.Broker

/-- A request as it reaches the broker socket. -/
structure Frame (ι : Type) where
  identity : ι
  context : ℤ
  request : Request ι
  deriving DecidableEq, Repr

/-- The broker and what its simulators wait for. The two sums are what the
completed rounds of REDUCE_SEND_RECV were given, by the requests themselves. -/
structure Session (ι : Type) [LinearOrder ι] where
  broker : Broker ι
  pending : ι → Option (Request ι)
  sentSum : ℕ
  recvSum : ℕ

/-- Why a session does not take a step. -/
inductive Refusal
  | notAllowed
  | stopped (why : Stop)
  deriving DecidableEq, Repr

namespace Session

variable {ι : Type} [LinearOrder ι]

/-- Nobody waits. -/
def start (b : Broker ι) : Session ι where
  broker := b
  pending := fun _ => none
  sentSum := 0
  recvSum := 0

/-- The unanswered requests once `f` has been sent. -/
def posted (s : Session ι) (f : Frame ι) : ι → Option (Request ι) :=
  Pending.post s.pending f.identity f.request

/-- The unanswered requests after the replies `out`. -/
def answered (p : ι → Option (Request ι)) (out : Replies ι) : ι → Option (Request ι) :=
  Pending.answer p (out.map Prod.fst)

/-- What the requests answered with a difference had sent. -/
def roundSent (p : ι → Option (Request ι)) (out : Replies ι) : ℕ :=
  (out.map fun e => match e.2, p e.1 with
    | .diff _, some (.reduceSendRecv sent _) => sent
    | _, _ => 0).sum

/-- What the requests answered with a difference had received. -/
def roundRecv (p : ι → Option (Request ι)) (out : Replies ι) : ℕ :=
  (out.map fun e => match e.2, p e.1 with
    | .diff _, some (.reduceSendRecv _ recv) => recv
    | _, _ => 0).sum

/-- The session once the broker has answered `f` with `out`. -/
def after (s : Session ι) (f : Frame ι) (b : Broker ι) (out : Replies ι) : Session ι where
  broker := b
  pending := answered (s.posted f) out
  sentSum := s.sentSum + roundSent (s.posted f) out
  recvSum := s.recvSum + roundRecv (s.posted f) out

/-- One request of a simulator, if `allowed`. -/
def step (allowed : Session ι → Frame ι → Bool) (s : Session ι) (f : Frame ι) :
    Except Refusal (Session ι) :=
  if allowed s f then
    match s.broker.step f.identity f.context f.request with
    | .error e => .error (.stopped e)
    | .ok (b, out, _) => .ok (s.after f b out)
  else .error .notAllowed

theorem step_ok {allowed : Session ι → Frame ι → Bool} {s s' : Session ι} {f : Frame ι} :
    step allowed s f = .ok s' ↔ allowed s f = true ∧ ∃ b out pubs,
      s.broker.step f.identity f.context f.request = .ok (b, out, pubs) ∧ s' = s.after f b out := by
  unfold step
  split
  · next ha =>
    cases hb : s.broker.step f.identity f.context f.request with
    | error e => simp
    | ok x =>
      obtain ⟨b, out, pubs⟩ := x
      simp [ha, eq_comm]
  · next ha => simp [ha]

end Session

/-- The collectives a member of a conservative run takes part in. -/
def Request.isCollective {ι : Type} : Request ι → Bool
  | .barrier | .reduceMinTime _ | .reduceMinTimeAction _ _ | .reduceSendRecv _ _
  | .allGatherNextTime _ | .sleep => true
  | _ => false

/-- `i` is a member of context `k`, awake or asleep. -/
def isMember {ι : Type} [LinearOrder ι] (b : Broker ι) (k : ℤ) (i : ι) : Bool :=
  match b.ctxs[k.toNat]? with
  | none => false
  | some c => c.contexts.contains i || c.asleep.contains i

/-! ## Replies to a group -/

section Replies

variable {ι α : Type} [LinearOrder ι] {m : OrdMap ι α} {r : Reply}

/-- Everyone in `who` gets exactly one reply, and nobody else gets any. -/
structure Answered (out : Replies ι) (who : Finset ι) (reply : ι → Reply) : Prop where
  nodup : (out.map Prod.fst).Nodup
  addressees : (out.map Prod.fst).toFinset = who
  value : ∀ e ∈ out, e.2 = reply e.1

@[simp] theorem replyAll_addressees : (replyAll m r).map Prod.fst = m.keys := by
  simp [replyAll, Function.comp_def]

theorem Answered.replyAll : Answered (replyAll m r) m.dom fun _ => r where
  nodup := by rw [replyAll_addressees]; exact m.nodup_keys
  addressees := by rw [replyAll_addressees]; rfl
  value e he := by
    obtain ⟨i, -, rfl⟩ := List.mem_map.mp he
    rfl

theorem Answered.mem_iff {out : Replies ι} {who : Finset ι} {reply : ι → Reply} (h : Answered out who reply) {i : ι} :
    i ∈ out.map Prod.fst ↔ i ∈ who := by
  rw [← h.addressees, List.mem_toFinset]

theorem Answered.ne_nil {out : Replies ι} {who : Finset ι} {reply : ι → Reply} (h : Answered out who reply)
    {i : ι} (hi : i ∈ who) : out ≠ [] := by
  rintro rfl
  simpa using h.mem_iff.mpr hi

end Replies

end Fncs.Broker

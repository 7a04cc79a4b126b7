/-
Simulators that talk to the broker: the request a simulator sends next is a
function of its local state, and the reply moves it on. A label of a run is
the identity whose request reaches the broker next, so a run is an order of
arrivals.
-/
import Fncs.Broker.Agreement

namespace Fncs

open Broker (Request Reply Replies HelloGroup Refusal)

/-- The simulators of a group. `resume` also tells the framework time
`GetNextTime` returns, if the reply ends the call. -/
structure Client (ι σ : Type) where
  /-- `none` when the simulator makes no further call. -/
  request : ι → σ → Option (Request ι)
  resume : ι → σ → Reply → σ × Option TIME

/-- The broker, the unanswered requests, the simulators, and for every answer
that ended calls of `GetNextTime` what each simulator's call returned. -/
structure System (ι σ : Type) [LinearOrder ι] where
  broker : Broker ι
  pending : ι → Option (Request ι)
  locals : ι → σ
  log : List (ι → Option TIME)

namespace System

variable {ι σ : Type} [LinearOrder ι]

def start (b : Broker ι) (locals : ι → σ) : System ι σ where
  broker := b
  pending := fun _ => none
  locals := locals
  log := []

/-- The reply to `i` among those the broker sends. -/
def replyTo (out : Replies ι) (i : ι) : Option Reply := (out.find? fun e => e.1 = i).map Prod.snd

/-- The simulator `i` once the broker has sent `out`, and what its call returned. -/
def resumed (C : Client ι σ) (s : System ι σ) (out : Replies ι) (i : ι) : σ × Option TIME :=
  match replyTo out i with
  | none => (s.locals i, none)
  | some r => C.resume i (s.locals i) r

/-- The system once the broker has answered `i`'s request `r` with `out`. -/
def after (C : Client ι σ) (s : System ι σ) (i : ι) (r : Request ι) (b : Broker ι) (out : Replies ι) :
    System ι σ where
  broker := b
  pending := Pending.answer (Pending.post s.pending i r) (out.map Prod.fst)
  locals := fun j => (s.resumed C out j).1
  log := if out.any fun e => (s.resumed C out e.1).2.isSome then s.log ++ [fun j => (s.resumed C out j).2] else s.log

/-- The next request of member `i` reaches the broker. -/
def step (g : HelloGroup ι) (C : Client ι σ) (s : System ι σ) (i : ι) : Except Refusal (System ι σ) :=
  if i ∈ g.members ∧ s.pending i = none then
    match C.request i (s.locals i) with
    | none => .error .notAllowed
    | some r =>
      match s.broker.step i 0 r with
      | .error e => .error (.stopped e)
      | .ok (b, out, _) => .ok (s.after C i r b out)
  else .error .notAllowed

variable {g : HelloGroup ι} {C : Client ι σ} {s s' : System ι σ} {i : ι}

theorem step_ok : step g C s i = .ok s' ↔ (i ∈ g.members ∧ s.pending i = none) ∧ ∃ r b out pubs,
    C.request i (s.locals i) = some r ∧ s.broker.step i 0 r = .ok (b, out, pubs) ∧ s' = s.after C i r b out := by
  unfold step
  split
  · next hi =>
    cases hr : C.request i (s.locals i) with
    | none => simp
    | some r =>
      cases hb : s.broker.step i 0 r with
      | error e => simp [hb]
      | ok x =>
        obtain ⟨b, out, pubs⟩ := x
        simp [hb, hi, eq_comm]
  · next hi => simp [hi]

/-! ## Replies to a group -/

section Replies

variable {out : Replies ι} {who : Finset ι} {reply : ι → Reply}

theorem replyTo_eq (h : Broker.Answered out who reply) (j : ι) :
    replyTo out j = if j ∈ who then some (reply j) else none := by
  unfold replyTo
  cases hf : out.find? fun e => e.1 = j with
  | none =>
    rw [if_neg]
    · rfl
    · intro hj
      obtain ⟨e, he, rfl⟩ := List.mem_map.mp (h.mem_iff.mpr hj)
      exact List.find?_eq_none.mp hf e he (decide_eq_true rfl)
  | some e =>
    have he := List.mem_of_find?_eq_some hf
    have hj : e.1 = j := by simpa using List.find?_some hf
    subst hj
    rw [if_pos (h.mem_iff.mp (List.mem_map.mpr ⟨e, he, rfl⟩)), ← h.value e he]
    rfl

@[simp] theorem replyTo_nil (j : ι) : replyTo ([] : Replies ι) j = none := rfl

end Replies

end System

end Fncs

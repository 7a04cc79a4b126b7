/-
Channels that keep their order: what is posted is on its way for as long as
the environment likes, arrives in the order it was posted, and is received in
the order it arrived. `queue` is what has been posted and not yet received;
only posting and receiving change it.
-/
import Mathlib

/-- The messages that have arrived and those still on their way, oldest first. -/
structure Channel (α : Type) where
  arrived : List α
  inFlight : List α
  deriving DecidableEq, Repr

namespace Channel

variable {α : Type}

def empty : Channel α := ⟨[], []⟩

/-- What is posted and not yet received. -/
def queue (c : Channel α) : List α := c.arrived ++ c.inFlight

def post (c : Channel α) (a : α) : Channel α := { c with inFlight := c.inFlight ++ [a] }

/-- The oldest message on its way arrives. -/
def arrive (c : Channel α) : Option (Channel α) :=
  match c.inFlight with
  | [] => none
  | a :: rest => some ⟨c.arrived ++ [a], rest⟩

/-- The oldest message that has arrived is taken. -/
def receive (c : Channel α) : Option (α × Channel α) :=
  match c.arrived with
  | [] => none
  | a :: rest => some (a, { c with arrived := rest })

@[simp] theorem queue_empty : (empty : Channel α).queue = [] := rfl

@[simp] theorem queue_post (c : Channel α) (a : α) : (c.post a).queue = c.queue ++ [a] := by
  simp [queue, post]

theorem queue_arrive {c c' : Channel α} (h : c.arrive = some c') : c'.queue = c.queue := by
  rw [arrive] at h
  split at h
  · cases h
  · next a rest hf =>
    cases h
    simp [queue, hf]

theorem queue_receive {c c' : Channel α} {a : α} (h : c.receive = some (a, c')) : c.queue = a :: c'.queue := by
  rw [receive] at h
  split at h
  · cases h
  · next b rest ha =>
    cases h
    simp [queue, ha]

end Channel

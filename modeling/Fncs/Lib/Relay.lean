/-
A hub between senders and receivers. What a sender sends goes up to the hub in
order; the hub takes the next item of some sender and hands it down to the
receiver it is addressed to, or to nobody; a receiver takes what was handed
down to it in order. `between` is what is on its way from one sender to one
receiver: sending appends to it, the hub leaves it as it is, and taking removes
its first item. So nothing overtakes, is lost or is made up between the two.
-/
import Mathlib

/-- What is on its way up, by sender, and on its way down, by receiver; both oldest first. -/
structure Relay (α β τ : Type*) where
  up : α → List τ
  down : β → List (α × τ)

namespace Relay

variable {α β τ : Type*} [DecidableEq α] [DecidableEq β] {r r' : Relay α β τ} {a a' : α} {b b' : β} {x : τ}
  {address : α → τ → Option β}

def empty : Relay α β τ := ⟨fun _ => [], fun _ => []⟩

def send (r : Relay α β τ) (a : α) (x : τ) : Relay α β τ :=
  { r with up := Function.update r.up a (r.up a ++ [x]) }

/-- `x` of `a` is handed down to `dest`, and `rest` stays. -/
def handDown (r : Relay α β τ) (a : α) (x : τ) (rest : List τ) (dest : Option β) : Relay α β τ where
  up := Function.update r.up a rest
  down :=
    match dest with
    | none => r.down
    | some b => Function.update r.down b (r.down b ++ [(a, x)])

/-- `rest` is what `b` has yet to take. -/
def take (r : Relay α β τ) (b : β) (rest : List (α × τ)) : Relay α β τ :=
  { r with down := Function.update r.down b rest }

/-- What is on its way from `a` to `b`. -/
def between (address : α → τ → Option β) (r : Relay α β τ) (a : α) (b : β) : List τ :=
  ((r.down b).filter fun e => e.1 = a).map Prod.snd ++ (r.up a).filter fun x => address a x = some b

@[simp] theorem between_empty : (empty : Relay α β τ).between address a b = [] := rfl

theorem between_send : (r.send a x).between address a' b =
    r.between address a' b ++ if a' = a ∧ address a x = some b then [x] else [] := by
  by_cases ha : a' = a
  · subst ha
    by_cases hb : address a' x = some b <;> simp [between, send, hb]
  · simp [between, send, ha]

/-- The hub keeps what is on its way, as long as it hands an item to its addressee. -/
theorem between_handDown {rest : List τ} (hup : r.up a = x :: rest) :
    (r.handDown a x rest (address a x)).between address a' b = r.between address a' b := by
  by_cases ha : a' = a
  · subst ha
    cases hx : address a' x with
    | none => simp [between, handDown, hup, hx]
    | some c =>
      by_cases hc : b = c
      · subst hc
        simp [between, handDown, hup, hx]
      · have hne : c ≠ b := Ne.symm hc
        simp [between, handDown, hup, hx, hc, hne]
  · have hne : a ≠ a' := Ne.symm ha
    cases address a x with
    | none => simp [between, handDown, ha]
    | some c =>
      by_cases hc : b = c
      · subst hc
        simp [between, handDown, ha, hne]
      · simp [between, handDown, ha, hc]

theorem between_take {rest : List (α × τ)} (hdown : r.down b = (a, x) :: rest) :
    r.between address a' b' =
      (if a' = a ∧ b' = b then [x] else []) ++ (r.take b rest).between address a' b' := by
  by_cases hb : b' = b
  · subst hb
    by_cases ha : a' = a
    · subst ha
      simp [between, take, hdown]
    · have hne : a ≠ a' := Ne.symm ha
      simp [between, take, hdown, ha, hne]
  · simp [between, take, hb]

/-- Everything handed down is addressed to who is to take it. -/
def Addressed (address : α → τ → Option β) (r : Relay α β τ) : Prop :=
  ∀ b, ∀ e ∈ r.down b, address e.1 e.2 = some b

omit [DecidableEq α] [DecidableEq β] in
theorem Addressed.empty : (Relay.empty : Relay α β τ).Addressed address := by
  intro b e he
  cases he

omit [DecidableEq β] in
theorem Addressed.send (h : r.Addressed address) : (r.send a x).Addressed address := h

theorem Addressed.handDown (h : r.Addressed address) (rest : List τ) :
    (r.handDown a x rest (address a x)).Addressed address := by
  intro b e he
  cases hx : address a x with
  | none =>
    rw [hx] at he
    exact h b e he
  | some c =>
    rw [hx] at he
    by_cases hb : b = c
    · subst hb
      simp only [Relay.handDown, Function.update_self, List.mem_append, List.mem_singleton] at he
      obtain he | rfl := he
      · exact h b e he
      · exact hx
    · simp only [Relay.handDown, Function.update_of_ne hb] at he
      exact h b e he

omit [DecidableEq α] in
theorem Addressed.take {rest : List (α × τ)} (h : r.Addressed address) (hdown : r.down b = (a, x) :: rest) :
    (r.take b rest).Addressed address := by
  intro c e he
  by_cases hc : c = b
  · subst hc
    simp only [Relay.take, Function.update_self] at he
    exact h c e (hdown ▸ List.mem_cons_of_mem _ he)
  · simp only [Relay.take, Function.update_of_ne hc] at he
    exact h c e he

end Relay

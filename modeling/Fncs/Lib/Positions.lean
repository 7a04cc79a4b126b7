/-
Erasing positions of a list that were collected before: one after another from
a list that shrinks under them. With a shift that grows by one each time what
is left is the list without them; without a shift it is not, once there are two.
-/
import Mathlib

namespace Positions

variable {α β : Type*}

/-- Erases `ps` in order, each less a shift that grows by `d`; `none` when one is not in the list. -/
def eraseAll (d : ℕ) : ℕ → List ℕ → List α → Option (List α)
  | _, [], l => some l
  | shift, p :: ps, l =>
    if shift ≤ p ∧ p - shift < l.length then eraseAll d (shift + d) ps (l.eraseIdx (p - shift)) else none

/-- Reading the positions that pass a test, with something before the list. -/
theorem filterMap_findIdxs_from (q : α → Bool) (before l : List α) :
    (l.findIdxs q before.length).filterMap (fun i => (before ++ l)[i]?) = l.filter q := by
  induction l generalizing before with
  | nil => rfl
  | cons x l ih =>
    have hnext := ih (before ++ [x])
    rw [List.append_assoc, List.singleton_append, List.length_append, List.length_singleton] at hnext
    have hhere : (before ++ x :: l)[before.length]? = some x := by simp
    rw [List.findIdxs_cons, List.filter_cons]
    split
    · rw [List.filterMap_cons, hhere, hnext]
    · exact hnext

/-- Reading the positions that pass a test gives what passes it. -/
theorem filterMap_findIdxs (q : α → Bool) (l : List α) : (l.findIdxs q).filterMap (fun i => l[i]?) = l.filter q :=
  filterMap_findIdxs_from q [] l

/-- Erasing looks at positions only. -/
theorem eraseAll_map (f : α → β) (d shift : ℕ) (ps : List ℕ) (l : List α) :
    eraseAll d shift ps (l.map f) = (eraseAll d shift ps l).map (List.map f) := by
  induction ps generalizing shift l with
  | nil => rfl
  | cons p ps ih =>
    rw [eraseAll, eraseAll, List.length_map]
    split
    · rw [← ih, List.eraseIdx_map]
    · rfl

/-- Each erase moves what is behind it forward by one, which the shift makes up for. -/
theorem eraseAll_shifted_from (q : α → Bool) (kept l r : List α) (shift : ℕ) :
    eraseAll 1 shift (l.findIdxs q (kept.length + shift)) (kept ++ l ++ r) =
      some (kept ++ (l.filter fun x => !q x) ++ r) := by
  induction l generalizing kept shift with
  | nil => rfl
  | cons x l ih =>
    rw [List.findIdxs_cons]
    by_cases hx : q x = true
    · have herase : (kept ++ x :: l ++ r).eraseIdx (kept.length + shift - shift) = kept ++ l ++ r := by
        rw [Nat.add_sub_cancel, List.append_assoc, List.eraseIdx_append_of_length_le (Nat.le_refl _), Nat.sub_self,
          List.append_assoc]
        rfl
      have hin : shift ≤ kept.length + shift ∧ kept.length + shift - shift < (kept ++ x :: l ++ r).length := by
        simp only [List.length_append, List.length_cons]
        omega
      rw [if_pos hx, eraseAll, if_pos hin, herase, Nat.add_assoc, ih kept (shift + 1)]
      simp [hx]
    · have := ih (kept ++ [x]) shift
      rw [List.length_append, List.length_singleton, Nat.add_right_comm] at this
      rw [if_neg hx]
      simpa [hx] using this

/-- What a shifted erase of the positions that pass a test leaves is the rest, in order. -/
theorem eraseAll_shifted (q : α → Bool) (l r : List α) :
    eraseAll 1 0 (l.findIdxs q) (l ++ r) = some ((l.filter fun x => !q x) ++ r) :=
  eraseAll_shifted_from q [] l r 0

/-- Without a shift, what lies before all the positions stays where it is. -/
theorem eraseAll_getElem? {ps : List ℕ} {l l' : List α} {i : ℕ} (h : eraseAll 0 0 ps l = some l')
    (hi : ∀ p ∈ ps, i < p) : l'[i]? = l[i]? := by
  induction ps generalizing l with
  | nil =>
    obtain rfl := Option.some.inj h
    rfl
  | cons p ps ih =>
    rw [eraseAll] at h
    split at h
    · have hp : i < p := hi p List.mem_cons_self
      rw [ih h fun p' hp' => hi p' (List.mem_cons_of_mem p hp'), List.getElem?_eraseIdx, if_pos (by omega)]
    · cases h

/-- Without a shift, the element at the second of two positions survives. -/
theorem mem_of_eraseAll {p₁ p₂ : ℕ} {ps : List ℕ} {l l' : List α} {x : α}
    (h : eraseAll 0 0 (p₁ :: p₂ :: ps) l = some l') (hsorted : (p₁ :: p₂ :: ps).Pairwise (· < ·))
    (hx : l[p₂]? = some x) : x ∈ l' := by
  obtain ⟨hfirst, hsecond⟩ := List.pairwise_cons.mp hsorted
  have h12 : p₁ < p₂ := hfirst p₂ List.mem_cons_self
  have hlater : ∀ p ∈ p₂ :: ps, p₂ - 1 < p := by
    intro p hp
    rcases List.mem_cons.mp hp with rfl | hp
    · omega
    · have := (List.pairwise_cons.mp hsecond).1 p hp
      omega
  rw [eraseAll] at h
  split at h
  · have hkeep := eraseAll_getElem? h hlater
    rw [Nat.sub_zero, List.getElem?_eraseIdx, if_neg (show ¬ p₂ - 1 < p₁ by omega), Nat.sub_add_cancel (by omega),
      hx] at hkeep
    exact List.mem_of_getElem? hkeep
  · cases h

/-- Erasing the positions that pass a test without a shift leaves the rest exactly when at most one passes. -/
theorem eraseAll_unshifted_iff (q : α → Bool) (l : List α) :
    eraseAll 0 0 (l.findIdxs q) l = some (l.filter fun x => !q x) ↔ l.countP q ≤ 1 := by
  rw [← List.length_findIdxs (s := 0)]
  have hshift := eraseAll_shifted q l []
  rw [List.append_nil, List.append_nil] at hshift
  have hsorted : (l.findIdxs q).Pairwise (· < ·) := List.pairwise_findIdxs
  have hmem : ∀ p ∈ l.findIdxs q, ∃ h : p < l.length, q l[p] = true := fun p hp =>
    List.mem_findIdxs_iff_exists_getElem_pos.mp hp
  generalize l.findIdxs q = ps at hshift hsorted hmem
  match ps with
  | [] => simpa [eraseAll] using hshift
  | [p] => simpa [eraseAll] using hshift
  | p₁ :: p₂ :: ps =>
    refine ⟨fun h => ?_, fun h => ?_⟩
    · obtain ⟨hlt, hq⟩ := hmem p₂ (List.mem_cons_of_mem _ List.mem_cons_self)
      have hin := mem_of_eraseAll h hsorted (List.getElem?_eq_getElem hlt)
      have := (List.mem_filter.mp hin).2
      rw [hq] at this
      cases this
    · simp only [List.length_cons] at h
      omega

end Positions

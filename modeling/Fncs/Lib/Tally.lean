/-
A table of counters as the bag of what it counts: a key with the value `v`
stands for `v` copies of the key. Adding to a counter, taking one from it and
dropping the keys of a set are sums of bags.
-/
import Fncs.Lib.OrdMap

namespace OrdMap

variable {κ : Type*} [LinearOrder κ]

/-- What the counters count. -/
def bag (m : OrdMap κ ℕ) : Multiset κ := ∑ k ∈ m.dom, Multiset.replicate ((m.lookup k).getD 0) k

/-- One more key, or one key counted `n` more times. -/
def addCount (m : OrdMap κ ℕ) (k : κ) (n : ℕ) : OrdMap κ ℕ := m.insert k ((m.lookup k).getD 0 + n)

/-- One less of a key; the last one takes the entry with it. -/
def takeOne (m : OrdMap κ ℕ) (k : κ) : OrdMap κ ℕ :=
  match m.lookup k with
  | none => m
  | some v => if v ≤ 1 then m.erase k else m.insert k (v - 1)

variable {m : OrdMap κ ℕ} {k : κ}

@[simp] theorem bag_empty : (∅ : OrdMap κ ℕ).bag = 0 := rfl

@[simp] theorem count_bag (m : OrdMap κ ℕ) (k : κ) : m.bag.count k = (m.lookup k).getD 0 := by
  simp only [bag, Multiset.count_sum', Multiset.count_replicate]
  rw [Finset.sum_ite_eq']
  split
  · rfl
  · next h => rw [lookup_eq_none.mpr h, Option.getD_none]

theorem card_bag (m : OrdMap κ ℕ) : m.bag.card = m.total id := by
  rw [total_eq_sum id (Finset.Subset.refl m.dom), bag, Multiset.card_sum]
  refine Finset.sum_congr rfl fun k _ => ?_
  rw [Multiset.card_replicate, Option.map_id]
  rfl

theorem mem_bag : k ∈ m.bag ↔ 0 < (m.lookup k).getD 0 := by rw [← Multiset.count_pos, count_bag]

@[simp] theorem bag_addCount (m : OrdMap κ ℕ) (k : κ) (n : ℕ) :
    (m.addCount k n).bag = m.bag + Multiset.replicate n k := by
  ext j
  rw [Multiset.count_add, count_bag, count_bag, Multiset.count_replicate, addCount, lookup_insert]
  by_cases h : j = k
  · subst h
    simp
  · simp [h, Ne.symm h]

theorem bag_takeOne (h : k ∈ m.bag) : (m.takeOne k).bag + {k} = m.bag := by
  have hpos := mem_bag.mp h
  ext j
  rw [Multiset.count_add, count_bag, count_bag, Multiset.count_singleton, takeOne]
  cases hl : m.lookup k with
  | none => rw [hl] at hpos; cases hpos
  | some v =>
    rw [hl, Option.getD_some] at hpos
    by_cases hj : j = k
    · subst hj
      by_cases hv : v ≤ 1
      · simp only [if_pos hv, lookup_erase, hl]
        simp
        omega
      · simp only [if_neg hv, lookup_insert, hl]
        simp
        omega
    · by_cases hv : v ≤ 1 <;> simp [hv, hj]

theorem takeOne_le (m : OrdMap κ ℕ) (k : κ) : (m.takeOne k).bag ≤ m.bag := by
  by_cases h : k ∈ m.bag
  · exact (bag_takeOne h).symm ▸ Multiset.le_add_right _ _
  · rw [Multiset.le_iff_count]
    intro j
    rw [mem_bag, Nat.not_lt, Nat.le_zero] at h
    rw [count_bag, count_bag, takeOne]
    cases hl : m.lookup k with
    | none => exact Nat.le_refl _
    | some v =>
      rw [hl, Option.getD_some] at h
      rw [h]
      by_cases hj : j = k <;> simp [hj]

/-- What a filter keeps and what it drops. -/
theorem bag_filter (p : κ → Bool) (m : OrdMap κ ℕ) :
    (m.filter fun k _ => !p k).bag + (m.filter fun k _ => p k).bag = m.bag := by
  ext j
  rw [Multiset.count_add, count_bag, count_bag, count_bag, lookup_filter, lookup_filter]
  cases m.lookup j with
  | none => rfl
  | some v => cases p j <;> simp [Option.filter]

theorem bag_filter_eq (p : κ → Bool) (m : OrdMap κ ℕ) :
    (m.filter fun k _ => p k).bag = m.bag.filter fun k => p k = true := by
  ext j
  rw [count_bag, lookup_filter, Multiset.count_filter, count_bag]
  cases m.lookup j with
  | none => simp
  | some v => cases p j <;> simp [Option.filter]

/-- When a changed counter counts `n` more of `j`. -/
theorem bag_insert_eq_iff {j : κ} {v n : ℕ} : (m.insert k v).bag = m.bag + Multiset.replicate n j ↔
    v = (m.lookup k).getD 0 + (if j = k then n else 0) ∧ (j ≠ k → n = 0) := by
  constructor
  · intro h
    have hk := congrArg (Multiset.count k) h
    have hj := congrArg (Multiset.count j) h
    simp only [Multiset.count_add, count_bag, Multiset.count_replicate, lookup_insert, if_true,
      Option.getD_some] at hk hj
    refine ⟨hk, fun hne => ?_⟩
    rw [if_neg hne] at hj
    omega
  · rintro ⟨rfl, hn⟩
    ext i
    rw [Multiset.count_add, count_bag, count_bag, Multiset.count_replicate, lookup_insert]
    by_cases hi : i = k
    · subst hi
      simp
    · by_cases hij : j = i
      · rw [if_neg hi, if_pos hij, hn (fun h => hi (hij ▸ h)), Nat.add_zero]
      · rw [if_neg hi, if_neg hij, Nat.add_zero]

end OrdMap

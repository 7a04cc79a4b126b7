/-
Finite maps kept as association lists sorted by key, each key once: the
ordered map of a standard library, iterated from its least key. A set is a
map with no payload (`OrdSet`).

The sortedness is a field, so a map that repeats a key cannot be built, and
a map is determined by its lookups (`OrdMap.ext_lookup`). Proofs about which
keys a map has go through the `Finset` of its keys (`dom`), whose cardinality
is the size (`card_dom`).
-/
import Mathlib

universe u v w

/-- A finite map in key order. -/
structure OrdMap (κ : Type u) (α : Type v) [LinearOrder κ] where
  entries : List (κ × α)
  sorted : entries.Pairwise fun a b => a.1 < b.1

/-- A finite set in key order. -/
abbrev OrdSet (κ : Type u) [LinearOrder κ] := OrdMap κ Unit

namespace OrdMap

variable {κ : Type u} {α : Type v} {β : Type w} [LinearOrder κ]

theorem ext_entries {m m' : OrdMap κ α} (h : m.entries = m'.entries) : m = m' := by
  cases m; cases m'; cases h; rfl

instance [DecidableEq α] : DecidableEq (OrdMap κ α) := fun m m' =>
  decidable_of_iff (m.entries = m'.entries) ⟨ext_entries, fun h => h ▸ rfl⟩

instance : EmptyCollection (OrdMap κ α) := ⟨⟨[], .nil⟩⟩

instance : Inhabited (OrdMap κ α) := ⟨∅⟩

/-- Keys are compared by their order. -/
instance lawfulBEq_of_linearOrder : @LawfulBEq κ instBEqOfDecidableEq := inferInstance

/-- The number of keys. -/
def size (m : OrdMap κ α) : ℕ := m.entries.length

/-- The value at `k`. -/
def lookup (m : OrdMap κ α) (k : κ) : Option α :=
  (m.entries.find? fun e => e.1 = k).map Prod.snd

/-- `k` is a key. -/
def contains (m : OrdMap κ α) (k : κ) : Bool := (m.lookup k).isSome

/-- The keys, in order. -/
def keys (m : OrdMap κ α) : List κ := m.entries.map Prod.fst

/-- The values, in the order of their keys. -/
def vals (m : OrdMap κ α) : List α := m.entries.map Prod.snd

/-- The keys, as a set. -/
def dom (m : OrdMap κ α) : Finset κ := m.keys.toFinset

/-- `l` with `k` bound to `v`, replacing what was there. -/
def insertEntry (k : κ) (v : α) : List (κ × α) → List (κ × α)
  | [] => [(k, v)]
  | e :: l =>
    if k < e.1 then (k, v) :: e :: l
    else if k = e.1 then (k, v) :: l
    else e :: insertEntry k v l

/-! ## Entries -/

theorem fst_inj {m : OrdMap κ α} {a b : κ × α} (ha : a ∈ m.entries) (hb : b ∈ m.entries)
    (h : a.1 = b.1) : a = b := by
  obtain ⟨l, hs⟩ := m
  induction hs with
  | nil => simp at ha
  | cons hlt _ ih =>
    simp only [List.mem_cons] at ha hb
    rcases ha with rfl | ha <;> rcases hb with rfl | hb
    · rfl
    · exact absurd h (hlt _ hb).ne
    · exact absurd h (hlt _ ha).ne'
    · exact ih ha hb

theorem lookup_eq_some {m : OrdMap κ α} {k : κ} {v : α} :
    m.lookup k = some v ↔ (k, v) ∈ m.entries := by
  simp only [lookup, Option.map_eq_some_iff]
  constructor
  · rintro ⟨⟨j, w⟩, hf, rfl⟩
    have hj : j = k := by simpa using List.find?_some hf
    exact hj ▸ List.mem_of_find?_eq_some hf
  · intro hm
    cases hf : m.entries.find? (fun e => e.1 = k) with
    | none => simpa using List.find?_eq_none.mp hf _ hm
    | some e =>
      have he : e.1 = k := by simpa using List.find?_some hf
      exact ⟨e, rfl, by rw [fst_inj (List.mem_of_find?_eq_some hf) hm he]⟩

theorem mem_insertEntry {k : κ} {v : α} {l : List (κ × α)}
    (hs : l.Pairwise fun a b => a.1 < b.1) {e : κ × α} :
    e ∈ insertEntry k v l ↔ e = (k, v) ∨ (e ∈ l ∧ e.1 ≠ k) := by
  induction hs with
  | nil => simp [insertEntry]
  | @cons a l hlt _ ih =>
    simp only [insertEntry]
    split
    · next hk =>
      have hne : ∀ b, b = a ∨ b ∈ l → b.1 ≠ k := by
        rintro b (rfl | hb)
        · exact hk.ne'
        · exact (hk.trans (hlt b hb)).ne'
      simp only [List.mem_cons]
      grind
    · split
      · next hk =>
        subst hk
        have hne : ∀ b ∈ l, b.1 ≠ a.1 := fun b hb => (hlt b hb).ne'
        simp only [List.mem_cons]
        grind
      · simp only [List.mem_cons, ih]
        grind

theorem insertEntry_sorted {k : κ} {v : α} {l : List (κ × α)}
    (hs : l.Pairwise fun a b => a.1 < b.1) : (insertEntry k v l).Pairwise fun a b => a.1 < b.1 := by
  induction hs with
  | nil => simp [insertEntry]
  | @cons a l hlt hs ih =>
    simp only [insertEntry]
    split
    · next hk =>
      refine .cons (fun b hb => ?_) (.cons hlt hs)
      rcases List.mem_cons.mp hb with rfl | hb
      · exact hk
      · exact hk.trans (hlt b hb)
    · split
      · next hk => exact .cons (fun b hb => hk ▸ hlt b hb) hs
      · next h1 h2 =>
        refine .cons (fun b hb => ?_) ih
        rcases (mem_insertEntry hs).mp hb with rfl | ⟨hb, -⟩
        · exact lt_of_le_of_ne (not_lt.mp h1) (Ne.symm h2)
        · exact hlt b hb

/-! ## Operations -/

/-- `k` bound to `v`, replacing what was there. -/
def insert (m : OrdMap κ α) (k : κ) (v : α) : OrdMap κ α :=
  ⟨insertEntry k v m.entries, insertEntry_sorted m.sorted⟩

/-- Without `k`. -/
def erase (m : OrdMap κ α) (k : κ) : OrdMap κ α :=
  ⟨m.entries.filter fun e => e.1 ≠ k, m.sorted.filter _⟩

/-- Every value through `f`. -/
def map (f : κ → α → β) (m : OrdMap κ α) : OrdMap κ β :=
  ⟨m.entries.map fun e => (e.1, f e.1 e.2), List.pairwise_map.mpr m.sorted⟩

/-- Only the entries `p` keeps. -/
def filter (p : κ → α → Bool) (m : OrdMap κ α) : OrdMap κ α :=
  ⟨m.entries.filter fun e => p e.1 e.2, m.sorted.filter _⟩

/-- `m` with the keys of `m'` it does not have, bound as in `m'`. -/
def union (m m' : OrdMap κ α) : OrdMap κ α :=
  m'.entries.foldl (fun acc e => if acc.contains e.1 then acc else acc.insert e.1 e.2) m

/-! ## Lookups -/

theorem ext_lookup {m m' : OrdMap κ α} (h : ∀ k, m.lookup k = m'.lookup k) : m = m' := by
  have hm : ∀ e, e ∈ m.entries ↔ e ∈ m'.entries := fun ⟨k, v⟩ => by
    rw [← lookup_eq_some, ← lookup_eq_some, h]
  have hperm : m.entries.Perm m'.entries :=
    (List.perm_ext_iff_of_nodup (m.sorted.imp fun h => ne_of_apply_ne Prod.fst h.ne)
      (m'.sorted.imp fun h => ne_of_apply_ne Prod.fst h.ne)).mpr hm
  exact ext_entries (hperm.eq_of_pairwise (fun a b _ _ hab hba => absurd hab hba.asymm) m.sorted m'.sorted)

@[simp] theorem lookup_empty (k : κ) : (∅ : OrdMap κ α).lookup k = none := rfl

@[simp] theorem entries_empty : (∅ : OrdMap κ α).entries = [] := rfl

@[simp] theorem lookup_insert (m : OrdMap κ α) (k j : κ) (v : α) :
    (m.insert k v).lookup j = if j = k then some v else m.lookup j := by
  refine Option.ext fun w => ?_
  have hmem : (m.insert k v).lookup j = some w ↔ (j, w) = (k, v) ∨ ((j, w) ∈ m.entries ∧ j ≠ k) :=
    lookup_eq_some.trans (mem_insertEntry m.sorted)
  by_cases h : j = k
  · subst h
    simp [hmem, eq_comm]
  · simp [hmem, h, lookup_eq_some]

@[simp] theorem lookup_erase (m : OrdMap κ α) (k j : κ) :
    (m.erase k).lookup j = if j = k then none else m.lookup j := by
  refine Option.ext fun w => ?_
  have hmem : (m.erase k).lookup j = some w ↔ (j, w) ∈ m.entries ∧ j ≠ k := by
    rw [lookup_eq_some]; simp [erase, List.mem_filter]
  rw [hmem]
  by_cases h : j = k <;> simp [h, lookup_eq_some]

@[simp] theorem lookup_map (f : κ → α → β) (m : OrdMap κ α) (k : κ) :
    (m.map f).lookup k = (m.lookup k).map (f k) := by
  refine Option.ext fun w => ?_
  rw [lookup_eq_some]
  simp only [map, List.mem_map, Prod.mk.injEq, Option.map_eq_some_iff, lookup_eq_some]
  constructor
  · rintro ⟨⟨j, v⟩, hm, rfl, rfl⟩; exact ⟨v, hm, rfl⟩
  · rintro ⟨v, hm, rfl⟩; exact ⟨(k, v), hm, rfl, rfl⟩

@[simp] theorem lookup_filter (p : κ → α → Bool) (m : OrdMap κ α) (k : κ) :
    (m.filter p).lookup k = (m.lookup k).filter (p k) := by
  refine Option.ext fun w => ?_
  rw [lookup_eq_some]
  simp only [filter, List.mem_filter, Option.filter_eq_some_iff, lookup_eq_some]

/-! ## Keys -/

@[simp] theorem mem_keys {m : OrdMap κ α} {k : κ} : k ∈ m.keys ↔ ∃ v, m.lookup k = some v := by
  simp [keys, lookup_eq_some]

theorem nodup_keys (m : OrdMap κ α) : m.keys.Nodup :=
  List.pairwise_map.mpr (m.sorted.imp fun h => h.ne)

theorem mem_dom {m : OrdMap κ α} {k : κ} : k ∈ m.dom ↔ ∃ v, m.lookup k = some v := by
  simp [dom]

theorem contains_iff {m : OrdMap κ α} {k : κ} : m.contains k = true ↔ k ∈ m.dom := by
  simp [contains, mem_dom, Option.isSome_iff_exists]

theorem not_contains_iff {m : OrdMap κ α} {k : κ} : m.contains k = false ↔ k ∉ m.dom := by
  rw [← contains_iff, Bool.not_eq_true]

theorem lookup_eq_none {m : OrdMap κ α} {k : κ} : m.lookup k = none ↔ k ∉ m.dom := by
  rw [← not_contains_iff, contains, Option.isSome_eq_false_iff, Option.isNone_iff_eq_none]

theorem mem_dom_of_lookup {m : OrdMap κ α} {k : κ} {v : α} (h : m.lookup k = some v) : k ∈ m.dom :=
  mem_dom.mpr ⟨v, h⟩

@[simp] theorem card_dom (m : OrdMap κ α) : m.dom.card = m.size := by
  rw [dom, List.toFinset_card_of_nodup m.nodup_keys, keys, List.length_map, size]

@[simp] theorem dom_empty : (∅ : OrdMap κ α).dom = ∅ := rfl

@[simp] theorem size_empty : (∅ : OrdMap κ α).size = 0 := rfl

@[simp] theorem contains_empty (k : κ) : (∅ : OrdMap κ α).contains k = false := rfl

@[simp] theorem dom_insert (m : OrdMap κ α) (k : κ) (v : α) :
    (m.insert k v).dom = Insert.insert k m.dom := by
  ext j
  by_cases h : j = k <;> simp [mem_dom, h]

@[simp] theorem dom_erase (m : OrdMap κ α) (k : κ) : (m.erase k).dom = m.dom.erase k := by
  ext j
  by_cases h : j = k <;> simp [mem_dom, h]

@[simp] theorem dom_map (f : κ → α → β) (m : OrdMap κ α) : (m.map f).dom = m.dom := by
  ext j; simp [mem_dom]

@[simp] theorem size_map (f : κ → α → β) (m : OrdMap κ α) : (m.map f).size = m.size := by
  rw [← card_dom, dom_map, card_dom]

theorem size_insert_of_notMem {m : OrdMap κ α} {k : κ} (h : k ∉ m.dom) (v : α) :
    (m.insert k v).size = m.size + 1 := by
  rw [← card_dom, dom_insert, Finset.card_insert_of_notMem h, card_dom]

theorem size_erase_of_mem {m : OrdMap κ α} {k : κ} (h : k ∈ m.dom) :
    (m.erase k).size = m.size - 1 := by
  rw [← card_dom, dom_erase, Finset.card_erase_of_mem h, card_dom]

theorem size_eq_zero {m : OrdMap κ α} : m.size = 0 ↔ m = ∅ := by
  constructor
  · intro h; exact ext_entries (List.length_eq_zero_iff.mp h)
  · rintro rfl; rfl

theorem eq_empty_of_dom {m : OrdMap κ α} (h : m.dom = ∅) : m = ∅ := by
  rw [← size_eq_zero, ← card_dom, h, Finset.card_empty]

@[simp] theorem toFinset_keys (m : OrdMap κ α) : m.keys.toFinset = m.dom := rfl

theorem mem_vals {m : OrdMap κ α} {v : α} : v ∈ m.vals ↔ ∃ k, m.lookup k = some v := by
  simp [vals, lookup_eq_some]

/-- A sum over the values is a sum over the keys. -/
theorem sum_vals {M : Type*} [AddCommMonoid M] (m : OrdMap κ α) (f : α → M) :
    (m.vals.map f).sum = ∑ k ∈ m.dom, ((m.lookup k).map f).getD 0 := by
  have hfold : ∑ k ∈ m.dom, ((m.lookup k).map f).getD 0
      = (m.keys.map fun k => ((m.lookup k).map f).getD 0).sum := by
    rw [dom, List.sum_toFinset _ m.nodup_keys]
  rw [hfold, keys, vals, List.map_map, List.map_map]
  congr 1
  refine List.map_congr_left fun e he => ?_
  have : m.lookup e.1 = some e.2 := lookup_eq_some.mpr he
  simp [this]

/-- The entries, when every key is bound as `f` says. -/
theorem entries_eq_map {m : OrdMap κ α} {f : κ → α} (h : ∀ k ∈ m.dom, m.lookup k = some (f k)) :
    (m.entries : Multiset (κ × α)) = m.dom.val.map fun k => (k, f k) := by
  have hid : m.entries.map ((fun k => (k, f k)) ∘ Prod.fst) = m.entries.map id := by
    refine List.map_congr_left fun e he => ?_
    have hl : m.lookup e.1 = some e.2 := lookup_eq_some.mpr he
    rw [h _ (mem_dom_of_lookup hl), Option.some.injEq] at hl
    simp [hl]
  rw [dom, List.toFinset_val, m.nodup_keys.dedup, Multiset.map_coe, keys, List.map_map, hid, List.map_id]

/-! ## Totals -/

/-- The sum of `f` over the values. -/
def total (f : α → ℕ) (m : OrdMap κ α) : ℕ := (m.vals.map f).sum

@[simp] theorem total_empty (f : α → ℕ) : (∅ : OrdMap κ α).total f = 0 := rfl

/-- A total is a sum over any set that has the keys. -/
theorem total_eq_sum (f : α → ℕ) {m : OrdMap κ α} {s : Finset κ} (h : m.dom ⊆ s) :
    m.total f = ∑ k ∈ s, ((m.lookup k).map f).getD 0 := by
  rw [total, sum_vals]
  refine Finset.sum_subset h fun k _ hk => ?_
  rw [lookup_eq_none.mpr hk]
  rfl

theorem total_insert (f : α → ℕ) (m : OrdMap κ α) (k : κ) (v : α) :
    (m.insert k v).total f + ((m.lookup k).map f).getD 0 = m.total f + f v := by
  rw [total_eq_sum f (dom_insert m k v).subset, total_eq_sum f (Finset.subset_insert k m.dom),
    ← Finset.sum_erase_add _ _ (Finset.mem_insert_self k m.dom),
    ← Finset.sum_erase_add _ _ (Finset.mem_insert_self k m.dom)]
  have hrest : ∑ j ∈ (Insert.insert k m.dom).erase k, (((m.insert k v).lookup j).map f).getD 0 =
      ∑ j ∈ (Insert.insert k m.dom).erase k, ((m.lookup j).map f).getD 0 :=
    Finset.sum_congr rfl fun j hj => by simp [Finset.ne_of_mem_erase hj]
  rw [hrest]
  simp
  omega

theorem total_erase (f : α → ℕ) (m : OrdMap κ α) (k : κ) :
    (m.erase k).total f + ((m.lookup k).map f).getD 0 = m.total f := by
  have hsub : (m.erase k).dom ⊆ Insert.insert k m.dom := by
    rw [dom_erase]
    exact (Finset.erase_subset _ _).trans (Finset.subset_insert k m.dom)
  rw [total_eq_sum f hsub, total_eq_sum f (Finset.subset_insert k m.dom),
    ← Finset.sum_erase_add _ _ (Finset.mem_insert_self k m.dom),
    ← Finset.sum_erase_add _ _ (Finset.mem_insert_self k m.dom)]
  have hrest : ∑ j ∈ (Insert.insert k m.dom).erase k, (((m.erase k).lookup j).map f).getD 0 =
      ∑ j ∈ (Insert.insert k m.dom).erase k, ((m.lookup j).map f).getD 0 :=
    Finset.sum_congr rfl fun j hj => by simp [Finset.ne_of_mem_erase hj]
  rw [hrest]
  simp

/-- What a filter keeps and what it drops. -/
theorem total_filter (f : α → ℕ) (p : κ → Bool) (m : OrdMap κ α) :
    (m.filter fun k _ => p k).total f + (m.filter fun k _ => !p k).total f = m.total f := by
  have hsub (q : κ → Bool) : (m.filter fun k _ => q k).dom ⊆ m.dom := by
    intro k hk
    simp only [mem_dom, lookup_filter, Option.filter_eq_some_iff] at hk ⊢
    obtain ⟨v, hv, -⟩ := hk
    exact ⟨v, hv⟩
  rw [total_eq_sum f (hsub p), total_eq_sum f (hsub fun k => !p k), total_eq_sum f (Finset.Subset.refl m.dom),
    ← Finset.sum_add_distrib]
  refine Finset.sum_congr rfl fun k _ => ?_
  cases hp : p k <;> cases hl : m.lookup k <;> simp [hp, hl, Option.filter]

theorem total_le {f f' : α → ℕ} (h : ∀ v, f v ≤ f' v) (m : OrdMap κ α) : m.total f ≤ m.total f' :=
  List.sum_le_sum fun v _ => h v

/-- A map whose values all count is empty when nothing is counted. -/
theorem eq_empty_of_total {f : α → ℕ} (h : ∀ v, 0 < f v) {m : OrdMap κ α} (h0 : m.total f = 0) : m = ∅ := by
  refine eq_empty_of_dom (Finset.eq_empty_of_forall_notMem fun k hk => ?_)
  obtain ⟨v, hv⟩ := mem_dom.mp hk
  have hle := List.single_le_sum (fun _ _ => Nat.zero_le _) (f v) (List.mem_map.mpr ⟨v, mem_vals.mpr ⟨k, hv⟩, rfl⟩)
  have := h v
  rw [total] at h0
  omega

/-! ## Union -/

theorem lookup_foldl_union (l : List (κ × α)) (m : OrdMap κ α) (k : κ) :
    (l.foldl (fun acc e => if acc.contains e.1 then acc else acc.insert e.1 e.2) m).lookup k =
      (m.lookup k).or ((l.find? fun e => e.1 = k).map Prod.snd) := by
  induction l generalizing m with
  | nil => simp
  | cons e l ih =>
    rw [List.foldl_cons, ih]
    by_cases hk : e.1 = k
    · subst hk
      by_cases hc : m.contains e.1 = true
      · obtain ⟨v, hv⟩ := mem_dom.mp (contains_iff.mp hc)
        simp [hc, hv]
      · have hn : m.lookup e.1 = none := by
          rw [lookup_eq_none, ← contains_iff]; exact hc
        simp [hc, hn]
    · rw [List.find?_cons_of_neg (by simpa using hk)]
      split
      · rfl
      · rw [lookup_insert, if_neg (Ne.symm hk)]

@[simp] theorem lookup_union (m m' : OrdMap κ α) (k : κ) :
    (m.union m').lookup k = (m.lookup k).or (m'.lookup k) :=
  lookup_foldl_union m'.entries m k

@[simp] theorem dom_union (m m' : OrdMap κ α) : (m.union m').dom = m.dom ∪ m'.dom := by
  ext k
  simp only [Finset.mem_union, mem_dom, lookup_union]
  cases m.lookup k <;> simp

theorem find?_fst {l : List (κ × α)} {k : κ} (h : ∀ e ∈ l, e.1 ≠ k) :
    (l.find? fun e => decide (e.1 = k)) = none :=
  List.find?_eq_none.mpr fun e he => by simpa using h e he

/-- Writing every entry of `m'` over `m`. -/
theorem lookup_foldl_insert (f : α → β) (m : OrdMap κ β) (m' : OrdMap κ α) (k : κ) :
    (m'.entries.foldl (fun acc e => acc.insert e.1 (f e.2)) m).lookup k =
      ((m'.lookup k).map f).or (m.lookup k) := by
  obtain ⟨l, hs⟩ := m'
  simp only [lookup]
  induction hs generalizing m with
  | nil => simp
  | @cons e l hlt hs ih =>
    rw [List.foldl_cons, ih]
    by_cases hk : e.1 = k
    · subst hk
      rw [find?_fst fun b hb => (hlt b hb).ne']
      have := lookup_insert m e.1 e.1 (f e.2)
      rw [lookup] at this
      simp [this]
    · rw [List.find?_cons_of_neg (by simpa using hk)]
      have := lookup_insert m e.1 k (f e.2)
      rw [if_neg (Ne.symm hk), lookup, lookup] at this
      rw [this]

end OrdMap

/-! ## Sets -/

namespace OrdSet

variable {κ : Type u} [LinearOrder κ]

/-- `s` with `k`. -/
def add (s : OrdSet κ) (k : κ) : OrdSet κ := s.insert k ()

/-- The set of a list's elements. -/
def ofList (l : List κ) : OrdSet κ := l.foldl add ∅

@[simp] theorem dom_add (s : OrdSet κ) (k : κ) : (s.add k).dom = insert k s.dom :=
  OrdMap.dom_insert s k ()

/-- A set is determined by its elements. -/
theorem ext_dom {s t : OrdSet κ} (h : s.dom = t.dom) : s = t := by
  refine OrdMap.ext_lookup fun k => Option.ext fun v => ?_
  have hk := Finset.ext_iff.mp h k
  simp only [OrdMap.mem_dom] at hk
  constructor
  · intro hs; obtain ⟨w, hw⟩ := hk.mp ⟨v, hs⟩; exact hw
  · intro ht; obtain ⟨w, hw⟩ := hk.mpr ⟨v, ht⟩; exact hw

theorem size_add_of_notMem {s : OrdSet κ} {k : κ} (h : k ∉ s.dom) : (s.add k).size = s.size + 1 :=
  OrdMap.size_insert_of_notMem h ()

theorem dom_foldl_add (l : List κ) (s : OrdSet κ) : (l.foldl add s).dom = s.dom ∪ l.toFinset := by
  induction l generalizing s with
  | nil => simp
  | cons k l ih => rw [List.foldl_cons, ih]; ext j; simp

@[simp] theorem dom_ofList (l : List κ) : (ofList l).dom = l.toFinset := by
  simp [ofList, dom_foldl_add]

end OrdSet

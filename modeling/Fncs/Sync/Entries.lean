/-
The entries of `powersimgrantedTime`: how many there are, which have been
written, and what the assignments of the sleeping algorithm keep of them.
-/
import Fncs.Sync.Sleeping

namespace Fncs

namespace ConservativeSleepingTickAlgo

/-- Entry `k` is there, and has been written. -/
def Written (a : ConservativeSleepingTickAlgo) (k : ℕ) : Prop :=
  ∃ e, a.powersimgrantedTime[k]? = some e ∧ e.written = true

def tableFull (a : ConservativeSleepingTickAlgo) : Bool := a.powersimgrantedTime.all Entry.written

variable {a b : ConservativeSleepingTickAlgo} {i j k : ℕ} {t : TIME} {ts : List TIME}

theorem tableFull_iff : a.tableFull = true ↔ ∀ k < a.powersimgrantedTime.length, a.Written k := by
  rw [tableFull, List.all_eq_true]
  constructor
  · intro h k hk
    exact ⟨_, List.getElem?_eq_getElem hk, h _ (List.getElem_mem hk)⟩
  · intro h e he
    obtain ⟨k, hk, hek⟩ := List.mem_iff_getElem.mp he
    obtain ⟨e', he', hw⟩ := h k hk
    rw [List.getElem?_eq_getElem hk, hek] at he'
    cases he'
    exact hw

/-- The table has `n` entries, and what has been written to them is 64-bit. -/
structure Bounded (n : ℕ) (a : ConservativeSleepingTickAlgo) : Prop where
  size : a.powersimgrantedTime.length = n
  value : ∀ e ∈ a.powersimgrantedTime, e.written = true → e.value ≤ Infinity

/-- The table of `b` has the entries of that of `a`, and those written are. -/
structure Extends (a b : ConservativeSleepingTickAlgo) : Prop where
  size : b.powersimgrantedTime.length = a.powersimgrantedTime.length
  written : ∀ k, a.Written k → b.Written k

theorem Extends.of_eq (h : b.powersimgrantedTime = a.powersimgrantedTime) : Extends a b :=
  ⟨by rw [h], fun k hk => by rwa [Written, h]⟩

theorem Extends.trans {c : ConservativeSleepingTickAlgo} (h : Extends a b) (h' : Extends b c) : Extends a c where
  size := h'.size.trans h.size
  written k hk := h'.written k (h.written k hk)

theorem Extends.tableFull (h : Extends a b) (ha : a.tableFull = true) : b.tableFull = true := by
  rw [tableFull_iff] at ha ⊢
  intro k hk
  rw [h.size] at hk
  exact h.written k (ha k hk)

theorem assign_spec (hi : i < a.powersimgrantedTime.length) :
    ∃ b, a.assign i t = some b ∧ Extends a b ∧ b.Written i := by
  refine ⟨_, if_pos hi, ⟨List.length_set, ?_⟩, ⟨t, true⟩, ?_, rfl⟩
  · intro k hk
    obtain ⟨e, he, hw⟩ := hk
    by_cases hki : i = k
    · subst hki
      exact ⟨⟨t, true⟩, List.getElem?_set_self hi, rfl⟩
    · exact ⟨e, (List.getElem?_set_ne hki).trans he, hw⟩
  · exact List.getElem?_set_self hi

/-- A list that fits is stored; if no time in it is left out, entry by entry from `j` on. -/
theorem store_spec (h : j + ts.length ≤ a.powersimgrantedTime.length) :
    ∃ b, a.store j ts = some b ∧ Extends a b ∧
      ((∀ t ∈ ts, t ≠ Infinity) → ∀ k, j ≤ k → k < j + ts.length → b.Written k) := by
  induction ts generalizing a j with
  | nil =>
    refine ⟨a, rfl, .of_eq rfl, ?_⟩
    intro _ k hj hk
    simp only [List.length_nil] at hk
    omega
  | cons t ts ih =>
    rw [List.length_cons] at h
    unfold store
    split
    · next ht =>
      obtain ⟨b, hb, he, -⟩ := ih (a := a) (j := j) (by omega)
      exact ⟨b, hb, he, fun hall => absurd ht (hall t List.mem_cons_self)⟩
    · obtain ⟨c, hc, hac, hwc⟩ := assign_spec (t := t) (show j < a.powersimgrantedTime.length by omega)
      obtain ⟨b, hb, hcb, hwb⟩ := ih (a := c) (j := j + 1) (by rw [hac.size]; omega)
      refine ⟨b, by rw [hc, Option.bind_some, hb], hac.trans hcb, ?_⟩
      intro hall k hjk hk
      by_cases hkj : k = j
      · subst hkj
        exact hcb.written k hwc
      · have hts : ∀ t ∈ ts, t ≠ Infinity := fun t ht => hall t (List.mem_cons_of_mem _ ht)
        rw [List.length_cons] at hk
        exact hwb hts k (by omega) (by omega)

/-- The end of a turn, with a list that fits. Where the times are gathered, one for each entry fills the table. -/
theorem gather_spec (h : ts.length ≤ a.powersimgrantedTime.length) :
    ∃ b, a.gather ts = some b ∧ Extends a b ∧
      (a.gathers = true → ts.length = a.powersimgrantedTime.length → (∀ t ∈ ts, t ≠ Infinity) → b.tableFull = true) := by
  have hfit : 0 + ts.length ≤ a.powersimgrantedTime.length := by omega
  obtain ⟨b, hb, he, hw⟩ := store_spec hfit
  unfold gather
  split
  · refine ⟨{ b with mightSleep := true }, by rw [hb, Option.map_some], ⟨he.size, he.written⟩, ?_⟩
    intro _ hlen hts
    refine tableFull_iff.mpr fun k hk => hw hts k (by omega) ?_
    have hsize := he.size
    dsimp only at hk
    omega
  · next hg => exact ⟨a, rfl, .of_eq rfl, fun hg' => absurd hg' hg⟩

theorem awake_table {woken : Bool} {l : Locals} :
    (a.awake woken l).1.powersimgrantedTime = a.powersimgrantedTime := by
  unfold awake
  split
  · rfl
  · rfl

/-- Whether the proposal writes the first entry. -/
def overwrites (diff : ℕ) (a : ConservativeSleepingTickAlgo) (l : Locals) : Bool :=
  a.mightSleep && (diff != 0 || l.needToRespond)

theorem propose_spec {g : Integrator} {diff : ℕ} {l : Locals}
    (h : a.overwrites diff l = true → 0 < a.powersimgrantedTime.length) :
    ∃ b l', a.propose g diff l = some (b, l') ∧ Extends a b := by
  have hwrites : ((GracePeriodSyncAlgo.propose g diff l).needToRespond && a.mightSleep) = a.overwrites diff l := by
    unfold overwrites GracePeriodSyncAlgo.propose
    split
    · next hc => simp [hc.1, hc.2]
    · next hc =>
      have : (diff != 0 || l.needToRespond) = true := by
        cases hr : l.needToRespond with
        | true => simp
        | false => simpa [hr] using hc
      rw [this, Bool.and_comm]
  unfold propose
  dsimp only
  rw [hwrites]
  split
  · next ho =>
    obtain ⟨b, hb, he, -⟩ := assign_spec (a := { a with diff := diff }) (t := 0) (h ho)
    exact ⟨b, _, by rw [hb, Option.map_some], ⟨he.size, he.written⟩⟩
  · exact ⟨_, _, rfl, .of_eq rfl⟩

theorem assign_mightSleep (hb : a.assign i t = some b) : b.mightSleep = a.mightSleep := by
  unfold assign at hb
  split at hb
  · cases hb
    rfl
  · cases hb

theorem propose_mightSleep {g : Integrator} {diff : ℕ} {l l' : Locals} (hb : a.propose g diff l = some (b, l')) :
    b.mightSleep = a.mightSleep := by
  unfold propose at hb
  dsimp only at hb
  split at hb
  · obtain ⟨c, hc, he⟩ := Option.map_eq_some_iff.mp hb
    obtain ⟨rfl, rfl⟩ := Prod.mk.inj he
    have hkept := assign_mightSleep hc
    exact hkept
  · obtain ⟨rfl, rfl⟩ := Prod.mk.inj (Option.some.inj hb)
    rfl

/-- The gathered times go to the table. -/
theorem store_eq (hb : a.store j ts = some b) : ∃ es, b = { a with powersimgrantedTime := es } := by
  induction ts generalizing a j with
  | nil =>
    cases hb
    exact ⟨_, rfl⟩
  | cons t ts ih =>
    unfold store at hb
    split at hb
    · exact ih hb
    · obtain ⟨c, hc, hb⟩ := Option.bind_eq_some_iff.mp hb
      obtain ⟨es, rfl⟩ := ih hb
      unfold assign at hc
      split at hc
      · cases hc
        exact ⟨es, rfl⟩
      · cases hc

/-- The end of a turn stores the times, or leaves the members as they are. -/
theorem gather_eq (hb : a.gather ts = some b) :
    (a.gathers = true ∧ ∃ es, b = { a with powersimgrantedTime := es, mightSleep := true }) ∨
      (a.gathers = false ∧ b = a) := by
  unfold gather at hb
  split at hb
  · next hg =>
    obtain ⟨c, hc, rfl⟩ := Option.map_eq_some_iff.mp hb
    obtain ⟨es, rfl⟩ := store_eq hc
    exact .inl ⟨hg, es, rfl⟩
  · next hg =>
    cases hb
    exact .inr ⟨by simpa using hg, rfl⟩

/-! ### What is stored -/

theorem assign_getElem? (hb : a.assign i t = some b) :
    b.powersimgrantedTime[i]? = some ⟨t, true⟩ ∧
      ∀ k, k ≠ i → b.powersimgrantedTime[k]? = a.powersimgrantedTime[k]? := by
  unfold assign at hb
  split at hb
  · next hi =>
    cases hb
    exact ⟨List.getElem?_set_self hi, fun k hk => List.getElem?_set_ne (Ne.symm hk)⟩
  · cases hb

theorem store_below (hb : a.store j ts = some b) (hk : k < j) :
    b.powersimgrantedTime[k]? = a.powersimgrantedTime[k]? := by
  induction ts generalizing a j with
  | nil =>
    cases hb
    rfl
  | cons t ts ih =>
    unfold store at hb
    split at hb
    · exact ih hb hk
    · obtain ⟨c, hc, hb⟩ := Option.bind_eq_some_iff.mp hb
      rw [ih hb (by omega), (assign_getElem? hc).2 k (by omega)]

/-- Every time but `Infinity` gets an entry. -/
theorem mem_of_store (hb : a.store j ts = some b) (ht : t ∈ ts) (hinf : t ≠ Infinity) :
    ∃ e ∈ b.powersimgrantedTime, e.value = t := by
  induction ts generalizing a j with
  | nil => cases ht
  | cons u ts ih =>
    unfold store at hb
    split at hb
    · next hu =>
      refine ih hb ((List.mem_cons.mp ht).resolve_left fun htu => hinf (htu.trans hu))
    · obtain ⟨c, hc, hrest⟩ := Option.bind_eq_some_iff.mp hb
      obtain rfl | ht := List.mem_cons.mp ht
      · have hj : b.powersimgrantedTime[j]? = some ⟨t, true⟩ := by
          rw [store_below hrest (by omega), (assign_getElem? hc).1]
        exact ⟨_, List.mem_of_getElem? hj, rfl⟩
      · exact ih hrest ht

/-! ### Bounds -/

variable {n : ℕ}

theorem Bounded.assign (h : Bounded n a) (ht : t ≤ Infinity) (hb : a.assign i t = some b) : Bounded n b := by
  unfold ConservativeSleepingTickAlgo.assign at hb
  split at hb
  · cases hb
    refine ⟨List.length_set.trans h.size, fun e he hw => ?_⟩
    obtain he | rfl := List.mem_or_eq_of_mem_set he
    · exact h.value e he hw
    · exact ht
  · cases hb

theorem Bounded.store (h : Bounded n a) (hts : ∀ t ∈ ts, t ≤ Infinity) (hb : a.store j ts = some b) : Bounded n b := by
  induction ts generalizing a j with
  | nil =>
    cases hb
    exact h
  | cons t ts ih =>
    have hrest : ∀ t ∈ ts, t ≤ Infinity := fun t ht => hts t (List.mem_cons_of_mem _ ht)
    unfold ConservativeSleepingTickAlgo.store at hb
    split at hb
    · exact ih h hrest hb
    · obtain ⟨c, hc, hb⟩ := Option.bind_eq_some_iff.mp hb
      exact ih (h.assign (hts t List.mem_cons_self) hc) hrest hb

theorem Bounded.gather (h : Bounded n a) (hts : ∀ t ∈ ts, t ≤ Infinity) (hb : a.gather ts = some b) : Bounded n b := by
  unfold ConservativeSleepingTickAlgo.gather at hb
  split at hb
  · obtain ⟨c, hc, rfl⟩ := Option.map_eq_some_iff.mp hb
    have hbounded := h.store hts hc
    exact ⟨hbounded.size, hbounded.value⟩
  · cases hb
    exact h

theorem Bounded.propose {g : Integrator} {diff : ℕ} {l l' : Locals} (h : Bounded n a)
    (hb : a.propose g diff l = some (b, l')) : Bounded n b := by
  unfold ConservativeSleepingTickAlgo.propose at hb
  dsimp only at hb
  split at hb
  · obtain ⟨c, hc, he⟩ := Option.map_eq_some_iff.mp hb
    obtain ⟨rfl, rfl⟩ := Prod.mk.inj he
    have h' : Bounded n { a with diff := diff } := ⟨h.size, h.value⟩
    exact h'.assign (Nat.zero_le _) hc
  · obtain ⟨rfl, rfl⟩ := Prod.mk.inj (Option.some.inj hb)
    exact ⟨h.size, h.value⟩

end ConservativeSleepingTickAlgo

end Fncs

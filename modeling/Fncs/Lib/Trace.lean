/-
Runs of a labelled system whose step is a partial function: `run step s ls`
is the state after the labels `ls`, when every step of it is possible. The
choices an environment makes are in the labels, so a run on given labels can
be computed.
-/
import Mathlib

universe u v w

namespace Trace

variable {σ : Type u} {ℓ : Type v} {ε : Type w} {step : σ → ℓ → Except ε σ}

/-- The state after `ls`. -/
def run (step : σ → ℓ → Except ε σ) (s : σ) : List ℓ → Except ε σ
  | [] => .ok s
  | l :: ls => (step s l).bind fun s' => run step s' ls

/-- Every step the run takes is taken in a state where `cond` holds of its label. -/
def Guarded (step : σ → ℓ → Except ε σ) (cond : σ → ℓ → Prop) (s : σ) : List ℓ → Prop
  | [] => True
  | l :: ls => ∀ s', step s l = .ok s' → cond s l ∧ Guarded step cond s' ls

/-- The conditions of a run can be tested along it. -/
instance decidableGuarded {cond : σ → ℓ → Prop} [∀ s l, Decidable (cond s l)] :
    (s : σ) → (ls : List ℓ) → Decidable (Guarded step cond s ls)
  | _, [] => isTrue trivial
  | s, l :: ls =>
    match hs : step s l with
    | .ok s' =>
      have : Decidable (Guarded step cond s' ls) := decidableGuarded s' ls
      decidable_of_iff (cond s l ∧ Guarded step cond s' ls)
        ⟨fun h _ he => Except.ok.inj (hs.symm.trans he) ▸ h, fun h => h s' hs⟩
    | .error _ => isTrue fun _ he => nomatch hs.symm.trans he

/-- `P` of every state the run passes, the first included. -/
def Always (step : σ → ℓ → Except ε σ) (P : σ → Prop) (s : σ) : List ℓ → Prop
  | [] => P s
  | l :: ls => P s ∧ ∀ s', step s l = .ok s' → Always step P s' ls

theorem bind_eq_ok {α β : Type*} {x : Except ε α} {f : α → Except ε β} {b : β} :
    x.bind f = .ok b ↔ ∃ a, x = .ok a ∧ f a = .ok b := by
  cases x <;> simp [Except.bind]

/-- What a successful sequence of two computations computed. -/
theorem seq_eq_ok {α β : Type u} {x : Except ε α} {f : α → Except ε β} {b : β} :
    (x >>= f) = .ok b ↔ ∃ a, x = .ok a ∧ f a = .ok b := bind_eq_ok

theorem run_cons {s s' : σ} {l : ℓ} {ls : List ℓ} :
    run step s (l :: ls) = .ok s' ↔ ∃ t, step s l = .ok t ∧ run step t ls = .ok s' := bind_eq_ok

theorem run_append {s s' : σ} {ls ls' : List ℓ} :
    run step s (ls ++ ls') = .ok s' ↔ ∃ t, run step s ls = .ok t ∧ run step t ls' = .ok s' := by
  induction ls generalizing s with
  | nil => simp [run]
  | cons l ls ih =>
    simp only [List.cons_append, run_cons, ih]
    exact ⟨fun ⟨t, h, r, hr, h'⟩ => ⟨r, ⟨t, h, hr⟩, h'⟩, fun ⟨r, ⟨t, h, hr⟩, h'⟩ => ⟨t, h, r, hr, h'⟩⟩

/-- The run ended in a state that passes the test. -/
def endsIn (p : σ → Bool) : Except ε σ → Bool
  | .ok s => p s
  | .error _ => false

/-- A computed run whose last state passes a test. -/
theorem exists_run_of_check (step : σ → ℓ → Except ε σ) (s : σ) (ls : List ℓ) (p : σ → Bool)
    (h : endsIn p (run step s ls) = true) : ∃ s', run step s ls = .ok s' ∧ p s' = true := by
  cases hr : run step s ls with
  | error e => rw [hr] at h; cases h
  | ok s' => rw [hr] at h; exact ⟨s', rfl, h⟩

/-- What every step keeps, every run keeps. -/
theorem run_invariant {I : σ → Prop} (hstep : ∀ s l s', I s → step s l = .ok s' → I s') {s s' : σ}
    {ls : List ℓ} (h : I s) (hr : run step s ls = .ok s') : I s' := by
  induction ls generalizing s with
  | nil => cases hr; exact h
  | cons l ls ih =>
    obtain ⟨t, ht, hr⟩ := run_cons.mp hr
    exact ih (hstep _ _ _ h ht) hr

/-- A run whose steps another system follows, each with an answer to its label, that system follows. -/
theorem run_simulates {σ' ℓ' ε' : Type*} {step' : σ' → ℓ' → Except ε' σ'} {R : σ → σ' → Prop} {f : ℓ → ℓ'}
    {cond : σ → ℓ → Prop}
    (hstep : ∀ s l s' t, R s t → cond s l → step s l = .ok s' → ∃ t', step' t (f l) = .ok t' ∧ R s' t')
    {s s' : σ} {t : σ'} {ls : List ℓ} (h : R s t) (hg : Guarded step cond s ls) (hr : run step s ls = .ok s') :
    ∃ t', run step' t (ls.map f) = .ok t' ∧ R s' t' := by
  induction ls generalizing s t with
  | nil =>
    cases hr
    exact ⟨t, rfl, h⟩
  | cons l ls ih =>
    obtain ⟨r, hs, hr⟩ := run_cons.mp hr
    obtain ⟨hl, hg⟩ := hg r hs
    obtain ⟨u, ht, hu⟩ := hstep s l r t h hl hs
    obtain ⟨t', hr', ht'⟩ := ih hu hg hr
    exact ⟨t', run_cons.mpr ⟨u, ht, hr'⟩, ht'⟩

/-- A run whose steps another system follows, each with labels that `A` allows for it, perhaps none: that system
follows the run. -/
theorem run_refines {σ' ℓ' ε' : Type*} {step' : σ' → ℓ' → Except ε' σ'} {R : σ → σ' → Prop} {A : ℓ → List ℓ' → Prop}
    {cond : σ → ℓ → Prop}
    (hstep : ∀ s l s' t, R s t → cond s l → step s l = .ok s' → ∃ ls t', A l ls ∧ run step' t ls = .ok t' ∧ R s' t')
    {s s' : σ} {t : σ'} {ls : List ℓ} (h : R s t) (hg : Guarded step cond s ls) (hr : run step s ls = .ok s') :
    ∃ lss t', List.Forall₂ A ls lss ∧ run step' t lss.flatten = .ok t' ∧ R s' t' := by
  induction ls generalizing s t with
  | nil =>
    cases hr
    exact ⟨[], t, .nil, rfl, h⟩
  | cons l ls ih =>
    obtain ⟨r, hs, hr⟩ := run_cons.mp hr
    obtain ⟨hl, hg⟩ := hg r hs
    obtain ⟨ls', u, hA, ht, hu⟩ := hstep s l r t h hl hs
    obtain ⟨lss, t', hAs, hr', ht'⟩ := ih hu hg hr
    exact ⟨ls' :: lss, t', .cons hA hAs, run_append.mpr ⟨u, ht, hr'⟩, ht'⟩

/-- What every step keeps and counts, every run keeps and counts. -/
theorem run_counted {I : ℕ → σ → Prop} (hstep : ∀ n s l s', I n s → step s l = .ok s' → I (n + 1) s') {n : ℕ}
    {s s' : σ} {ls : List ℓ} (h : I n s) (hr : run step s ls = .ok s') : I (n + ls.length) s' := by
  induction ls generalizing n s with
  | nil => cases hr; exact h
  | cons l ls ih =>
    obtain ⟨t, ht, hr⟩ := run_cons.mp hr
    have := ih (hstep _ _ _ _ h ht) hr
    rwa [Nat.add_right_comm, Nat.add_assoc] at this

/-- What every step that meets the condition keeps holds all along a run whose steps all meet it. -/
theorem always_of_guarded {cond : σ → ℓ → Prop} {I : σ → Prop}
    (hstep : ∀ s l s', I s → cond s l → step s l = .ok s' → I s') {s : σ} {ls : List ℓ} (h : I s)
    (hg : Guarded step cond s ls) : Always step I s ls := by
  induction ls generalizing s with
  | nil => exact h
  | cons l ls ih => exact ⟨h, fun s' hs => ih (hstep _ _ _ h (hg s' hs).1 hs) (hg s' hs).2⟩

/-- Where a step keeps `P` exactly when `cond` holds of it, a run keeps `P` all along exactly when
all its steps meet `cond`. `J` is what the steps keep in any case. -/
theorem always_iff_guarded {cond : σ → ℓ → Prop} {J P : σ → Prop}
    (hJ : ∀ s l s', J s → step s l = .ok s' → J s')
    (hP : ∀ s l s', J s → P s → step s l = .ok s' → (P s' ↔ cond s l)) {s : σ} {ls : List ℓ}
    (hj : J s) (hp : P s) : Always step P s ls ↔ Guarded step cond s ls := by
  induction ls generalizing s with
  | nil => exact ⟨fun _ => trivial, fun _ => hp⟩
  | cons l ls ih =>
    constructor
    · rintro ⟨-, h⟩ s' hs
      have hp' : P s' := by
        have := h s' hs
        cases ls with
        | nil => exact this
        | cons _ _ => exact this.1
      exact ⟨(hP _ _ _ hj hp hs).mp hp', (ih (hJ _ _ _ hj hs) hp').mp (h s' hs)⟩
    · intro h
      refine ⟨hp, fun s' hs => ?_⟩
      exact (ih (hJ _ _ _ hj hs) ((hP _ _ _ hj hp hs).mpr (h s' hs).1)).mpr (h s' hs).2

/-- Two conditions on steps hold all along the same runs when, of what the steps that meet them keep, they
agree on every step that meets `env`. -/
theorem guarded_congr_of {env cond cond' : σ → ℓ → Prop} {J : σ → Prop}
    (hJ : ∀ s l s', J s → env s l → cond' s l → step s l = .ok s' → J s')
    (hc : ∀ s l s', J s → env s l → step s l = .ok s' → (cond s l ↔ cond' s l)) {s : σ} {ls : List ℓ} (hj : J s)
    (he : Guarded step env s ls) : Guarded step cond s ls ↔ Guarded step cond' s ls := by
  induction ls generalizing s with
  | nil => exact Iff.rfl
  | cons l ls ih =>
    refine forall_congr' fun s' => forall_congr' fun hs => ?_
    obtain ⟨hl, he⟩ := he s' hs
    rw [hc _ _ _ hj hl hs]
    exact and_congr_right fun hl' => ih (hJ _ _ _ hj hl hl' hs) he

/-- As before, where every step that meets `env` keeps what the conditions agree for. -/
theorem guarded_congr {env cond cond' : σ → ℓ → Prop} {J : σ → Prop}
    (hJ : ∀ s l s', J s → env s l → step s l = .ok s' → J s')
    (hc : ∀ s l s', J s → env s l → step s l = .ok s' → (cond s l ↔ cond' s l)) {s : σ} {ls : List ℓ} (hj : J s)
    (he : Guarded step env s ls) : Guarded step cond s ls ↔ Guarded step cond' s ls :=
  guarded_congr_of (fun s l s' hj hl _ hs => hJ s l s' hj hl hs) hc hj he

/-- What the steps that meet `cond` keep may be used to show `cond'` of each of them. -/
theorem Guarded.imp {cond cond' : σ → ℓ → Prop} {J : σ → Prop}
    (hJ : ∀ s l s', J s → cond s l → step s l = .ok s' → J s')
    (hc : ∀ s l s', J s → cond s l → step s l = .ok s' → cond' s l) {s : σ} {ls : List ℓ} (hj : J s)
    (hg : Guarded step cond s ls) : Guarded step cond' s ls := by
  induction ls generalizing s with
  | nil => trivial
  | cons l ls ih =>
    intro s' hs
    obtain ⟨hl, hg⟩ := hg s' hs
    exact ⟨hc _ _ _ hj hl hs, ih (hJ _ _ _ hj hl hs) hg⟩

/-- The condition of a step the run takes. -/
theorem Guarded.of_run {cond : σ → ℓ → Prop} {s t t' : σ} {l : ℓ} {ls ls' : List ℓ}
    (h : Guarded step cond s (ls ++ l :: ls')) (hr : run step s ls = .ok t) (hs : step t l = .ok t') : cond t l := by
  induction ls generalizing s with
  | nil =>
    cases hr
    exact (h t' hs).1
  | cons m ls ih =>
    obtain ⟨u, hu, hr⟩ := run_cons.mp hr
    exact ih (h u hu).2 hr

/-- A condition on the labels alone. -/
theorem guarded_of_forall {cond : ℓ → Prop} {s : σ} {ls : List ℓ} (h : ∀ l ∈ ls, cond l) :
    Guarded step (fun _ => cond) s ls := by
  induction ls generalizing s with
  | nil => trivial
  | cons l ls ih =>
    intro s' _
    exact ⟨h l List.mem_cons_self, ih fun l' hl' => h l' (List.mem_cons_of_mem _ hl')⟩

theorem Always.imp {P Q : σ → Prop} (hpq : ∀ s, P s → Q s) {s : σ} {ls : List ℓ}
    (h : Always step P s ls) : Always step Q s ls := by
  induction ls generalizing s with
  | nil => exact hpq _ h
  | cons l ls ih => exact ⟨hpq _ h.1, fun s' hs => ih (h.2 s' hs)⟩

theorem Always.last {P : σ → Prop} {s s' : σ} {ls : List ℓ} (h : Always step P s ls)
    (hr : run step s ls = .ok s') : P s' := by
  induction ls generalizing s with
  | nil => cases hr; exact h
  | cons l ls ih =>
    obtain ⟨t, ht, hr⟩ := run_cons.mp hr
    exact ih (h.2 t ht) hr

/-! ## Runs with a record

The record is written from the labels and the states a run passes; it does not act on them.
-/

section Watch

variable {η : Type*} {note : η → σ → ℓ → η}

/-- The system together with a record of its steps. -/
def watch (step : σ → ℓ → Except ε σ) (note : η → σ → ℓ → η) (s : σ × η) (l : ℓ) : Except ε (σ × η) :=
  (step s.1 l).map fun s' => (s', note s.2 s.1 l)

theorem watch_ok {s s' : σ × η} {l : ℓ} :
    watch step note s l = .ok s' ↔ step s.1 l = .ok s'.1 ∧ s'.2 = note s.2 s.1 l := by
  obtain ⟨s', h'⟩ := s'
  unfold watch
  cases step s.1 l <;> simp [Except.map, eq_comm]

/-- A condition that does not look at the record. -/
theorem guarded_watch (note : η → σ → ℓ → η) (h : η) {cond : σ → ℓ → Prop} {s : σ} {ls : List ℓ} :
    Guarded (watch step note) (fun s => cond s.1) (s, h) ls ↔ Guarded step cond s ls := by
  induction ls generalizing s h with
  | nil => exact Iff.rfl
  | cons l ls ih =>
    constructor
    · intro hg s' hs
      obtain ⟨hl, hg⟩ := hg (s', note h s l) (watch_ok.mpr ⟨hs, rfl⟩)
      exact ⟨hl, (ih _).mp hg⟩
    · rintro hg ⟨s', h'⟩ hs
      obtain ⟨hl, hg⟩ := hg s' (watch_ok.mp hs).1
      exact ⟨hl, (ih _).mpr hg⟩

end Watch

/-! ## Products -/

section Product

variable {κ : Type*} [DecidableEq κ] {move : σ → ℓ → Except ε σ} {key : ℓ → κ} {cs cs' : κ → σ}

/-- One system for each key; a label moves the one it is for. -/
def product (move : σ → ℓ → Except ε σ) (key : ℓ → κ) (cs : κ → σ) (l : ℓ) : Except ε (κ → σ) :=
  (move (cs (key l)) l).map (Function.update cs (key l))

theorem product_ok {l : ℓ} : product move key cs l = .ok cs' ↔
    ∃ s, move (cs (key l)) l = .ok s ∧ cs' = Function.update cs (key l) s := by
  unfold product
  cases move (cs (key l)) l <;> simp [Except.map, eq_comm]

/-- A product runs exactly when each of its systems runs on the labels for it, whatever their order is between systems. -/
theorem run_product {ls : List ℓ} : run (product move key) cs ls = .ok cs' ↔
    ∀ k, run move (cs k) (ls.filter fun l => key l = k) = .ok (cs' k) := by
  induction ls generalizing cs with
  | nil => exact ⟨fun h k => by cases h; rfl, fun h => congrArg Except.ok (funext fun k => Except.ok.inj (h k))⟩
  | cons l ls ih =>
    have hown : (l :: ls).filter (fun m => key m = key l) = l :: ls.filter fun m => key m = key l := by simp
    constructor
    · intro h k
      obtain ⟨t, ht, h⟩ := run_cons.mp h
      obtain ⟨s, hs, rfl⟩ := product_ok.mp ht
      have hk := ih.mp h k
      by_cases hkl : k = key l
      · subst hkl
        rw [Function.update_self] at hk
        rw [hown]
        exact run_cons.mpr ⟨s, hs, hk⟩
      · rw [Function.update_of_ne hkl] at hk
        rwa [List.filter_cons_of_neg (by simpa using Ne.symm hkl)]
    · intro h
      have hl := h (key l)
      rw [hown] at hl
      obtain ⟨s, hs, hl⟩ := run_cons.mp hl
      refine run_cons.mpr ⟨_, product_ok.mpr ⟨s, hs, rfl⟩, ih.mpr fun k => ?_⟩
      by_cases hkl : k = key l
      · subst hkl
        rwa [Function.update_self]
      · have hk := h k
        rw [List.filter_cons_of_neg (by simpa using Ne.symm hkl)] at hk
        rwa [Function.update_of_ne hkl]

end Product

end Trace

/-
Speculation targets lie in the future. A simulator submits a target past its
current time as long as its look-ahead is positive; the look-ahead of the
increasing strategy is rewritten from the fail time a child has written, which
is still 0 when the speculation fails before the child has begun a time step.

Between two rounds all simulators of a context have been granted the same time,
`g`, and a call that waits in a collective stands at it (`Ahead`). Everybody's
target is past `g`, so is the one they agree on, and a child that succeeds there
has run past the time it was forked at.
-/
import Fncs.Optimistic.Speculation

namespace Fncs

/-- Framework times stay below. -/
def timeLimit : ℕ := 2 ^ 63

theorem timeLimit_lt : timeLimit + timeLimit ≤ ulongSize ∧ timeLimit < Infinity := by
  constructor <;> norm_num [timeLimit, Infinity, ulongSize]

namespace OptimisticTickSyncAlgo

variable (a : OptimisticTickSyncAlgo)

/-- What `timeStepStart` computes at `t` does not wrap. -/
def StartFits (t : TIME) : Prop :=
  match a.role with
  | .child (some _) => a.grantedTime ≤ t → a.st.SucceededFits t
  | _ => True

/-- What `childDied` computes does not wrap. -/
def FailFits : Prop :=
  match a.role with
  | .parent comm => a.st.FailedFits comm.failTime
  | _ => True

/-- The fail time is one. -/
def FailBelow : Prop :=
  match a.role with
  | .parent comm => comm.failTime < timeLimit
  | _ => True

/-- An increasing strategy would find a fail time past the time of the fork. -/
def FailLate : Prop :=
  match a.role with
  | .parent comm => a.st.kind = .increasing → a.st.speculationTime < comm.failTime
  | _ => True

instance (t : TIME) : Decidable (a.StartFits t) := by
  unfold StartFits
  split <;> infer_instance

instance : Decidable a.FailFits := by
  unfold FailFits
  split <;> infer_instance

instance : Decidable a.FailBelow := by
  unfold FailBelow
  split <;> infer_instance

instance : Decidable a.FailLate := by
  unfold FailLate
  split <;> infer_instance

variable {a} {b : OptimisticTickSyncAlgo} {t g minimum slot : TIME} {asChild : Bool} {ask : Ask}

theorem FailLate.fits (h : a.FailLate) : a.FailFits := by
  unfold FailLate at h
  unfold FailFits
  split
  · next comm hr =>
    simp only [hr] at h
    exact fun hk => (h hk).le
  · trivial

/-! ## Between two rounds -/

/-- The process has been granted `g` and has a look-ahead; a child was forked before `g`. -/
structure Ahead (g : TIME) (a : OptimisticTickSyncAlgo) : Prop where
  grantedTime : a.grantedTime = g
  specDiff_pos : 0 < a.st.specDiff
  child : ∀ comm, a.role = .child (some comm) → a.st.kind = .increasing →
    a.st.speculationTime < g ∧ a.st.specDiff < timeLimit ∧ g < timeLimit

/-- A process that takes part in a round is not a child: it has passed a barrier since its fork. -/
def Grown (a : OptimisticTickSyncAlgo) : Prop := ∀ comm, a.role ≠ .child comm

theorem Grown.of_alone (h : a.role = .alone) : a.Grown := by
  intro comm hc
  cases h.symm.trans hc

theorem Grown.of_parent {comm : ShmItems} (h : a.role = .parent comm) : a.Grown := by
  intro _ hc
  cases h.symm.trans hc

/-- A process that is not a child may be granted anything. -/
theorem Ahead.of_grown (hd : 0 < a.st.specDiff) (hr : a.Grown) : Ahead g { a with grantedTime := g } :=
  ⟨rfl, hd, fun _ he => absurd he (hr _)⟩

theorem Ahead.startFits (h : Ahead g a) (ht : t ≤ g) : a.StartFits t := by
  unfold StartFits
  split
  · next comm hr =>
    intro hle hk
    obtain ⟨h1, h2, h3⟩ := h.child _ hr hk
    obtain rfl : t = g := le_antisymm ht (h.grantedTime ▸ hle)
    have := timeLimit_lt.1
    exact ⟨h1.le, by lia⟩
  · trivial

theorem Ahead.timeStepStart (h : Ahead g a) (ht : t ≤ g) (hb : a.timeStepStart t = some b) : Ahead g b := by
  have hfits := h.startFits ht
  obtain ⟨comm, hr, -, rfl⟩ | ⟨comm, hr, hle, rfl⟩ | ⟨-, rfl⟩ := timeStepStart_cases hb
  · exact ⟨h.grantedTime, h.specDiff_pos, fun _ _ => h.child comm hr⟩
  · unfold StartFits at hfits
    simp only [hr] at hfits
    refine ⟨h.grantedTime, h.specDiff_pos.trans_le ?_, nofun⟩
    refine SpeculationTimeCalculationStrategy.le_speculationSuceeded (hfits hle) fun hk => ?_
    have := (h.child comm hr hk).2.2
    have := timeLimit_lt.1
    lia
  · exact h

/-- Past the barrier nobody is a child. -/
theorem grown_timeStepStart (ht : a.grantedTime ≤ t) (hb : a.timeStepStart t = some b) : b.Grown := by
  obtain ⟨comm, -, hlt, -⟩ | ⟨comm, -, -, rfl⟩ | ⟨hr, rfl⟩ := timeStepStart_cases hb
  · exact absurd ht (not_le.mpr hlt)
  · nofun
  · exact fun comm he => absurd ht (not_le.mpr (hr comm he).2)

theorem Ahead.forgetFailTime (h : Ahead g a) : Ahead g (a.forgetFailTime t) := by
  unfold OptimisticTickSyncAlgo.forgetFailTime
  split
  · exact ⟨h.grantedTime, h.specDiff_pos, h.child⟩
  · exact h

/-- The look-ahead that a failure leaves. -/
theorem specDiff_childDied (hd : 0 < a.st.specDiff) (hl : a.FailLate) (hb : a.FailBelow) :
    0 < a.childDied.st.specDiff := by
  cases hr : a.role with
  | parent comm =>
    simp only [FailLate, FailBelow, hr] at hl hb
    simp only [childDied, hr]
    have := timeLimit_lt.1
    exact SpeculationTimeCalculationStrategy.speculationFailed_pos hd hl (by lia)
  | alone => simpa only [childDied, hr] using hd
  | child comm => simpa only [childDied, hr] using hd

theorem st_doLimbo : a.doLimbo.st = a.st := by
  unfold doLimbo
  split
  · split
    · rfl
    · split <;> rfl
  · rfl

theorem st_doFailAll : a.doFailAll.st = a.st := by
  unfold doFailAll
  split <;> rfl

theorem Grown.childDied (h : a.Grown) : a.childDied.Grown := by
  unfold OptimisticTickSyncAlgo.childDied
  split
  · exact of_alone rfl
  · exact h

theorem Grown.doFailAll (h : a.Grown) : a.doFailAll.Grown := by
  unfold OptimisticTickSyncAlgo.doFailAll
  split
  · exact of_alone rfl
  · exact h

theorem Grown.doLimbo (h : a.Grown) : a.doLimbo.Grown := by
  unfold OptimisticTickSyncAlgo.doLimbo
  split
  · split
    · exact h
    · split
      · exact of_parent rfl
      · exact h
  · exact h

/-- What a round grants. -/
def grantOf (asChild : Bool) (minimum slot : TIME) (kind : Ask.Kind) : TIME :=
  if asChild = true ∧ Decision.ofSlot slot kind = .fork then slot else minimum

theorem fork_iff {kind : Ask.Kind} : Decision.ofSlot slot kind = .fork ↔ kind = .specTime ∧ slot ≠ 0 := by
  cases kind with
  | nothing => simp [Decision.ofSlot]
  | specTime => by_cases h : slot = 0 <;> simp [Decision.ofSlot, h]
  | action =>
    simp only [Decision.ofSlot, reduceCtorEq, false_and, iff_false]
    split
    · simp
    · split
      · simp
      · split <;> simp

/-- After the reduction of a round that everybody entered at `g` the process is
ahead at what the round grants. -/
structure Settled (g : TIME) (asChild : Bool) (minimum slot : TIME) (kind : Ask.Kind) (b : OptimisticTickSyncAlgo) :
    Prop where
  goesOn : Decision.ofSlot slot kind ≠ .die
  grantedTime : b.grantedTime = g
  minNextTime : b.minNextTime = grantOf asChild minimum slot kind
  grown : b.minNextTime = 0 → b.Grown
  specDiff_pos : 0 < b.st.specDiff
  ahead : Ahead b.minNextTime { b with grantedTime := b.minNextTime }

/-- A process that has not become a child. -/
theorem Settled.of_grown {kind : Ask.Kind} (hdie : Decision.ofSlot slot kind ≠ .die)
    (hfork : Decision.ofSlot slot kind = .fork → asChild = false) (hg : b.grantedTime = g)
    (hm : b.minNextTime = minimum) (hr : b.Grown) (hd : 0 < b.st.specDiff) :
    Settled g asChild minimum slot kind b where
  goesOn := hdie
  grantedTime := hg
  minNextTime := by
    rw [hm, grantOf, if_neg]
    rintro ⟨hc, hf⟩
    exact absurd (hfork hf) (by rw [hc]; decide)
  grown _ := hr
  specDiff_pos := hd
  ahead := .of_grown hd hr

theorem Ahead.settle (h : Ahead g a) (hr : a.Grown) (hk : ask.kind = .action ↔ a.hasChild = true)
    (hfail : Decision.ofSlot slot ask.kind = .killChild → a.FailLate ∧ a.FailBelow)
    (hfork : Decision.ofSlot slot ask.kind = .fork → a.st.kind = .increasing →
      g < slot ∧ slot < timeLimit ∧ a.st.specDiff < timeLimit)
    (hs : a.settle 0 asChild minimum slot g ask = some b) : Settled g asChild minimum slot ask.kind b := by
  obtain ⟨⟨c, r⟩, hc, he⟩ := Option.map_eq_some_iff.mp hs
  have hd := decision_receive (a := a) 0 minimum slot hk
  have hslot : ask.kind = .specTime → (a.receive 0 minimum slot ask).2 = slot := by
    cases ask <;> first | exact fun _ => rfl | nofun
  -- the reduction itself changes nothing that matters here
  obtain ⟨x, s, hx⟩ : ∃ x s, a.receive 0 minimum slot ask = (x, s) := ⟨_, _, rfl⟩
  have hxa : x.st = a.st ∧ x.role = a.role ∧ x.minNextTime = minimum ∧ x.grantedTime = g := by
    rw [← h.grantedTime, show x = (a.receive 0 minimum slot ask).1 by rw [hx]]
    cases ask <;> exact ⟨rfl, rfl, rfl, rfl⟩
  rw [hx] at hc hd hslot he
  obtain ⟨hst, hrole, hmin, hg⟩ := hxa
  have hu := untouched_testSpeculationState hc
  have hgc := hu.grantedTime.trans hg
  have hmc := hu.minNextTime.trans hmin
  have hxr : x.Grown := fun comm => hrole ▸ hr comm
  have hxd : 0 < x.st.specDiff := hst ▸ h.specDiff_pos
  have hlate : x.FailLate ↔ a.FailLate := by simp only [FailLate, hrole, hst]
  have hbelow : x.FailBelow ↔ a.FailBelow := by simp only [FailBelow, hrole]
  obtain ⟨hdx, rfl, rfl⟩ | ⟨hdx, rfl, rfl⟩ | ⟨hdx, rfl, rfl⟩ | ⟨hdx, hcx, rfl⟩ := testSpeculationState_cases hc
  · have hf := hd.symm.trans hdx
    cases asChild with
    | false =>
      obtain rfl : x.forked false g = b := by simpa using he
      exact .of_grown (by simp [hf]) (fun _ => rfl) hgc hmc nofun hxd
    | true =>
      obtain ⟨hkind, h0⟩ := fork_iff.mp hf
      obtain rfl := hslot hkind
      simp only [ite_true, if_pos (Nat.pos_of_ne_zero h0)] at he
      subst he
      refine ⟨by simp [hf], hgc, by simp [grantOf, hf], fun hz => absurd hz h0, hxd, rfl, hxd, fun _ _ hk => ?_⟩
      have hk : a.st.kind = .increasing := hst ▸ hk
      obtain ⟨h1, h2, h3⟩ := hfork hf hk
      exact ⟨h1, (hst ▸ h3 : x.st.specDiff < timeLimit), h2⟩
  · have hf := hd.symm.trans hdx
    obtain rfl : x.doFailAll = b := by simpa using he
    exact .of_grown (by simp [hf]) (by simp [hf]) hgc hmc hxr.doFailAll (by rw [st_doFailAll]; exact hxd)
  · have hf := hd.symm.trans hdx
    obtain rfl : x.childDied = b := by simpa using he
    obtain ⟨hl, hb⟩ := hfail hf
    exact .of_grown (by simp [hf]) (by simp [hf]) hgc hmc hxr.childDied
      (specDiff_childDied hxd (hlate.mpr hl) (hbelow.mpr hb))
  · have hf := hd.symm.trans hdx
    obtain rfl : c = b := by simpa using he
    refine .of_grown (by simp [hf]) (by simp [hf]) hgc hmc ?_ ?_
    · rcases hcx with rfl | rfl
      · exact hxr
      · exact hxr.doLimbo
    · rcases hcx with rfl | rfl
      · exact hxd
      · rw [st_doLimbo]
        exact hxd

/-- The look-ahead once the difference is known. -/
theorem specDiff_propose {diff : ℕ} {l : Locals} (hd : 0 < a.st.specDiff)
    (h : a.killsChild diff = true → a.FailLate ∧ a.FailBelow) : 0 < (a.propose diff l).1.st.specDiff := by
  unfold propose
  split
  · split <;> exact hd
  · unfold checkChild
    split
    · next hk => exact specDiff_childDied hd (h hk).1 (h hk).2
    · exact hd

theorem Grown.propose {diff : ℕ} {l : Locals} (h : a.Grown) : (a.propose diff l).1.Grown := by
  unfold OptimisticTickSyncAlgo.propose
  split
  · split <;> exact h
  · unfold checkChild
    split
    · exact h.childDied
    · exact h

/-- A process that may speculate is not touched by its proposal. -/
theorem propose_canSpeculate {diff : ℕ} {l : Locals} (h : (a.propose diff l).2.canSpeculate = true) :
    (a.propose diff l).1 = a := by
  unfold OptimisticTickSyncAlgo.propose at h ⊢
  split at h
  · next hd =>
    rw [if_pos hd]
    split at h
    · cases h
    · next hs => rw [if_neg hs]
  · cases h

theorem mySpecNextTime_of_ne {l : Locals} (h : a.mySpecNextTime l ≠ 0) :
    l.canSpeculate = true ∧ a.mySpecNextTime l = a.st.getNextSpecTime l.currentTime := by
  unfold mySpecNextTime at h ⊢
  split at h
  · next hc => exact ⟨hc.1, if_pos hc⟩
  · exact absurd rfl h

theorem ask_specTime {diff : ℕ} {m s : TIME} (h : (a.ask diff m s).kind = .specTime) :
    a.hasChild = false ∧ (a.ask diff m s).slot = s := by
  unfold OptimisticTickSyncAlgo.ask at h ⊢
  split at h
  · next hd =>
    cases hr : a.role with
    | parent comm => rw [hr] at h; cases h
    | alone => simp [hd, hasChild, hr, Ask.slot]
    | child comm => simp [hd, hasChild, hr, Ask.slot]
  · cases h

end OptimisticTickSyncAlgo

namespace Optimistic

open OptimisticTickSyncAlgo

/-- What a step of the context is to one simulator. -/
inductive Event
  | still
  | step (currentTime nextTime : TIME)
  | write (items : ShmItems)
  | message (sent : Bool)
  | sendReceive (diff : ℕ)
  | reduceMin (asChild : Bool) (minimum slot : TIME)

namespace Tick

def after (p : Tick) : Event → Option Tick
  | .still => some p
  | .step currentTime nextTime => step currentTime nextTime p
  | .write items => p.write items
  | .message sent => p.message sent
  | .sendReceive diff => sendReceive diff p
  | .reduceMin asChild minimum slot => reduceMin asChild minimum slot p

/-- The simulator's child is found to have failed. -/
def fails (p : Tick) : Event → Bool
  | .sendReceive diff => p.algo.killsChild diff
  | .reduceMin _ minimum slot => p.decision 0 minimum slot = some .killChild
  | _ => false

/-- The current time, if the simulator asks its strategy for a target. -/
def targetsFrom (p : Tick) (diff : ℕ) : Option TIME :=
  match p.loc with
  | .sendReceive l =>
    let (a, l) := p.algo.propose diff l
    if l.canSpeculate = true ∧ a.hasChild = false then some l.currentTime else none
  | _ => none

/-- A target that the simulator has submitted is past its current time. -/
def Submitted (p : Tick) : Prop :=
  match p.loc with
  | .minTime l ask =>
    p.algo.st.kind.bounded = true → ask.kind = .specTime → ask.slot ≠ 0 → l.currentTime < ask.slot
  | _ => True

instance : (p : Tick) → Decidable p.Submitted
  | ⟨_, .minTime _ _⟩ => inferInstanceAs (Decidable (_ → _ → _ → _))
  | ⟨_, .running⟩ | ⟨_, .sendReceive _⟩ | ⟨_, .halted⟩ => isTrue trivial

/-- Simulators run no further than they are granted, and times stay below the limit. -/
def Below (p : Tick) (e : Event) : Prop :=
  (p.fails e = true → p.algo.FailBelow) ∧
    match e with
    | .step currentTime _ => currentTime ≤ p.algo.grantedTime
    | .sendReceive diff => ∀ t ∈ p.targetsFrom diff,
        p.algo.st.kind.bounded = true → t + p.algo.st.specDiff < timeLimit
    | _ => True

/-- A speculation that fails has got past the time of the fork. -/
def Late (p : Tick) (e : Event) : Prop := p.fails e = true → p.algo.FailLate

/-- Nothing the strategy computes wraps, and a target that is submitted is past the current time. -/
def Sound (p : Tick) (e : Event) : Prop :=
  (p.fails e = true → p.algo.FailFits) ∧
    match e with
    | .step currentTime nextTime =>
      p.algo.StartFits currentTime ∧
        ∀ a ∈ p.algo.timeStepStart currentTime, currentTime < a.grantedTime → a.grantedTime < nextTime →
          (a.forgetFailTime a.grantedTime).StartFits a.grantedTime
    | .sendReceive diff => (∀ t ∈ p.targetsFrom diff, p.algo.st.TargetFits t) ∧ ∀ q ∈ sendReceive diff p, q.Submitted
    | .reduceMin asChild minimum slot =>
      match p.loc with
      | .minTime l ask => ∀ a ∈ p.algo.settle 0 asChild minimum slot l.currentTime ask,
          a.minNextTime ≠ 0 → a.minNextTime < l.myminNextTime →
            StartFits { a with grantedTime := a.minNextTime } a.minNextTime
      | _ => True
    | _ => True

instance (p : Tick) (e : Event) : Decidable (p.Below e) := by
  unfold Below
  cases e <;> infer_instance

instance (p : Tick) (e : Event) : Decidable (p.Late e) := inferInstanceAs (Decidable (_ → _))

instance : (p : Tick) → (e : Event) → Decidable (p.Sound e)
  | ⟨_, .minTime _ _⟩, .reduceMin _ _ _ => inferInstanceAs (Decidable (_ ∧ ∀ a ∈ _, _ → _ → StartFits _ _))
  | ⟨_, .running⟩, .reduceMin _ _ _ | ⟨_, .sendReceive _⟩, .reduceMin _ _ _ | ⟨_, .halted⟩, .reduceMin _ _ _ =>
    inferInstanceAs (Decidable (_ ∧ True))
  | _, .step _ _ => inferInstanceAs (Decidable (_ ∧ _ ∧ ∀ a ∈ _, _ → _ → StartFits _ _))
  | p, .sendReceive diff => inferInstanceAs (Decidable (_ ∧ (∀ t ∈ p.targetsFrom diff, _) ∧ ∀ q ∈ _, Submitted q))
  | _, .still | _, .write _ | _, .message _ => inferInstanceAs (Decidable (_ ∧ True))

/-! ## One simulator -/

/-- The simulator has been granted `g`; in a collective its call stands at `g`,
and the target it has submitted is past `g`. -/
structure AheadAt (g : TIME) (p : Tick) : Prop where
  ahead : Ahead g p.algo
  waiting : match p.loc with
    | .sendReceive l => l.currentTime = g ∧ p.algo.Grown
    | .minTime l ask => l.currentTime = g ∧ p.algo.Grown ∧ (ask.kind = .specTime → ask.slot ≠ 0 →
        if p.algo.st.kind.bounded then ask.slot = g + p.algo.st.specDiff ∧ ask.slot < timeLimit
        else ask.slot = Infinity)
    | _ => True

variable {p q : Tick} {g : TIME}

theorem AheadAt.start {integrator : Integrator} {strategy : SpeculationTimeCalculationStrategy}
    (h : 0 < strategy.specDiff) : AheadAt 0 (Process.start integrator strategy) :=
  ⟨⟨rfl, h, nofun⟩, trivial⟩

theorem AheadAt.step {t n : TIME} (h : AheadAt g p) (hb : p.Below (.step t n)) (hq : step t n p = some q) :
    AheadAt g q ∧ p.Sound (.step t n) := by
  have ht : t ≤ g := h.ahead.grantedTime ▸ hb.2
  constructor
  · obtain ⟨-, a, ha, hq⟩ := step_cases hq
    have hag := h.ahead.timeStepStart ht ha
    obtain ⟨-, rfl⟩ | ⟨-, b, hb, rfl⟩ := getNextTime_cases hq
    · exact ⟨hag, trivial⟩
    · have hcur : (a.enter t n).currentTime = g := by
        simp only [enter, hag.grantedTime]
        split
        · rfl
        · exact le_antisymm ht (by lia)
      unfold beginTurn at hb
      rw [hcur] at hb
      split at hb
      · exact ⟨(hag.forgetFailTime).timeStepStart le_rfl hb, hcur,
          grown_timeStepStart (hag.forgetFailTime (t := g)).grantedTime.le hb⟩
      · next hw =>
        cases hb
        refine ⟨hag.forgetFailTime, hcur, ?_⟩
        have hge : a.grantedTime ≤ t := not_lt.mp fun hlt => hw (by simp [enter, hlt])
        have hgrown := grown_timeStepStart ((untouched_timeStepStart ha).grantedTime ▸ hge) ha
        unfold OptimisticTickSyncAlgo.forgetFailTime
        split <;> exact hgrown
  · refine ⟨nofun, h.ahead.startFits ht, fun a ha _ _ => ?_⟩
    have hag := h.ahead.timeStepStart ht ha
    rw [hag.grantedTime]
    exact hag.forgetFailTime.startFits le_rfl

theorem AheadAt.write {items : ShmItems} (h : AheadAt g p) (hq : p.write items = some q) : AheadAt g q := by
  have hw := h.waiting
  have hc := h.ahead.child
  unfold Process.write at hq
  split at hq
  · cases hq
    refine ⟨⟨h.ahead.grantedTime, h.ahead.specDiff_pos, nofun⟩, ?_⟩
    dsimp only
    cases hl : p.loc with
    | sendReceive l => rw [hl] at hw; exact ⟨hw.1, nofun⟩
    | minTime l ask => rw [hl] at hw; exact ⟨hw.1, nofun, hw.2.2⟩
    | running | halted => trivial
  · next comm hr =>
    cases hq
    refine ⟨⟨h.ahead.grantedTime, h.ahead.specDiff_pos, fun _ _ => hc comm hr⟩, ?_⟩
    dsimp only
    cases hl : p.loc with
    | sendReceive l => rw [hl] at hw; exact absurd hr (hw.2 _)
    | minTime l ask => rw [hl] at hw; exact absurd hr (hw.2.1 _)
    | running | halted => trivial
  · cases hq

theorem AheadAt.message {sent : Bool} (h : AheadAt g p) (hq : p.message sent = some q) : AheadAt g q := by
  unfold Process.message at hq
  split at hq
  · next hl hr =>
    cases hq
    refine ⟨⟨h.ahead.grantedTime, h.ahead.specDiff_pos, nofun⟩, ?_⟩
    cases sent <;> trivial
  · cases hq
  · cases hq; exact h
  · cases hq

theorem AheadAt.submitted (h : AheadAt g p) : p.Submitted := by
  have hw := h.waiting
  unfold Submitted
  split
  · next l ask hl =>
    rw [hl] at hw
    intro hb hk h0
    have := hw.2.2 hk h0
    rw [if_pos hb] at this
    rw [hw.1, this.1]
    exact Nat.lt_add_of_pos_right h.ahead.specDiff_pos
  · trivial

theorem AheadAt.sendReceive {diff : ℕ} (h : AheadAt g p) (hb : p.Below (.sendReceive diff))
    (hl : p.Late (.sendReceive diff)) (hq : sendReceive diff p = some q) :
    AheadAt g q ∧ p.Sound (.sendReceive diff) := by
  have hq' : AheadAt g q := by
    obtain ⟨l, hloc, rfl⟩ := sendReceive_cases hq
    have hw := h.waiting
    rw [hloc] at hw
    obtain ⟨hcur, hgrown⟩ := hw
    have hlc : (p.algo.propose diff l).2.currentTime = g := locals_propose.2.1.trans hcur
    refine ⟨⟨untouched_propose.grantedTime.trans h.ahead.grantedTime,
      specDiff_propose h.ahead.specDiff_pos fun hk => ⟨hl hk, hb.1 hk⟩, fun comm hr => absurd hr (hgrown.propose _)⟩,
      hlc, hgrown.propose, fun hk h0 => ?_⟩
    obtain ⟨hchild, hslot⟩ := ask_specTime hk
    rw [hslot] at h0 ⊢
    obtain ⟨hcan, he⟩ := mySpecNextTime_of_ne h0
    have hbelow := hb.2 g (by simp [targetsFrom, hloc, hcan, hchild, hlc])
    rw [he, hlc]
    show if (p.algo.propose diff l).1.st.kind.bounded = true then
      _ = g + (p.algo.propose diff l).1.st.specDiff ∧ _ else _
    rw [propose_canSpeculate hcan]
    unfold SpeculationTimeCalculationStrategy.getNextSpecTime
    split
    · next hbd =>
      have hlt := hbelow hbd
      rw [addTime_of_lt (by have := timeLimit_lt.1; lia)]
      exact ⟨rfl, hlt⟩
    · rfl
  refine ⟨hq', fun hf => (hl hf).fits, fun t ht hk => ?_, fun r hr => ?_⟩
  · have := hb.2 t ht hk
    have := timeLimit_lt.1
    lia
  · obtain rfl := Option.some.inj (hq.symm.trans hr)
    exact hq'.submitted

/-- Anything but the end of a round leaves the granted time. -/
theorem AheadAt.after {e : Event} (h : AheadAt g p) (hb : p.Below e) (hl : p.Late e) (hq : p.after e = some q)
    (he : ∀ asChild minimum slot, e ≠ .reduceMin asChild minimum slot) : AheadAt g q ∧ p.Sound e := by
  cases e with
  | still => cases hq; exact ⟨h, nofun, trivial⟩
  | step t n => exact h.step hb hq
  | write items => exact ⟨h.write hq, nofun, trivial⟩
  | message sent => exact ⟨h.message hq, nofun, trivial⟩
  | sendReceive diff => exact h.sendReceive hb hl hq
  | reduceMin asChild minimum slot => exact absurd rfl (he _ _ _)

/-- The time everybody has been granted after the round. -/
def nextGrant (g : TIME) (asChild : Bool) (minimum slot : TIME) (kind : Ask.Kind) : TIME :=
  if Decision.ofSlot slot kind = .die ∨ grantOf asChild minimum slot kind = 0 then g
  else grantOf asChild minimum slot kind

theorem AheadAt.reduceMin {asChild : Bool} {minimum slot : TIME} {ask : Ask} (h : AheadAt g p) (ht : p.Telling)
    (hask : p.ask? = some ask) (hb : p.Below (.reduceMin asChild minimum slot))
    (hl : p.Late (.reduceMin asChild minimum slot))
    (hfork : Decision.ofSlot slot ask.kind = .fork → p.algo.st.kind = .increasing →
      g < slot ∧ slot < timeLimit ∧ p.algo.st.specDiff < timeLimit)
    (hq : reduceMin asChild minimum slot p = some q) :
    AheadAt (nextGrant g asChild minimum slot ask.kind) q ∧ p.Sound (.reduceMin asChild minimum slot) := by
  obtain ⟨l, ask', hloc, hq⟩ := reduceMin_cases hq
  obtain rfl : ask' = ask := by simpa [Process.ask?, hloc] using hask
  have hw := h.waiting
  rw [hloc] at hw
  obtain ⟨hcur, hgrown, -⟩ := hw
  have hk := ht ask' hask
  have hfails : Decision.ofSlot slot ask'.kind = .killChild → p.fails (.reduceMin asChild minimum slot) = true := by
    intro hd
    simp [fails, ht.decision, hask, hd]
  have settled : ∀ {a}, p.algo.settle 0 asChild minimum slot l.currentTime ask' = some a →
      Settled g asChild minimum slot ask'.kind a := by
    intro a hs
    rw [hcur] at hs
    exact h.ahead.settle hgrown hk (fun hd => ⟨hl (hfails hd), hb.1 (hfails hd)⟩) hfork hs
  refine ⟨?_, fun hf => (hl hf).fits, ?_⟩
  · rcases hq with ⟨hs, rfl⟩ | ⟨a, hs, hq⟩
    · rw [nextGrant, if_pos (.inl (hasChild_exited hk hs))]
      exact ⟨h.ahead, trivial⟩
    · have hset := settled hs
      rcases hq with ⟨h0, rfl⟩ | ⟨h0, -, b, hb, rfl⟩ | ⟨h0, -, rfl⟩
      · rw [nextGrant, if_pos (.inr (hset.minNextTime ▸ h0))]
        exact ⟨⟨hset.grantedTime, hset.specDiff_pos, fun comm hr => absurd hr (hset.grown h0 _)⟩, trivial⟩
      · rw [nextGrant, if_neg (not_or.mpr ⟨hset.goesOn, hset.minNextTime ▸ h0⟩), ← hset.minNextTime]
        replace hb : timeStepStart { a with grantedTime := a.minNextTime } a.minNextTime = some b := hb
        exact ⟨hset.ahead.timeStepStart le_rfl hb, rfl, grown_timeStepStart hset.ahead.grantedTime.le hb⟩
      · rw [nextGrant, if_neg (not_or.mpr ⟨hset.goesOn, hset.minNextTime ▸ h0⟩), ← hset.minNextTime]
        exact ⟨hset.ahead, trivial⟩
  · simp only [hloc]
    exact fun a hs _ _ => (settled hs).ahead.startFits le_rfl

end Tick

namespace Context

variable {ι : Type} [Fintype ι] [DecidableEq ι]

/-- What the step is to the simulator `i`. -/
def event (s : Context ι) (i : ι) : Label ι → Event
  | .step j currentTime nextTime => if j = i then .step currentTime nextTime else .still
  | .write j items => if j = i then .write items else .still
  | .message j sent => if j = i then .message sent else .still
  | .sendReceive diff => .sendReceive diff
  | .reduceMin asChild => .reduceMin asChild s.minimum s.slot
  | .netStep _ _ | .netWrite _ | .netMessage _ => .still

def Below (s : Context ι) (l : Label ι) : Prop := ∀ i, (s.ticks i).Below (s.event i l)

def Late (s : Context ι) (l : Label ι) : Prop := ∀ i, (s.ticks i).Late (s.event i l)

def Sound (s : Context ι) (l : Label ι) : Prop := ∀ i, (s.ticks i).Sound (s.event i l)

instance (s : Context ι) (l : Label ι) : Decidable (s.Below l) := inferInstanceAs (Decidable (∀ _, _))

instance (s : Context ι) (l : Label ι) : Decidable (s.Late l) := inferInstanceAs (Decidable (∀ _, _))

instance (s : Context ι) (l : Label ι) : Decidable (s.Sound l) := inferInstanceAs (Decidable (∀ _, _))

variable {s s' : Context ι}

/-- A step of the context moves each simulator by its event. -/
theorem after_event {l : Label ι} (hs : s.step l = .ok s') (i : ι) :
    (s.ticks i).after (s.event i l) = some (s'.ticks i) := by
  have hupdate : ∀ {j : ι} {q : Tick} {e : Event}, (s.ticks j).after e = some q →
      (s.ticks i).after (if j = i then e else .still) = some (Function.update s.ticks j q i) := by
    intro j q e hq
    by_cases hj : j = i
    · subst hj
      rw [if_pos rfl, Function.update_self, hq]
    · rw [if_neg hj, Function.update_of_ne (Ne.symm hj)]
      rfl
  cases l with
  | step j t n => obtain ⟨q, hq, rfl⟩ := moved_ok.mp hs; exact hupdate hq
  | write j items => obtain ⟨q, hq, rfl⟩ := moved_ok.mp hs; exact hupdate hq
  | message j sent => obtain ⟨q, hq, rfl⟩ := moved_ok.mp hs; exact hupdate hq
  | netStep t n => obtain ⟨q, hq, rfl⟩ := netMoved_ok.mp hs; rfl
  | netWrite items => obtain ⟨q, hq, rfl⟩ := netMoved_ok.mp hs; rfl
  | netMessage sent => obtain ⟨q, hq, rfl⟩ := netMoved_ok.mp hs; rfl
  | sendReceive diff => exact (allMoved_ok.mp hs).1 i
  | reduceMin asChild =>
    simp only [step] at hs
    split at hs
    · exact (allMoved_ok.mp hs).1 i
    · cases hs

/-- Between two steps: the simulators agree on who has a child and on what they
have been granted, and the net sim puts `Infinity` into the slot for a time. -/
structure Ready (g : TIME) (s : Context ι) : Prop where
  agreed : Agreed s
  netSim : ∀ ask ∈ s.netSim.ask?, ask.kind = .specTime → ask.slot = Infinity
  ticks : ∀ i, Tick.AheadAt g (s.ticks i)

omit [DecidableEq ι] in
/-- A target everybody agrees on is past the time granted, and no later than anybody's own. -/
theorem Ready.lt_slot {g : TIME} (h : Ready g s) {i : ι} {ask : Ask} (hi : (s.ticks i).ask? = some ask)
    (hk : ask.kind = .specTime) (h0 : s.slot ≠ 0) (hb : (s.ticks i).algo.st.kind.bounded = true) :
    g < s.slot ∧ s.slot < timeLimit ∧ (s.ticks i).algo.st.specDiff < timeLimit := by
  have hkind : s.netSim.ask?.map Ask.kind = some .specTime := by
    rw [← h.agreed.kinds i, hi, Option.map_some, hk]
  obtain ⟨netAsk, hnet, hnk⟩ := Option.map_eq_some_iff.mp hkind
  have asks : ∀ j, ∃ a, (s.ticks j).ask? = some a ∧ a.kind = .specTime := by
    intro j
    have := (h.agreed.kinds j).trans hkind
    obtain ⟨a, ha, hka⟩ := Option.map_eq_some_iff.mp this
    exact ⟨a, ha, hka⟩
  have hle : ∀ j a, (s.ticks j).ask? = some a → s.slot ≤ a.slot := by
    intro j a ha
    exact Finset.fold_min_le _ |>.mpr (.inr ⟨j, Finset.mem_univ j, by simp [ha]⟩)
  have targets : ∀ j a, (s.ticks j).ask? = some a → a.kind = .specTime →
      if (s.ticks j).algo.st.kind.bounded then a.slot = g + (s.ticks j).algo.st.specDiff ∧ a.slot < timeLimit
      else a.slot = Infinity := by
    intro j a ha hka
    have hw := (h.ticks j).waiting
    unfold Process.ask? at ha
    split at ha
    · next l b hl =>
      cases ha
      rw [hl] at hw
      refine hw.2.2 hka fun hz => h0 ?_
      exact Nat.le_zero.mp (hz ▸ hle j _ (by simp [Process.ask?, hl]))
    · cases ha
  have hown := targets i ask hi hk
  rw [if_pos hb] at hown
  have hs := hle i ask hi
  have hlimit := timeLimit_lt.2
  refine ⟨?_, hs.trans_lt hown.2, by lia⟩
  refine (Finset.lt_fold_min _).mpr ⟨?_, fun j _ => ?_⟩
  · rw [hnet, Option.map_some, Option.getD_some, h.netSim netAsk hnet hnk]
    lia
  · obtain ⟨a, ha, hka⟩ := asks j
    have := targets j a ha hka
    rw [ha, Option.map_some, Option.getD_some]
    have hpos := (h.ticks j).ahead.specDiff_pos
    split at this
    · lia
    · lia

theorem netSim_ask {p q : NetSim} {diff : ℕ} (hq : NetSim.sendReceive diff p = some q) :
    ∀ ask ∈ q.ask?, ask.kind = .specTime → ask.slot = Infinity := by
  unfold NetSim.sendReceive at hq
  split at hq
  · cases hq
    intro ask ha hk
    cases ha
    exact (ask_specTime hk).2
  · cases hq

/-- The net sim goes on putting `Infinity` into the slot. -/
theorem Agreed.netSim_step (h : Agreed s) (hn : ∀ ask ∈ s.netSim.ask?, ask.kind = .specTime → ask.slot = Infinity)
    {l : Label ι} (hs : s.step l = .ok s') : ∀ ask ∈ s'.netSim.ask?, ask.kind = .specTime → ask.slot = Infinity := by
  have still : ∀ {q : NetSim}, s.netSim.Still q → ∀ ask ∈ q.ask?, ask.kind = .specTime → ask.slot = Infinity :=
    fun hq ask ha => hn ask (hq.ask ▸ ha)
  cases l with
  | step j t n => obtain ⟨q, -, rfl⟩ := moved_ok.mp hs; exact hn
  | write j items => obtain ⟨q, -, rfl⟩ := moved_ok.mp hs; exact hn
  | message j sent => obtain ⟨q, -, rfl⟩ := moved_ok.mp hs; exact hn
  | netStep t n => obtain ⟨q, hq, rfl⟩ := netMoved_ok.mp hs; exact still (NetSim.still_step hq)
  | netWrite items => obtain ⟨q, hq, rfl⟩ := netMoved_ok.mp hs; exact still (Process.still_write hq)
  | netMessage sent => obtain ⟨q, hq, rfl⟩ := netMoved_ok.mp hs; exact still (Process.still_message hq)
  | sendReceive diff => exact netSim_ask (allMoved_ok.mp hs).2
  | reduceMin asChild =>
    obtain ⟨-, -, -, hreduce⟩ := h.answered_ask hs
    intro ask ha
    rw [(NetSim.answered_reduceMin h.telling hreduce).ask] at ha
    cases ha

/-- One step of a run in which times stay below the limit and speculations fail late. -/
theorem Ready.step {g : TIME} (h : Ready g s) {l : Label ι} (hb : s.Below l) (hl : s.Late l)
    (hs : s.step l = .ok s') : (∃ g', Ready g' s') ∧ s.Sound l := by
  have hagreed := h.agreed.step hs
  have hnetSim := h.agreed.netSim_step h.netSim hs
  by_cases hlabel : ∃ asChild, l = .reduceMin asChild
  · obtain ⟨asChild, rfl⟩ := hlabel
    obtain ⟨netAsk, hnet, ht, -⟩ := h.agreed.answered_ask hs
    have asks : ∀ i, ∃ ask, (s.ticks i).ask? = some ask ∧ ask.kind = netAsk.kind := by
      intro i
      have hk := h.agreed.kinds i
      rw [hnet, Option.map_some] at hk
      exact Option.map_eq_some_iff.mp hk
    have hticks : ∀ i, Tick.AheadAt (Tick.nextGrant g asChild s.minimum s.slot netAsk.kind) (s'.ticks i) ∧
        (s.ticks i).Sound (.reduceMin asChild s.minimum s.slot) := by
      intro i
      obtain ⟨ask, hask, hk⟩ := asks i
      rw [← hk]
      refine (h.ticks i).reduceMin (h.agreed.tick_telling i) hask (hb i) (hl i) (fun hf hinc => ?_) (ht i)
      obtain ⟨hspec, h0⟩ := fork_iff.mp hf
      exact h.lt_slot hask hspec h0 (by rw [hinc]; rfl)
    exact ⟨⟨_, hagreed, hnetSim, fun i => (hticks i).1⟩, fun i => (hticks i).2⟩
  · have hne : ∀ asChild, l ≠ .reduceMin asChild := fun asChild he => hlabel ⟨asChild, he⟩
    have hticks : ∀ i, Tick.AheadAt g (s'.ticks i) ∧ (s.ticks i).Sound (s.event i l) := by
      intro i
      refine (h.ticks i).after (hb i) (hl i) (after_event hs i) fun asChild minimum slot he => ?_
      cases l with
      | reduceMin asChild => exact hne _ rfl
      | step j t n => simp only [event] at he; split at he <;> cases he
      | write j items => simp only [event] at he; split at he <;> cases he
      | message j sent => simp only [event] at he; split at he <;> cases he
      | _ => cases he
    exact ⟨⟨g, hagreed, hnetSim, fun i => (hticks i).1⟩, fun i => (hticks i).2⟩

/-- In a run of a context whose strategies start with a positive look-ahead,
every target a constant or increasing strategy submits is past the current
time, and no sum or difference it computes wraps, as long as framework times
stay below the limit and every speculation of an increasing strategy that fails
has got past the time it was forked at. -/
theorem targets_ahead {ticks : ι → Integrator × SpeculationTimeCalculationStrategy}
    {netSim : Integrator × SpeculationTimeCalculationStrategy} (hd : ∀ i, 0 < (ticks i).2.specDiff) {ls : List (Label ι)}
    (hb : Trace.Guarded step (fun s l => Below s l ∧ Late s l) (start ticks netSim) ls) :
    Trace.Guarded step Sound (start ticks netSim) ls := by
  refine hb.imp (J := fun s => ∃ g, Ready g s) (fun s l s' h hc hs => ?_) (fun s l s' h hc hs => ?_) ?_
  · obtain ⟨g, h⟩ := h
    exact (h.step hc.1 hc.2 hs).1
  · obtain ⟨g, h⟩ := h
    exact (h.step hc.1 hc.2 hs).2
  · exact ⟨0, .start, nofun, fun i => .start (hd i)⟩

/-- Both children have got past the fork at 0 when the first of them fails. -/
theorem targets_ahead_failed : Trace.Guarded step Sound (start (fun _ : Fin 2 => nanoseconds) nanoseconds)
    (forkLabels 0 1 ++ [.write 0 ⟨5, ACTION_FAILED⟩, .write 1 ⟨4, ACTION_UNDEFINED⟩, .step 0 20 40, .netStep 20 20,
      .sendReceive 0, .reduceMin false]) :=
  targets_ahead (by decide +kernel) (by decide +kernel)

/-- A child forked at 0 has not begun a time step when a message kills it: the
look-ahead is 0, and at 6 the simulator submits the target 6. -/
theorem target_not_ahead : ¬ ∀ (ticks : Fin 1 → Integrator × SpeculationTimeCalculationStrategy)
    (netSim : Integrator × SpeculationTimeCalculationStrategy) (ls : List (Label (Fin 1))),
    (∀ i, 0 < (ticks i).2.specDiff) → Trace.Guarded step Below (start ticks netSim) ls →
      Trace.Guarded step Sound (start ticks netSim) ls := fun h =>
  absurd (h (fun _ => nanoseconds) nanoseconds [.step 0 0 5, .netStep 0 1, .sendReceive 0, .reduceMin false,
    .step 0 5 20, .netStep 5 5, .sendReceive 1, .reduceMin false, .step 0 6 20, .netStep 6 6, .sendReceive 0]
    (by decide +kernel) (by decide +kernel)) (by decide +kernel)

end Context

end Optimistic

end Fncs

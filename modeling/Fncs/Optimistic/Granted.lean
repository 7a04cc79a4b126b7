/-
What one optimistic simulator is granted, against any environment: the
differences, what the others bring to a reduction, and what its child writes are
all chosen by the labels of a run. At a fork the run follows the parent.

While a call has not had to respond, it proposes its `nextTime` or more, which
is past the granted time. A call that has to respond proposes a step past the
time the caller stands at. That time can lag behind the granted time, when a
failed speculation has granted a window ahead; the first such round of a call
then takes the window back.
-/
import Fncs.Optimistic.Speculation

namespace Fncs.Optimistic

open OptimisticTickSyncAlgo

namespace Tick

inductive Label
  | getNextTime (currentTime nextTime : TIME)
  | write (items : ShmItems)
  | sendReceive (diff : ℕ)
  /-- The least proposal of the others, and the least of what they put into the slot. -/
  | reduceMin (others othersSlot : TIME)
  deriving DecidableEq, Repr

/-- The process after what the label says, if that can happen. -/
def next (p : Tick) : Label → Option Tick
  | .getNextTime currentTime nextTime =>
    match p.loc with
    | .running => getNextTime currentTime nextTime p.algo
    | _ => none
  | .write items => p.write items
  | .sendReceive diff => sendReceive diff p
  | .reduceMin others othersSlot =>
    p.ask?.bind fun ask => reduceMin false (min ask.time others) (min ask.slot othersSlot) p

def advance (p : Tick) (l : Label) : Except Break Tick :=
  match p.next l with
  | some q => .ok q
  | none => .error .notAllowed

/-- A call asks for more than its current time, and in a reduction the others bring no less than is granted. -/
def Allowed (p : Tick) : Label → Prop
  | .getNextTime currentTime nextTime => currentTime < nextTime
  | .reduceMin others _ => p.algo.grantedTime ≤ others
  | _ => True

/-- The step does not take a granted time back. -/
def Forward (p : Tick) (l : Label) : Prop := ∀ q, p.advance l = .ok q → p.algo.grantedTime ≤ q.algo.grantedTime

/-! ## What a call is given -/

/-- What the call under way has been given: in its first turn by its caller, and then
by what the others last brought to a reduction. -/
structure Given where
  /-- What was granted at the call; then what the others brought. -/
  granted : TIME
  /-- The current time the call was made at; then what the others brought, in the simulator's unit. -/
  standsAt : TIME
  /-- A difference was not 0. -/
  differed : Bool
  deriving DecidableEq, Repr

def Given.init : Given := ⟨0, 0, false⟩

def Given.after (given : Given) (p : Tick) : Label → Given
  | .getNextTime currentTime _ => ⟨p.algo.grantedTime, currentTime, false⟩
  | .write _ => given
  | .sendReceive diff => { given with differed := given.differed || decide (diff ≠ 0) }
  | .reduceMin others _ => { given with granted := others, standsAt := p.algo.integrator.realign others }

/-- A run together with what its calls are given. -/
def watched (s : Tick × Given) (l : Label) : Except Break (Tick × Given) := Trace.watch advance Given.after s l

/-- Where a call was given a difference, a step past the time it was given reaches
what was granted (or is 0 in 64 bits, and the simulation ends). -/
def StepReaches (s : Tick × Given) : Label → Prop
  | .reduceMin _ _ => s.2.differed = true →
      s.2.granted ≤ addTime s.2.standsAt s.1.algo.integrator.onetimestep ∨
        addTime s.2.standsAt s.1.algo.integrator.onetimestep = 0
  | _ => True

instance (p : Tick) : (l : Label) → Decidable (p.Allowed l)
  | .getNextTime t n => inferInstanceAs (Decidable (t < n))
  | .reduceMin others _ => inferInstanceAs (Decidable (p.algo.grantedTime ≤ others))
  | .write _ | .sendReceive _ => isTrue trivial

instance (p : Tick) (l : Label) : Decidable (p.Forward l) :=
  match hp : p.advance l with
  | .ok q => decidable_of_iff (p.algo.grantedTime ≤ q.algo.grantedTime)
      ⟨fun h _ hq => Except.ok.inj (hp.symm.trans hq) ▸ h, fun h => h q hp⟩
  | .error _ => isTrue fun _ hq => nomatch hp.symm.trans hq

instance (s : Tick × Given) : (l : Label) → Decidable (StepReaches s l)
  | .reduceMin _ _ => inferInstanceAs (Decidable (_ → _))
  | .getNextTime _ _ | .write _ | .sendReceive _ => isTrue trivial

variable {p q : Tick} {l : Label}

theorem advance_ok : p.advance l = .ok q ↔ p.next l = some q := by
  unfold advance
  cases p.next l <;> simp

/-! ## A call under way -/

/-- A call that has had to respond has no child left. -/
structure Responding (a : OptimisticTickSyncAlgo) (l : Locals) : Prop where
  unlatched : l.needToRespond = false → a.grantedTime < l.nextTime
  latched : l.needToRespond = true → a.hasChild = false

/-- The proposal of such a call. -/
structure Proposed (a : OptimisticTickSyncAlgo) (l : Locals) (ask : Ask) : Prop where
  time : ask.time = l.nextEstTime
  myminNextTime_le : l.myminNextTime ≤ l.nextEstTime
  unlatched : l.needToRespond = false →
    a.grantedTime < l.nextTime ∧ l.nextTime ≤ l.nextEstTime ∧ l.myminNextTime = l.nextTime
  latched : l.needToRespond = true → a.hasChild = false ∧ ask.kind ≠ .action ∧ (ask.kind = .specTime → ask.slot = 0) ∧
    l.nextEstTime = addTime l.currentTimeParam a.integrator.onetimestep

/-- What holds of a process wherever it is. -/
def UnderWay (p : Tick) : Prop :=
  match p.loc with
  | .sendReceive l => Responding p.algo l
  | .minTime l ask => Proposed p.algo l ask
  | _ => True

theorem time_ask {a : OptimisticTickSyncAlgo} {diff : ℕ} {m t : TIME} : (a.ask diff m t).time = m := by
  unfold ask
  split
  · split <;> rfl
  · rfl

/-- A call that is not to speculate puts no time into the slot. -/
theorem slot_ask {a : OptimisticTickSyncAlgo} {diff : ℕ} {m : TIME} (h : (a.ask diff m 0).kind = .specTime) :
    (a.ask diff m 0).slot = 0 := by
  unfold ask at h ⊢
  split at h
  · split at h
    · cases h
    · next hd _ _ => simp [hd, Ask.slot]
  · cases h

/-- The proposal, from what held before the difference was known. -/
theorem Responding.propose {a : OptimisticTickSyncAlgo} {l : Locals} {diff : ℕ} (h : Responding a l) :
    Proposed { (a.propose diff l).1 with minNextTime := (a.propose diff l).2.nextEstTime } (a.propose diff l).2
      ((a.propose diff l).1.ask diff (a.propose diff l).2.nextEstTime
        ((a.propose diff l).1.mySpecNextTime (a.propose diff l).2)) := by
  refine ⟨time_ask, ?_, fun hn => ?_, fun hn => ?_⟩
  · unfold OptimisticTickSyncAlgo.propose
    split
    · split
      · next hs => exact hs.2.le
      · exact le_rfl
    · exact le_rfl
  · have hg : (a.propose diff l).1.grantedTime = a.grantedTime := untouched_propose.grantedTime
    show (a.propose diff l).1.grantedTime < _ ∧ _
    rw [hg]
    unfold OptimisticTickSyncAlgo.propose at hn ⊢
    split at hn
    · next hd =>
      rw [if_pos hd]
      have hlt := h.unlatched hd.2
      split
      · next hs => exact ⟨hlt, hs.2.le, rfl⟩
      · exact ⟨hlt, le_rfl, rfl⟩
    · cases hn
  · have hlate : ¬ (diff = 0 ∧ l.needToRespond = false) := by
      intro hd
      unfold OptimisticTickSyncAlgo.propose at hn
      rw [if_pos hd] at hn
      split at hn <;> exact absurd (hd.2.symm.trans hn) (by decide)
    have hspec : (a.propose diff l).1.mySpecNextTime (a.propose diff l).2 = 0 := by
      unfold OptimisticTickSyncAlgo.propose mySpecNextTime
      simp [hlate]
    have hchild : (a.propose diff l).1.hasChild = false := by
      rw [hasChild_propose]
      cases hr : l.needToRespond with
      | true => rw [h.latched hr, Bool.false_and]
      | false =>
        have : 0 < diff := Nat.pos_of_ne_zero fun h0 => hlate ⟨h0, hr⟩
        rw [killsChild, decide_eq_true this, Bool.true_and, Bool.and_not_self]
    rw [hspec]
    refine ⟨hchild, ?_, slot_ask, ?_⟩
    · rw [kind_ask, hchild]
      split <;> simp
    · show _ = addTime _ (a.propose diff l).1.integrator.onetimestep
      rw [untouched_propose.integrator]
      unfold OptimisticTickSyncAlgo.propose
      rw [if_neg hlate]

/-- A call that has to respond neither forks nor exits. -/
theorem Proposed.keepGoing {a : OptimisticTickSyncAlgo} {l : Locals} {ask : Ask} (h : Proposed a l ask)
    (hn : l.needToRespond = true) (othersSlot : TIME) :
    Decision.ofSlot (min ask.slot othersSlot) ask.kind = .keepGoing := by
  obtain ⟨-, hk, hs, -⟩ := h.latched hn
  cases hkind : ask.kind with
  | nothing => rfl
  | specTime => simp [Decision.ofSlot, hs hkind]
  | action => exact absurd hkind hk

theorem Proposed.telling {a : OptimisticTickSyncAlgo} {l : Locals} {ask : Ask} (h : Proposed a l ask)
    (hn : l.needToRespond = true) : ask.kind = .action ↔ a.hasChild = true := by
  obtain ⟨hc, hk, -⟩ := h.latched hn
  simp [hc, hk]

/-- The end of a turn: what was granted still is, and the process goes on from the least proposal. -/
theorem next_reduceMin {others othersSlot : TIME} (h : p.UnderWay) (hq : p.next (.reduceMin others othersSlot) = some q) :
    ∃ l ask, p.loc = .minTime l ask ∧ Proposed p.algo l ask ∧
      ((p.algo.settle 0 false (min ask.time others) (min ask.slot othersSlot) l.currentTime ask = none ∧
          q = { p with loc := .halted }) ∨
        ∃ a, p.algo.settle 0 false (min ask.time others) (min ask.slot othersSlot) l.currentTime ask = some a ∧
          a.grantedTime = p.algo.grantedTime ∧ a.minNextTime = min ask.time others ∧
          a.integrator = p.algo.integrator ∧
          ((a.minNextTime = 0 ∧ q = ⟨{ a with finished := true }, .running⟩) ∨
            (a.minNextTime ≠ 0 ∧ a.minNextTime < l.myminNextTime ∧ ∃ b,
              OptimisticTickSyncAlgo.beginTurn { a with grantedTime := a.minNextTime }
                (l.waiting a.integrator a.minNextTime) = some b ∧
              q = ⟨b, .sendReceive (l.waiting a.integrator a.minNextTime)⟩) ∨
            (a.minNextTime ≠ 0 ∧ l.myminNextTime ≤ a.minNextTime ∧
              q = ⟨{ a with grantedTime := a.minNextTime }, .running⟩))) := by
  obtain ⟨ask, ha, hq⟩ := Option.bind_eq_some_iff.mp hq
  obtain ⟨l, ask', hl, hq⟩ := reduceMin_cases hq
  obtain rfl : ask' = ask := by simpa [Process.ask?, hl] using ha
  unfold UnderWay at h
  rw [hl] at h
  refine ⟨l, ask', hl, h, ?_⟩
  rcases hq with hq | ⟨a, hs, hq⟩
  · exact .inl hq
  · obtain ⟨hg, hm, hi⟩ := settle_parent hs
    exact .inr ⟨a, hs, hg, hm, hi, hq⟩

theorem underWay_next (h : p.UnderWay) (hq : p.next l = some q) : q.UnderWay := by
  cases l with
  | getNextTime t n =>
    simp only [next] at hq
    split at hq
    · obtain ⟨-, rfl⟩ | ⟨hn, b, hb, rfl⟩ := getNextTime_cases hq
      · trivial
      · have hg := (untouched_forgetFailTime.trans (untouched_beginTurn hb)).grantedTime
        exact ⟨fun _ => by rw [hg]; exact hn, nofun⟩
    · cases hq
  | write items =>
    have hc := (Process.still_write hq).hasChild
    obtain ⟨hl, hu⟩ := Process.write_cases hq
    unfold UnderWay at h ⊢
    rw [hl]
    split
    · next l hl =>
      simp only [hl] at h
      exact ⟨fun hn => by rw [hu.grantedTime]; exact h.unlatched hn, fun hn => hc.trans (h.latched hn)⟩
    · next l ask hl =>
      simp only [hl] at h
      refine ⟨h.time, h.myminNextTime_le, fun hn => by rw [hu.grantedTime]; exact h.unlatched hn, fun hn => ?_⟩
      rw [hc, hu.integrator]
      exact h.latched hn
    · trivial
  | sendReceive diff =>
    obtain ⟨l, hl, rfl⟩ := sendReceive_cases hq
    unfold UnderWay at h
    simp only [hl] at h
    exact h.propose
  | reduceMin others othersSlot =>
    obtain ⟨l, ask, hl, h, hq⟩ := next_reduceMin h hq
    rcases hq with ⟨-, rfl⟩ | ⟨a, hs, -, -, -, ⟨-, rfl⟩ | ⟨-, hlt, b, hb, rfl⟩ | ⟨-, -, rfl⟩⟩
    · trivial
    · trivial
    · have hu := untouched_beginTurn hb
      refine ⟨fun hn => ?_, fun hn => ?_⟩
      · rw [hu.grantedTime]
        exact ((h.unlatched hn).2.2 ▸ hlt : a.minNextTime < l.nextTime)
      · rw [hasChild_beginTurn hb]
        show a.hasChild = false
        rw [hasChild_settle (h.telling hn) hs, h.keepGoing hn]
        exact (h.latched hn).1
    · trivial

/-- What a reduction leaves granted: the least proposal, unless the simulation ends or the process exits. -/
theorem grantedTime_next {others othersSlot : TIME} (h : p.UnderWay)
    (hq : p.next (.reduceMin others othersSlot) = some q) :
    ∃ l ask, p.loc = .minTime l ask ∧ Proposed p.algo l ask ∧
      (q.algo.grantedTime = p.algo.grantedTime ∧ (min ask.time others = 0 ∨ l.needToRespond = false) ∨
        q.algo.grantedTime = min ask.time others ∧ min ask.time others ≠ 0) := by
  obtain ⟨l, ask, hl, h, hq⟩ := next_reduceMin h hq
  refine ⟨l, ask, hl, h, ?_⟩
  rcases hq with ⟨hs, rfl⟩ | ⟨a, hs, hg, hm, -, hq⟩
  · refine .inl ⟨rfl, .inr ?_⟩
    by_contra hn
    have hn := eq_true_of_ne_false hn
    have := hasChild_exited (h.telling hn) hs
    rw [h.keepGoing hn] at this
    cases this
  · rcases hq with ⟨h0, rfl⟩ | ⟨h0, -, b, hb, rfl⟩ | ⟨h0, -, rfl⟩
    · exact .inl ⟨hg, .inl (hm ▸ h0)⟩
    · exact .inr ⟨(untouched_beginTurn hb).grantedTime.trans hm, hm ▸ h0⟩
    · exact .inr ⟨hm, hm ▸ h0⟩

/-- What was granted, the time a call counts its step from, and whether it responds are as it was given. -/
structure Given.Of (given : Given) (a : OptimisticTickSyncAlgo) (l : Locals) : Prop where
  granted : a.grantedTime = given.granted
  standsAt : l.currentTimeParam = given.standsAt
  differed : l.needToRespond = given.differed

def Matches (given : Given) (p : Tick) : Prop :=
  match p.loc with
  | .sendReceive l | .minTime l _ => given.Of p.algo l
  | _ => True

/-- A minimum below the call's own proposal is what the others brought. -/
theorem Proposed.others_eq {a : OptimisticTickSyncAlgo} {l : Locals} {ask : Ask} {others : TIME} (h : Proposed a l ask)
    (hlt : min ask.time others < l.myminNextTime) : min ask.time others = others := by
  rw [h.time] at hlt ⊢
  rcases min_lt_iff.mp hlt with hlt | hlt
  · exact absurd hlt (not_lt.mpr h.myminNextTime_le)
  · exact min_eq_right (hlt.le.trans h.myminNextTime_le)

theorem matches_next {given : Given} (h : p.UnderWay) (hm : p.Matches given) (hq : p.next l = some q) :
    q.Matches (given.after p l) := by
  cases l with
  | getNextTime t n =>
    simp only [next] at hq
    split at hq
    · obtain ⟨-, rfl⟩ | ⟨-, b, hb, rfl⟩ := getNextTime_cases hq
      · trivial
      · exact ⟨(untouched_forgetFailTime.trans (untouched_beginTurn hb)).grantedTime, rfl, rfl⟩
    · cases hq
  | write items =>
    obtain ⟨hl, hu⟩ := Process.write_cases hq
    unfold Matches at hm ⊢
    rw [hl]
    cases hp : p.loc <;> rw [hp] at hm <;>
      first | exact ⟨hu.grantedTime.trans hm.granted, hm.standsAt, hm.differed⟩ | trivial
  | sendReceive diff =>
    obtain ⟨l, hl, rfl⟩ := sendReceive_cases hq
    unfold Matches at hm
    simp only [hl] at hm
    exact ⟨untouched_propose.grantedTime.trans hm.granted, locals_propose.1.trans hm.standsAt,
      needToRespond_propose.trans (hm.differed ▸ rfl)⟩
  | reduceMin others othersSlot =>
    obtain ⟨l, ask, hl, h, hq⟩ := next_reduceMin h hq
    unfold Matches at hm
    simp only [hl] at hm
    rcases hq with ⟨-, rfl⟩ | ⟨a, -, -, hmin, hi, ⟨-, rfl⟩ | ⟨-, hlt, b, hb, rfl⟩ | ⟨-, -, rfl⟩⟩
    · trivial
    · trivial
    · have ho : a.minNextTime = others := hmin.trans (h.others_eq (hmin ▸ hlt))
      refine ⟨(untouched_beginTurn hb).grantedTime.trans ho, ?_, hm.differed⟩
      show a.integrator.realign a.minNextTime = p.algo.integrator.realign others
      rw [hi, ho]
    · trivial

/-- A step takes nothing back just if a call that was given a difference stands
within a step of the granted time. -/
theorem forward_iff {given : Given} (h : p.UnderWay) (hm : p.Matches given) (ho : p.Allowed l) (hq : p.next l = some q) :
    p.Forward l ↔ StepReaches (p, given) l := by
  have hfwd : p.Forward l ↔ p.algo.grantedTime ≤ q.algo.grantedTime := by
    refine ⟨fun hf => hf q (advance_ok.mpr hq), fun hle r hr => ?_⟩
    obtain rfl := Option.some.inj (hq.symm.trans (advance_ok.mp hr))
    exact hle
  rw [hfwd]
  cases l with
  | getNextTime t n =>
    simp only [next] at hq
    split at hq
    · obtain ⟨-, rfl⟩ | ⟨hn, b, hb, rfl⟩ := getNextTime_cases hq
      · exact iff_of_true le_rfl trivial
      · exact iff_of_true (untouched_forgetFailTime.trans (untouched_beginTurn hb)).grantedTime.ge trivial
    · cases hq
  | write items => exact iff_of_true (Process.write_cases hq).2.grantedTime.ge trivial
  | sendReceive diff =>
    obtain ⟨l, -, rfl⟩ := sendReceive_cases hq
    exact iff_of_true untouched_propose.grantedTime.ge trivial
  | reduceMin others othersSlot =>
    obtain ⟨l, ask, hl, h, hgrant⟩ := grantedTime_next h hq
    unfold Matches at hm
    simp only [hl] at hm
    simp only [StepReaches, ← hm.granted, ← hm.standsAt, ← hm.differed]
    replace ho : p.algo.grantedTime ≤ others := ho
    cases hn : l.needToRespond with
    | false =>
      refine iff_of_true ?_ fun ht => absurd ht (by decide)
      obtain ⟨hlt, hle, -⟩ := h.unlatched hn
      rcases hgrant with ⟨hg, -⟩ | ⟨hg, -⟩
      · exact hg.ge
      · rw [hg, h.time]
        exact le_min (hlt.le.trans hle) ho
    | true =>
      obtain ⟨-, -, -, he⟩ := h.latched hn
      rw [h.time, he] at hgrant
      simp only [true_imp_iff]
      rcases hgrant with ⟨hg, h0 | h0⟩ | ⟨hg, h0⟩
      · refine iff_of_true hg.ge ?_
        rcases Nat.min_eq_zero_iff.mp h0 with h0 | h0
        · exact .inr h0
        · exact .inl ((ho.trans_eq h0).trans (Nat.zero_le _))
      · exact absurd (h0.symm.trans hn) (by decide)
      · rw [hg, le_min_iff, and_iff_left ho, or_iff_left]
        intro h1
        exact h0 (by rw [h1, Nat.zero_min])

/-- A run is under way as its calls were given. -/
structure InStep (s : Tick × Given) : Prop where
  underWay : s.1.UnderWay
  matching : s.1.Matches s.2

theorem inStep_of_running {given : Given} (hp : p.loc = .running) : InStep (p, given) := by
  constructor
  · simp only [UnderWay, hp]
  · simp only [Matches, hp]

theorem InStep.next {s s' : Tick × Given} (h : InStep s) (hs : watched s l = .ok s') : InStep s' := by
  obtain ⟨hq, hg⟩ := Trace.watch_ok.mp hs
  exact ⟨underWay_next h.underWay (advance_ok.mp hq), hg ▸ matches_next h.underWay h.matching (advance_ok.mp hq)⟩

/-- In any number of calls, in whose reductions the others bring no less than is
granted, nothing granted is taken back just if, in every reduction of a call that
was given a difference, a step past the time the call was given reaches the granted time. -/
theorem never_taken_back_iff (hp : p.loc = .running) {ls : List Label}
    (he : Trace.Guarded advance Allowed p ls) :
    Trace.Guarded advance Forward p ls ↔ Trace.Guarded watched StepReaches (p, Given.init) ls := by
  rw [← Trace.guarded_watch Given.after Given.init] at he ⊢
  exact Trace.guarded_congr (J := InStep) (fun s l s' h _ hs => h.next hs)
    (fun s l s' h ho hs => forward_iff h.underWay h.matching ho (advance_ok.mp (Trace.watch_ok.mp hs).1))
    (inStep_of_running hp) he

/-! ## Calls made near the granted time -/

/-- A call that does not return at once is made within a step of the granted
time, and the times of a call leave room for a step. -/
def StandsClose (p : Tick) : Label → Prop
  | .getNextTime currentTime nextTime => p.algo.grantedTime < nextTime →
      p.algo.grantedTime ≤ currentTime + p.algo.integrator.onetimestep ∧
        currentTime + p.algo.integrator.onetimestep < ulongSize ∧ nextTime ≤ Infinity
  | .reduceMin others _ => others = Infinity ∨ others + p.algo.integrator.onetimestep < ulongSize
  | _ => True

/-- The time a call stands at is within a step of the granted time. -/
structure Close (a : OptimisticTickSyncAlgo) (l : Locals) : Prop where
  grantedTime_le : a.grantedTime ≤ addTime l.currentTimeParam a.integrator.onetimestep
  nextTime_le : l.nextTime ≤ Infinity

/-- A process whose step is at least its unit, in a call near the granted time. -/
structure UnderWayClose (p : Tick) : Prop where
  underWay : p.UnderWay
  step : p.algo.integrator.simTimeMetric.scale ≤ p.algo.integrator.onetimestep
  close : match p.loc with
    | .sendReceive l | .minTime l _ => Close p.algo l
    | _ => True

/-- A call that goes on waiting at the minimum `t` is within a step of it. -/
theorem close_waiting {g : Integrator} {t : TIME} (hg : g.simTimeMetric.scale ≤ g.onetimestep)
    (ht : t + g.onetimestep < ulongSize) (l : Locals) :
    t ≤ addTime (l.waiting g t).currentTimeParam g.onetimestep := by
  have hlt : t < ulongSize := by lia
  have hle : g.realign t ≤ t := Integrator.realign_le hlt
  have hnear := Integrator.lt_realign_add (g := g) hlt
  show t ≤ addTime (g.realign t) g.onetimestep
  rw [addTime_of_lt (by lia)]
  lia

theorem Close.congr {a b : OptimisticTickSyncAlgo} {l l' : Locals} (h : Close a l)
    (hg : b.grantedTime = a.grantedTime) (hi : b.integrator = a.integrator)
    (hc : l'.currentTimeParam = l.currentTimeParam) (hn : l'.nextTime = l.nextTime) : Close b l' := by
  refine ⟨?_, hn ▸ h.nextTime_le⟩
  rw [hg, hi, hc]
  exact h.grantedTime_le

/-- A minimum below the call's own proposal is one of the others': it leaves room for a step. -/
theorem Proposed.room {a : OptimisticTickSyncAlgo} {l : Locals} {ask : Ask} {others : TIME} (h : Proposed a l ask)
    (hn : l.nextTime ≤ Infinity) (hc : others = Infinity ∨ others + a.integrator.onetimestep < ulongSize)
    (hlt : min ask.time others < l.myminNextTime) : min ask.time others + a.integrator.onetimestep < ulongSize := by
  rw [h.time] at hlt ⊢
  have hothers : others < l.myminNextTime := by
    rcases min_lt_iff.mp hlt with hlt | hlt
    · exact absurd hlt (not_lt.mpr h.myminNextTime_le)
    · exact hlt
  have hmy : l.myminNextTime ≤ Infinity := by
    cases hr : l.needToRespond with
    | false => exact (h.unlatched hr).2.2 ▸ hn
    | true =>
      refine h.myminNextTime_le.trans ?_
      rw [(h.latched hr).2.2.2]
      exact Nat.le_pred_of_lt (Nat.mod_lt _ (by decide))
  rcases hc with rfl | hc
  · exact absurd hothers (not_lt.mpr hmy)
  · exact (Nat.add_le_add_right (min_le_right _ _) _).trans_lt hc

theorem underWayClose_next (h : p.UnderWayClose) (hc : p.StandsClose l) (hq : p.next l = some q) :
    q.UnderWayClose := by
  have hw := underWay_next h.underWay hq
  have hstep := h.step
  cases l with
  | getNextTime t n =>
    simp only [next] at hq
    split at hq
    · obtain ⟨-, rfl⟩ | ⟨hn, b, hb, rfl⟩ := getNextTime_cases hq
      · exact ⟨hw, hstep, trivial⟩
      · obtain ⟨hg, -, hi⟩ := untouched_forgetFailTime.trans (untouched_beginTurn hb)
        obtain ⟨hle, hlt, hn⟩ := hc hn
        refine ⟨hw, by rw [hi]; exact hstep, ?_, hn⟩
        rw [hg, hi]
        exact hle.trans_eq (addTime_of_lt hlt).symm
    · cases hq
  | write items =>
    obtain ⟨hl, hu⟩ := Process.write_cases hq
    refine ⟨hw, by rw [hu.integrator]; exact hstep, ?_⟩
    have hcl := h.close
    rw [hl]
    cases hp : p.loc <;> rw [hp] at hcl <;> first | exact hcl.congr hu.grantedTime hu.integrator rfl rfl | trivial
  | sendReceive diff =>
    obtain ⟨l, hl, rfl⟩ := sendReceive_cases hq
    have hcl := h.close
    rw [hl] at hcl
    have hu : Untouched p.algo (p.algo.propose diff l).1 := untouched_propose
    obtain ⟨hcur, -, hnext⟩ : (p.algo.propose diff l).2.currentTimeParam = l.currentTimeParam ∧ _ := locals_propose
    exact ⟨hw, by rw [hu.integrator]; exact hstep, hcl.congr hu.grantedTime hu.integrator hcur hnext⟩
  | reduceMin others othersSlot =>
    obtain ⟨l, ask, hl, hpr, hq⟩ := next_reduceMin h.underWay hq
    have hcl := h.close
    simp only [hl] at hcl
    rcases hq with ⟨-, rfl⟩ | ⟨a, -, -, hm, hi, hq⟩
    · exact ⟨hw, hstep, trivial⟩
    · rcases hq with ⟨-, rfl⟩ | ⟨-, hlt, b, hb, rfl⟩ | ⟨-, -, rfl⟩
      · exact ⟨hw, by rw [← hi] at hstep; exact hstep, trivial⟩
      · obtain ⟨hg', -, hi'⟩ := untouched_beginTurn hb
        replace hi' : b.integrator = p.algo.integrator := hi'.trans hi
        refine ⟨hw, by rw [hi']; exact hstep, ?_, hcl.nextTime_le⟩
        rw [hg', hi']
        show a.minNextTime ≤ _
        rw [hi]
        exact close_waiting hstep (hm ▸ hpr.room hcl.nextTime_le hc (hm ▸ hlt)) l
      · exact ⟨hw, by rw [← hi] at hstep; exact hstep, trivial⟩

/-- Nothing is taken back from a simulator whose calls are made within a step of the granted time. -/
theorem forward_of_standsClose (hp : p.loc = .running)
    (hg : p.algo.integrator.simTimeMetric.scale ≤ p.algo.integrator.onetimestep) {ls : List Label}
    (he : Trace.Guarded advance (fun p l => p.Allowed l ∧ p.StandsClose l) p ls) :
    Trace.Guarded advance Forward p ls := by
  have hin : InStep (p, Given.init) := inStep_of_running hp
  rw [← Trace.guarded_watch Given.after Given.init] at he ⊢
  refine he.imp (J := fun s => InStep s ∧ s.1.UnderWayClose)
    (fun s l s' h hc hs => ⟨h.1.next hs, underWayClose_next h.2 hc.2 (advance_ok.mp (Trace.watch_ok.mp hs).1)⟩)
    (fun s l s' h hc hs =>
      (forward_iff h.1.underWay h.1.matching hc.1 (advance_ok.mp (Trace.watch_ok.mp hs).1)).mpr ?_)
    ⟨hin, hin.underWay, hg, by simp only [hp]⟩
  cases l with
  | reduceMin others othersSlot =>
    intro _
    have hcl := h.2.close
    have hm := h.1.matching
    obtain ⟨l, ask, hl, -⟩ := next_reduceMin h.1.underWay (advance_ok.mp (Trace.watch_ok.mp hs).1)
    unfold Matches at hm
    simp only [hl] at hcl hm
    rw [← hm.granted, ← hm.standsAt]
    exact .inl hcl.grantedTime_le
  | _ => trivial

/-! ## A window granted ahead -/

/-- A simulator that counts in nanoseconds, with a look-ahead of 60. -/
def fresh : Tick := .start (.init .nanoseconds 0 1) (.init .increasing .nanoseconds 60)

/-- The child forked at 0 may run to 60, and fails at 50; the call for 20 is then granted 50. -/
def windowLabels : List Label :=
  [.getNextTime 0 5, .sendReceive 0, .reduceMin Infinity Infinity, .write ⟨50, ACTION_FAILED⟩,
    .getNextTime 5 10, .sendReceive 0, .reduceMin Infinity ACTION_UNDEFINED,
    .getNextTime 10 20, .sendReceive 0, .reduceMin Infinity 0]

theorem never_taken_back_window : Trace.Guarded advance Forward fresh windowLabels :=
  (never_taken_back_iff rfl (by decide +kernel)).mpr (by decide +kernel)

/-- Within the window, at 40, a message is under way: the simulator proposes 41, and 50 is taken back. -/
theorem window_taken_back : ¬ ∀ (p : Tick) (ls : List Label), p.loc = .running →
    Trace.Guarded advance Allowed p ls → Trace.Guarded advance Forward p ls := fun h =>
  absurd (h fresh (windowLabels ++ [.getNextTime 40 60, .sendReceive 1, .reduceMin 51 Infinity]) rfl
    (by decide +kernel)) (by decide +kernel)

end Tick

end Fncs.Optimistic

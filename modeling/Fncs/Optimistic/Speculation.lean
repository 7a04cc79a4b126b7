/-
Agreement on speculation: the processes of a context all have a child or none
of them has, so the slot of the reduction holds speculation times or action
codes, never both, and every process takes the same decision.

`Agreed` is the invariant. That the processes agree on who has a child follows
from what each of them keeps (`hasChild_…`) and from `decision_receive`: the
decision is a function of the slot's minimum and of whether there is a child.
-/
import Fncs.Optimistic.Context

namespace Fncs

namespace Decision

/-- Whether a process has a child after the decision. -/
def leavesChild (asChild hadChild : Bool) : Decision → Bool
  | .fork => !asChild
  | .killChild | .failAll => false
  | .keepGoing | .die => hadChild

/-- The decision on what the slot holds. -/
def ofSlot (slot : TIME) : Ask.Kind → Decision
  | .nothing => .keepGoing
  | .specTime => if slot = 0 then .keepGoing else .fork
  | .action =>
    if slot = ACTION_DOFAILLALL then .failAll
    else if slot = ACTION_FAILED then .killChild
    else if slot = ACTION_SUCCESS then .die
    else .keepGoing

end Decision

/-! ## Who has a child -/

namespace OptimisticTickSyncAlgo

variable {a a' : OptimisticTickSyncAlgo} {asChild : Bool} {t : TIME} {diff : ℕ} {l : Locals}

@[simp] theorem hasChild_childDied : a.childDied.hasChild = false := by
  cases h : a.role <;> simp [childDied, hasChild, h]

@[simp] theorem hasChild_doFailAll : a.doFailAll.hasChild = false := by
  cases h : a.role <;> simp [doFailAll, hasChild, h]

@[simp] theorem hasChild_doLimbo : a.doLimbo.hasChild = a.hasChild := by
  cases h : a.role with
  | parent comm =>
    unfold doLimbo
    simp only [h]
    split
    · simp [hasChild, h]
    · split <;> simp [hasChild, h]
  | alone => simp [doLimbo, h]
  | child comm => simp [doLimbo, h]

@[simp] theorem hasChild_checkChild : (a.checkChild diff).hasChild = (a.hasChild && !a.killsChild diff) := by
  unfold checkChild
  split
  · next h => rw [h, Bool.not_true, Bool.and_false]; exact hasChild_childDied
  · next h => rw [eq_false_of_ne_true h, Bool.not_false, Bool.and_true]

@[simp] theorem hasChild_forked : (a.forked asChild t).hasChild = !asChild := by
  cases asChild <;> rfl

theorem hasChild_timeStepStart (h : a.timeStepStart t = some a') : a'.hasChild = a.hasChild := by
  obtain ⟨comm, hr, -, rfl⟩ | ⟨comm, hr, -, rfl⟩ | ⟨-, rfl⟩ := timeStepStart_cases h
  · simp [hasChild, hr]
  · simp [hasChild, hr]
  · rfl

theorem hasChild_beginTurn (h : a.beginTurn l = some a') : a'.hasChild = a.hasChild := by
  unfold beginTurn at h
  split at h
  · exact hasChild_timeStepStart h
  · cases h; rfl

@[simp] theorem hasChild_forgetFailTime : (a.forgetFailTime t).hasChild = a.hasChild := by
  unfold forgetFailTime
  split <;> rfl

/-- Without a difference the child is left alone, whatever is proposed. -/
@[simp] theorem hasChild_propose : (a.propose diff l).1.hasChild = (a.hasChild && !a.killsChild diff) := by
  unfold propose
  split
  · next h => split <;> simp [killsChild, h.1, hasChild]
  · exact hasChild_checkChild

theorem hasChild_testSpeculationState {s r : TIME} (h : a.testSpeculationState asChild s t = some (a', r)) :
    a'.hasChild = (a.decision s).leavesChild asChild a.hasChild := by
  unfold testSpeculationState at h
  split at h
  · next hd => cases h; rw [hd]; exact hasChild_forked
  · next hd => cases h; rw [hd]; exact hasChild_doFailAll
  · next hd => cases h; rw [hd]; exact hasChild_childDied
  · cases h
  · next hd =>
    rw [hd]
    split at h <;> cases h
    · exact hasChild_doLimbo
    · rfl

@[simp] theorem hasChild_receive {other minimum slot : TIME} {ask : Ask} :
    (a.receive other minimum slot ask).1.hasChild = a.hasChild := by
  cases ask <;> rfl

/-- What is submitted tells whether there is a child. -/
theorem kind_ask {m s : TIME} : (a.ask diff m s).kind =
    if 0 < diff then .nothing else if a.hasChild then .action else .specTime := by
  unfold ask
  rcases Nat.eq_zero_or_pos diff with rfl | h
  · cases h : a.role <;> simp [hasChild, h, Ask.kind]
  · simp [h.ne', h, Ask.kind]

/-- The decision, when the slot holds a code just if there is a child. -/
theorem decision_receive (other minimum slot : TIME) {ask : Ask} (h : ask.kind = .action ↔ a.hasChild = true) :
    (a.receive other minimum slot ask).1.decision (a.receive other minimum slot ask).2 =
      Decision.ofSlot slot ask.kind := by
  unfold decision
  rw [hasChild_receive]
  cases ask with
  | reduceMinTime m =>
    have hc : a.hasChild = false := by simpa [Ask.kind] using h
    simp [receive, Ask.kind, Decision.ofSlot, hc]
  | specTime m s =>
    have hc : a.hasChild = false := by simpa [Ask.kind] using h
    by_cases hs : slot = 0 <;> simp [receive, Ask.kind, Decision.ofSlot, hc, hs]
  | action m code =>
    have hc : a.hasChild = true := h.mp rfl
    simp only [receive, Ask.kind, Decision.ofSlot, hc, Bool.true_eq_false, false_and, ite_true, ite_false]
    rfl

/-- A process whose slot holds a code just if it has a child does what the slot says. -/
theorem hasChild_settle {other minimum slot : TIME} {ask : Ask} (h : ask.kind = .action ↔ a.hasChild = true)
    (hs : a.settle other asChild minimum slot t ask = some a') :
    a'.hasChild = (Decision.ofSlot slot ask.kind).leavesChild asChild a.hasChild := by
  obtain ⟨⟨b, r⟩, hb, he⟩ := Option.map_eq_some_iff.mp hs
  have hc := hasChild_testSpeculationState hb
  rw [decision_receive _ _ _ h, hasChild_receive] at hc
  rw [← hc, ← he]
  split <;> rfl

theorem hasChild_exited {other minimum slot : TIME} {ask : Ask} (h : ask.kind = .action ↔ a.hasChild = true)
    (hs : a.settle other asChild minimum slot t ask = none) : Decision.ofSlot slot ask.kind = .die := by
  rw [← decision_receive other minimum slot h]
  unfold settle at hs
  have hn := Option.map_eq_none_iff.mp hs
  unfold testSpeculationState at hn
  split at hn <;> first | assumption | cases hn

end OptimisticTickSyncAlgo

/-! ## One process -/

namespace Optimistic

variable {L : Type}

/-- What the process has taken to the reduction tells whether it has a child. -/
def Process.Telling (p : Process L) : Prop := ∀ ask ∈ p.ask?, ask.kind = .action ↔ p.algo.hasChild = true

/-- A process that moves on its own neither gets nor loses a child, nor takes anything to a reduction. -/
structure Process.Still (p q : Process L) : Prop where
  hasChild : q.algo.hasChild = p.algo.hasChild
  ask : q.ask? = p.ask?

/-- After the sum of the counters. -/
structure Process.Asked (diff : ℕ) (p q : Process L) : Prop where
  hasChild : q.algo.hasChild = (p.algo.hasChild && !p.algo.killsChild diff)
  kind : q.ask?.map Ask.kind =
    some (if 0 < diff then .nothing else if q.algo.hasChild then .action else .specTime)

/-- After the reduction. -/
structure Process.Answered (asChild : Bool) (slot : TIME) (p q : Process L) : Prop where
  hasChild : ∀ ask ∈ p.ask?,
    q.algo.hasChild = (Decision.ofSlot slot ask.kind).leavesChild asChild p.algo.hasChild
  ask : q.ask? = none

theorem Process.still_write {items : ShmItems} {p q : Process L} (h : p.write items = some q) : p.Still q := by
  unfold write at h
  split at h
  · next hr => cases h; exact ⟨by simp [OptimisticTickSyncAlgo.hasChild, hr], rfl⟩
  · next hr => cases h; exact ⟨by simp [OptimisticTickSyncAlgo.hasChild, hr], rfl⟩
  · cases h

theorem Process.still_message {sent : Bool} {p q : Process L} (h : p.message sent = some q) : p.Still q := by
  unfold message at h
  split at h
  · next hl hr =>
    cases h
    refine ⟨by simp [OptimisticTickSyncAlgo.hasChild, hr], ?_⟩
    cases sent <;> simp [ask?, hl]
  · cases h
  · cases h; exact ⟨rfl, rfl⟩
  · cases h

/-- What a process decides, whichever of the two it is. -/
theorem Process.Telling.decision {p : Process L} (h : p.Telling) {other minimum slot : TIME} :
    p.decision other minimum slot = p.ask?.map fun ask => Decision.ofSlot slot ask.kind := by
  unfold Process.decision
  cases ha : p.ask? with
  | none => rfl
  | some ask => simp only [Option.map_some, OptimisticTickSyncAlgo.decision_receive _ _ _ (h ask ha)]

/-- A process that has just asked tells the truth. -/
theorem Process.Asked.telling {diff : ℕ} {p q : Process L} (h : p.Asked diff q) : q.Telling := by
  intro ask ha
  have hk := h.kind
  rw [ha, Option.map_some, Option.some.injEq] at hk
  have hc := h.hasChild
  rw [hk]
  split
  · next hd =>
    have : q.algo.hasChild = false := by
      rw [hc, OptimisticTickSyncAlgo.killsChild, decide_eq_true hd, Bool.true_and, Bool.and_not_self]
    simp [this]
  · cases q.algo.hasChild <;> simp

namespace Tick

variable {p q : Tick} {diff : ℕ} {asChild : Bool} {minimum slot t n : TIME}

theorem still_step (h : step t n p = some q) : p.Still q := by
  obtain ⟨hl, a, ha, h⟩ := step_cases h
  have hc := OptimisticTickSyncAlgo.hasChild_timeStepStart ha
  obtain ⟨-, rfl⟩ | ⟨-, b, hb, rfl⟩ := getNextTime_cases h
  · exact ⟨hc, by simp [Process.ask?, hl]⟩
  · have := OptimisticTickSyncAlgo.hasChild_beginTurn hb
    exact ⟨by simp [this, hc], by simp [Process.ask?, hl]⟩

theorem asked_sendReceive (h : sendReceive diff p = some q) : p.Asked diff q := by
  obtain ⟨l, -, rfl⟩ := sendReceive_cases h
  refine ⟨OptimisticTickSyncAlgo.hasChild_propose, ?_⟩
  simp only [Process.ask?, Option.map_some, OptimisticTickSyncAlgo.kind_ask]
  rfl

theorem answered_reduceMin (hp : p.Telling) (h : reduceMin asChild minimum slot p = some q) :
    p.Answered asChild slot q := by
  obtain ⟨l, ask, hl, h⟩ := reduceMin_cases h
  have hask : p.ask? = some ask := by simp [Process.ask?, hl]
  have hk := hp ask hask
  suffices hq : q.algo.hasChild = (Decision.ofSlot slot ask.kind).leavesChild asChild p.algo.hasChild ∧
      q.ask? = none from ⟨fun b hb => by rw [hask] at hb; cases hb; exact hq.1, hq.2⟩
  rcases h with ⟨hs, rfl⟩ | ⟨a, hs, h⟩
  · exact ⟨by rw [OptimisticTickSyncAlgo.hasChild_exited hk hs]; rfl, rfl⟩
  · rw [← OptimisticTickSyncAlgo.hasChild_settle hk hs]
    obtain ⟨-, rfl⟩ | ⟨-, -, b, hb, rfl⟩ | ⟨-, -, rfl⟩ := h
    · exact ⟨rfl, rfl⟩
    · exact ⟨(OptimisticTickSyncAlgo.hasChild_beginTurn hb).trans rfl, rfl⟩
    · exact ⟨rfl, rfl⟩

end Tick

namespace NetSim

variable {p q : NetSim} {diff : ℕ} {asChild : Bool} {minimum slot t n : TIME}

theorem still_step (h : step t n p = some q) : p.Still q := by
  unfold step at h
  split at h
  · next hl =>
    obtain ⟨a, ha, rfl⟩ := Option.map_eq_some_iff.mp h
    have hc := OptimisticTickSyncAlgo.hasChild_timeStepStart ha
    split
    · exact ⟨hc, rfl⟩
    · exact ⟨by simp [hc], by simp [Process.ask?, hl]⟩
  · cases h

theorem asked_sendReceive (h : sendReceive diff p = some q) : p.Asked diff q := by
  unfold sendReceive at h
  split at h
  · cases h
    refine ⟨OptimisticTickSyncAlgo.hasChild_checkChild, ?_⟩
    simp only [Process.ask?, Option.map_some, OptimisticTickSyncAlgo.kind_ask]
    rfl
  · cases h

theorem answered_reduceMin (hp : p.Telling) (h : reduceMin asChild minimum slot p = some q) :
    p.Answered asChild slot q := by
  unfold reduceMin at h
  split at h
  · next t ask hl =>
    have hask : p.ask? = some ask := by simp [Process.ask?, hl]
    have hk := hp ask hask
    suffices hq : q.algo.hasChild = (Decision.ofSlot slot ask.kind).leavesChild asChild p.algo.hasChild ∧
        q.ask? = none from ⟨fun b hb => by rw [hask] at hb; cases hb; exact hq.1, hq.2⟩
    unfold OptimisticCommSyncAlgo.conclude at h
    cases hs : p.algo.settle Infinity asChild minimum slot t ask with
    | none =>
      simp only [hs, Option.map_none, Option.some.injEq] at h
      subst h
      exact ⟨by rw [OptimisticTickSyncAlgo.hasChild_exited hk hs]; rfl, rfl⟩
    | some a =>
      simp only [hs, Option.map_some, Option.some.injEq] at h
      subst h
      rw [← OptimisticTickSyncAlgo.hasChild_settle hk hs]
      split <;> exact ⟨rfl, rfl⟩
  · cases h

end NetSim

/-! ## The context -/

namespace Context

variable {ι : Type} {s s' : Context ι}

/-- All processes of the context have a live child or none has, and they take
the same kind of thing to the reduction. -/
structure Agreed (s : Context ι) : Prop where
  children : ∀ i, (s.ticks i).algo.hasChild = s.netSim.algo.hasChild
  kinds : ∀ i, (s.ticks i).ask?.map Ask.kind = s.netSim.ask?.map Ask.kind
  telling : s.netSim.Telling

namespace Agreed

theorem start {ticks : ι → Integrator × SpeculationTimeCalculationStrategy}
    {netSim : Integrator × SpeculationTimeCalculationStrategy} : Agreed (.start ticks netSim) :=
  ⟨fun _ => rfl, fun _ => rfl, nofun⟩

variable (h : Agreed s)

include h

theorem tick_telling (i : ι) : (s.ticks i).Telling := by
  intro ask ha
  have hk := h.kinds i
  rw [Option.mem_def.mp ha, Option.map_some] at hk
  obtain ⟨b, hb, he⟩ := Option.map_eq_some_iff.mp hk.symm
  rw [← he, h.children i]
  exact h.telling b hb

/-- Everybody waits in the same collective, if at all. -/
theorem sameCollective : s.SameCollective := by
  have hplain : ∀ o : Option Ask, o.map Ask.plain = (o.map Ask.kind).map (· == .nothing) := by
    rintro (_ | _ | _ | _) <;> rfl
  intro i
  rw [hplain, hplain, h.kinds i]

theorem moved [DecidableEq ι] {i : ι} {q : Tick} (hq : (s.ticks i).Still q) :
    Agreed { s with ticks := Function.update s.ticks i q } := by
  refine ⟨fun j => ?_, fun j => ?_, h.telling⟩
  · by_cases hj : j = i
    · subst hj
      simpa [hq.hasChild] using h.children j
    · simpa [hj] using h.children j
  · by_cases hj : j = i
    · subst hj
      simpa [hq.ask] using h.kinds j
    · simpa [hj] using h.kinds j

theorem netMoved {q : NetSim} (hq : s.netSim.Still q) : Agreed { s with netSim := q } where
  children i := (h.children i).trans hq.hasChild.symm
  kinds i := by rw [hq.ask]; exact h.kinds i
  telling ask ha := by rw [hq.hasChild]; exact h.telling ask (hq.ask ▸ ha)

/-- After the sum of the counters everybody has taken the same kind of thing to the reduction. -/
theorem asked {diff : ℕ} (ht : ∀ i, (s.ticks i).Asked diff (s'.ticks i)) (hn : s.netSim.Asked diff s'.netSim) :
    Agreed s' := by
  have hc : ∀ i, (s'.ticks i).algo.hasChild = s'.netSim.algo.hasChild := by
    intro i
    rw [(ht i).hasChild, hn.hasChild]
    simp only [OptimisticTickSyncAlgo.killsChild, h.children i]
  refine ⟨hc, fun i => ?_, hn.telling⟩
  rw [(ht i).kind, hn.kind, hc i]

/-- After the reduction everybody has followed the same decision. -/
theorem answered {asChild : Bool} {slot : TIME} {ask : Ask} (ha : s.netSim.ask? = some ask)
    (ht : ∀ i, (s.ticks i).Answered asChild slot (s'.ticks i)) (hn : s.netSim.Answered asChild slot s'.netSim) :
    Agreed s' := by
  refine ⟨fun i => ?_, fun i => by rw [(ht i).ask, hn.ask], fun b hb => by rw [hn.ask] at hb; cases hb⟩
  have hk := h.kinds i
  rw [ha, Option.map_some] at hk
  obtain ⟨b, hb, he⟩ := Option.map_eq_some_iff.mp hk
  rw [(ht i).hasChild b hb, hn.hasChild ask ha, he, h.children i]

variable [DecidableEq ι] [Fintype ι]

/-- The processes have asked, and the reduction takes place. -/
theorem answered_ask {asChild : Bool} (hs : s.step (.reduceMin asChild) = .ok s') :
    ∃ ask, s.netSim.ask? = some ask ∧ (∀ i, Tick.reduceMin asChild s.minimum s.slot (s.ticks i) = some (s'.ticks i)) ∧
      NetSim.reduceMin asChild s.minimum s.slot s.netSim = some s'.netSim := by
  simp only [Context.step, h.sameCollective, ite_true] at hs
  obtain ⟨ht, hn⟩ := allMoved_ok.mp hs
  refine (?_ : ∃ ask, _).imp fun ask ha => ⟨ha, ht, hn⟩
  unfold NetSim.reduceMin at hn
  split at hn
  · next t ask hl => exact ⟨ask, by simp [Process.ask?, hl]⟩
  · cases hn

theorem step {l : Label ι} (hs : s.step l = .ok s') : Agreed s' := by
  cases l with
  | step i t n =>
    obtain ⟨q, hq, rfl⟩ := moved_ok.mp hs
    exact h.moved (Tick.still_step hq)
  | netStep t n =>
    obtain ⟨q, hq, rfl⟩ := netMoved_ok.mp hs
    exact h.netMoved (NetSim.still_step hq)
  | write i items =>
    obtain ⟨q, hq, rfl⟩ := moved_ok.mp hs
    exact h.moved (Process.still_write hq)
  | netWrite items =>
    obtain ⟨q, hq, rfl⟩ := netMoved_ok.mp hs
    exact h.netMoved (Process.still_write hq)
  | message i sent =>
    obtain ⟨q, hq, rfl⟩ := moved_ok.mp hs
    exact h.moved (Process.still_message hq)
  | netMessage sent =>
    obtain ⟨q, hq, rfl⟩ := netMoved_ok.mp hs
    exact h.netMoved (Process.still_message hq)
  | sendReceive diff =>
    obtain ⟨ht, hn⟩ := allMoved_ok.mp hs
    exact h.asked (fun i => Tick.asked_sendReceive (ht i)) (NetSim.asked_sendReceive hn)
  | reduceMin asChild =>
    obtain ⟨ask, ha, ht, hn⟩ := h.answered_ask hs
    exact h.answered ha (fun i => Tick.answered_reduceMin (h.tick_telling i) (ht i))
      (NetSim.answered_reduceMin h.telling hn)

/-- Everybody has taken the same kind of thing to the same collective. -/
theorem sendReceive {diff : ℕ} (hs : s.step (.sendReceive diff) = .ok s') :
    ∃ k : Ask.Kind, (k = .nothing ↔ 0 < diff) ∧ s'.netSim.ask?.map Ask.kind = some k ∧
      ∀ i, (s'.ticks i).ask?.map Ask.kind = some k := by
  have hn := (NetSim.asked_sendReceive (allMoved_ok.mp hs).2).kind
  refine ⟨_, ?_, hn, fun i => ((h.step hs).kinds i).trans hn⟩
  split
  · next hd => simp [hd]
  · next hd => split <;> simp [hd]

/-- Everybody takes the same decision. -/
theorem reduceMin {asChild : Bool} (hs : s.step (.reduceMin asChild) = .ok s') (minimum slot : TIME) :
    ∃ d, s.netSim.decision Infinity minimum slot = some d ∧ ∀ i, (s.ticks i).decision 0 minimum slot = some d := by
  obtain ⟨ask, ha, -⟩ := h.answered_ask hs
  refine ⟨_, by rw [h.telling.decision, ha]; rfl, fun i => ?_⟩
  have hk := h.kinds i
  rw [ha, Option.map_some] at hk
  obtain ⟨b, hb, he⟩ := Option.map_eq_some_iff.mp hk
  rw [(h.tick_telling i).decision, hb, Option.map_some, he]

end Agreed

variable [DecidableEq ι] [Fintype ι]

/-- In every state a run of a context reaches, all processes have a live child
or none has; a round that starts there takes all of them to the same collective
with the same kind of value, the plain minimum just if there is a difference;
and the reduction finds them in one collective and gives them one decision. -/
theorem speculation_agreed (ticks : ι → Integrator × SpeculationTimeCalculationStrategy)
    (netSim : Integrator × SpeculationTimeCalculationStrategy) {ls : List (Label ι)}
    (hr : Trace.run step (start ticks netSim) ls = .ok s) :
    (∀ i, (s.ticks i).algo.hasChild = s.netSim.algo.hasChild) ∧
    (∀ diff s', s.step (.sendReceive diff) = .ok s' →
      (∀ i, (s.ticks i).algo.killsChild diff = s.netSim.algo.killsChild diff) ∧
      ∃ k : Ask.Kind, (k = .nothing ↔ 0 < diff) ∧ s'.netSim.ask?.map Ask.kind = some k ∧
        ∀ i, (s'.ticks i).ask?.map Ask.kind = some k) ∧
    ∀ asChild, s.step (.reduceMin asChild) ≠ .error .mixed ∧
      ∀ s', s.step (.reduceMin asChild) = .ok s' →
        ∃ d, s.netSim.decision Infinity s.minimum s.slot = some d ∧
          ∀ i, (s.ticks i).decision 0 s.minimum s.slot = some d := by
  have h : Agreed s := Trace.run_invariant (fun _ _ _ h hs => Agreed.step h hs) .start hr
  refine ⟨h.children, fun diff s' hs => ⟨fun i => ?_, h.sendReceive hs⟩, fun asChild => ⟨fun he => ?_, fun s' hs => ?_⟩⟩
  · simp only [OptimisticTickSyncAlgo.killsChild, h.children i]
  · simp only [Context.step, h.sameCollective, ite_true] at he
    cases hn : NetSim.reduceMin asChild s.minimum s.slot s.netSim with
    | none => simp [hn, allMoved] at he
    | some q =>
      simp only [hn, allMoved] at he
      split at he <;> cases he
  · exact h.reduceMin hs _ _

/-- Counting in nanoseconds, with a look-ahead of 10. -/
def nanoseconds : Integrator × SpeculationTimeCalculationStrategy :=
  (.init .nanoseconds 0 1, .init .increasing .nanoseconds 10)

/-- The first round of two simulators, up to the fork. -/
def forkLabels {κ : Type} (i j : κ) : List (Label κ) :=
  [.step i 0 20, .step j 0 30, .netStep 0 1, .sendReceive 0, .reduceMin false]

theorem speculation_agreed_forked : ∃ s : Context (Fin 2),
    Trace.run step (start (fun _ => nanoseconds) nanoseconds) (forkLabels 0 1) = .ok s ∧
      s.netSim.algo.hasChild = true ∧ ∀ i, (s.ticks i).algo.hasChild = true := by
  obtain ⟨s, hs, hc⟩ := Trace.exists_run_of_check step (start (fun _ : Fin 2 => nanoseconds) nanoseconds)
    (forkLabels 0 1) (fun s => s.netSim.algo.hasChild) (by decide +kernel)
  exact ⟨s, hs, hc, fun i => ((speculation_agreed _ _ hs).1 i).trans hc⟩

end Context

end Optimistic

end Fncs

/-
When the net sim ends (`OptimisticCommSyncAlgo::GetNextTime`). `Infinity` is what
it proposes, what a speculation without a limit asks for, and the mark of the end;
a child is granted what the speculation asked for and takes that for the minimum.
-/
import Fncs.Optimistic.LookAhead

namespace Fncs

namespace OptimisticTickSyncAlgo

variable {a b : OptimisticTickSyncAlgo} {asChild : Bool} {other minimum slot t : TIME} {ask : Ask}

/-- After the reduction `minNextTime` is what the round grants. -/
theorem minNextTime_settle (hk : ask.kind = .action ↔ a.hasChild = true)
    (hs : a.settle other asChild minimum slot t ask = some b) : b.minNextTime = grantOf asChild minimum slot ask.kind := by
  obtain ⟨⟨c, r⟩, hc, he⟩ := Option.map_eq_some_iff.mp hs
  have hd := decision_receive (a := a) other minimum slot hk
  have hmin : c.minNextTime = minimum := by
    rw [(untouched_testSpeculationState hc).minNextTime]
    cases ask <;> rfl
  rw [grantOf, ← hd, ← he]
  obtain ⟨hf, -, hr⟩ | ⟨hf, -, hr⟩ | ⟨hf, -, hr⟩ | ⟨hf, -, hr⟩ := testSpeculationState_cases hc
  · obtain ⟨hspec, h0⟩ := fork_iff.mp (hd.symm.trans hf)
    have hslot : (a.receive other minimum slot ask).2 = slot := by
      cases ask with
      | specTime m s => rfl
      | reduceMinTime m => cases hspec
      | action m code => cases hspec
    rw [hf]
    cases asChild with
    | true => simp [hr, hslot, Nat.pos_of_ne_zero h0]
    | false => simp [hr, hmin]
  all_goals
    rw [hf]
    simp [hr, hmin]

end OptimisticTickSyncAlgo

namespace Optimistic

namespace NetSim

variable {p : NetSim} {asChild : Bool} {minimum slot : TIME}

/-- The call marks the net sim as finished and returns `Infinity`. -/
def ends (asChild : Bool) (minimum slot : TIME) (p : NetSim) : Bool :=
  match p.loc with
  | .minTime currentTime ask =>
    (OptimisticCommSyncAlgo.conclude p.algo asChild minimum slot currentTime ask).any fun r =>
      r.1.finished && r.2 == Infinity
  | _ => false

/-- The net sim ends exactly when it goes on and `Infinity` is what the round grants. -/
theorem ends_iff (h : p.Telling) : p.ends asChild minimum slot = true ↔ ∃ currentTime ask,
    p.loc = .minTime currentTime ask ∧
      (∃ a, p.algo.settle Infinity asChild minimum slot currentTime ask = some a) ∧
      OptimisticTickSyncAlgo.grantOf asChild minimum slot ask.kind = Infinity := by
  cases hl : p.loc with
  | minTime t ask =>
    have hk := h ask (by simp [Process.ask?, hl])
    simp only [ends, hl, OptimisticCommSyncAlgo.conclude]
    cases hs : p.algo.settle Infinity asChild minimum slot t ask with
    | none => simp [hs]
    | some a =>
      have hgrant := OptimisticTickSyncAlgo.minNextTime_settle hk hs
      by_cases hinf : a.minNextTime = Infinity
      · simp [hs, hinf, ← hgrant]
      · simp [hinf, ← hgrant]
  | _ => simp [ends, hl]

end NetSim

namespace Context

variable {ι : Type} [Fintype ι] [DecidableEq ι] {s s' : Context ι}

/-- The net sim ends only when nobody asks for a time. -/
def GenuineEnd (s : Context ι) : Label ι → Prop
  | .reduceMin asChild => s.netSim.ends asChild s.minimum s.slot = true → s.minimum = Infinity
  | _ => True

instance (s : Context ι) (l : Label ι) : Decidable (s.GenuineEnd l) := by
  unfold GenuineEnd
  split <;> infer_instance

/-- Every simulator asks for a speculation without a limit. -/
def Unlimited (s : Context ι) : Prop := ∀ i, ∀ ask ∈ (s.ticks i).ask?, Infinity ≤ ask.slot

/-- No child is followed that a fork without a limit makes before the end. -/
def Limited (s : Context ι) : Label ι → Prop
  | .reduceMin true => ∀ ask ∈ s.netSim.ask?, ask.kind = .specTime → s.Unlimited → s.minimum = Infinity
  | _ => True

omit [DecidableEq ι] in
/-- The net sim leaves the slot to the others. -/
theorem slot_eq_infinity_iff {ask : Ask} (ha : s.netSim.ask? = some ask) (hslot : ask.slot = Infinity) :
    s.slot = Infinity ↔ s.Unlimited := by
  have hown : (s.netSim.ask?.map Ask.slot).getD Infinity = Infinity := by rw [ha, Option.map_some, hslot, Option.getD_some]
  have hle : s.slot ≤ Infinity := (Finset.fold_min_le _).mpr (.inl hown.le)
  have hticks : Infinity ≤ s.slot ↔ s.Unlimited := by
    refine (Finset.le_fold_min _).trans ((and_iff_right hown.ge).trans (forall_congr' fun i => ?_))
    cases (s.ticks i).ask? with
    | none => simp
    | some b => simp
  rw [← hticks]
  exact ⟨Eq.ge, hle.antisymm⟩

omit [DecidableEq ι] in
/-- One round. -/
theorem genuineEnd_iff (h : Agreed s) (hn : ∀ ask ∈ s.netSim.ask?, ask.kind = .specTime → ask.slot = Infinity)
    (l : Label ι) : s.GenuineEnd l ↔ s.Limited l := by
  cases l with
  | reduceMin asChild =>
    dsimp only [GenuineEnd]
    rw [NetSim.ends_iff h.telling]
    cases asChild with
    | false =>
      refine iff_of_true (fun hends => ?_) trivial
      obtain ⟨t, ask, -, -, hgrant⟩ := hends
      simpa [OptimisticTickSyncAlgo.grantOf] using hgrant
    | true =>
      constructor
      · intro hgenuine ask ha hspec hall
        have hslot : s.slot = Infinity := (slot_eq_infinity_iff ha (hn ask ha hspec)).mpr hall
        have hfork : Decision.ofSlot s.slot ask.kind = .fork := OptimisticTickSyncAlgo.fork_iff.mpr
          ⟨hspec, by rw [hslot]; decide⟩
        obtain ⟨t, hl⟩ : ∃ t, s.netSim.loc = .minTime t ask := by
          unfold Process.ask? at ha
          split at ha
          · next t _ hl =>
            cases ha
            exact ⟨t, hl⟩
          · cases ha
        refine hgenuine ⟨t, ask, hl, Option.ne_none_iff_exists'.mp fun hnone => ?_, ?_⟩
        · rw [OptimisticTickSyncAlgo.hasChild_exited (h.telling ask ha) hnone] at hfork
          cases hfork
        · rw [OptimisticTickSyncAlgo.grantOf, if_pos ⟨rfl, hfork⟩, hslot]
      · intro hlimited hends
        obtain ⟨t, ask, hl, -, hgrant⟩ := hends
        have ha : s.netSim.ask? = some ask := by simp [Process.ask?, hl]
        by_cases hfork : Decision.ofSlot s.slot ask.kind = .fork
        · have hspec := (OptimisticTickSyncAlgo.fork_iff.mp hfork).1
          rw [OptimisticTickSyncAlgo.grantOf, if_pos ⟨rfl, hfork⟩] at hgrant
          exact hlimited ask ha hspec ((slot_eq_infinity_iff ha (hn ask ha hspec)).mp hgrant)
        · have hminimum : s.minimum = Infinity := by
            simpa [OptimisticTickSyncAlgo.grantOf, hfork] using hgrant
          exact hminimum
  | _ => exact Iff.rfl

/-- Whatever the strategies: the net sim ends only at the genuine end exactly in the runs that
follow no child without a limit before it. -/
theorem genuineEnd_iff_limited (ticks : ι → Integrator × SpeculationTimeCalculationStrategy)
    (netSim : Integrator × SpeculationTimeCalculationStrategy) (ls : List (Label ι)) :
    Trace.Guarded step GenuineEnd (start ticks netSim) ls ↔ Trace.Guarded step Limited (start ticks netSim) ls := by
  have henv : Trace.Guarded step (fun _ _ => True) (start ticks netSim) ls := Trace.guarded_of_forall fun _ _ => trivial
  exact Trace.guarded_congr (J := fun s => Agreed s ∧ ∀ ask ∈ s.netSim.ask?, ask.kind = .specTime → ask.slot = Infinity)
    (fun s l s' h _ hs => ⟨h.1.step hs, h.1.netSim_step h.2 hs⟩) (fun s l _ h _ _ => genuineEnd_iff h.1 h.2 l)
    ⟨.start, nofun⟩ henv

def unlimited : Integrator × SpeculationTimeCalculationStrategy :=
  (.init .nanoseconds 0 1, .init .infinity .nanoseconds 0)

/-- A simulator asks for 20 and speculates without a limit: the child's net sim has finished. -/
theorem child_finished_at_fork :
    (∃ s s' : Context (Fin 1),
      Trace.run step (start (fun _ => unlimited) unlimited) [.step 0 0 20, .netStep 0 1, .sendReceive 0] = .ok s ∧
        s.minimum = 20 ∧ Trace.run step s [.reduceMin true] = .ok s' ∧ s'.netSim.algo.finished = true) ∧
    ¬ ∀ (ticks : Fin 1 → Integrator × SpeculationTimeCalculationStrategy)
        (netSim : Integrator × SpeculationTimeCalculationStrategy) (ls : List (Label (Fin 1))),
      Trace.Guarded step GenuineEnd (start ticks netSim) ls := by
  constructor
  · obtain ⟨s, hs, hcheck⟩ := Trace.exists_run_of_check step (start (fun _ : Fin 1 => unlimited) unlimited)
      [.step 0 0 20, .netStep 0 1, .sendReceive 0]
      (fun s => s.minimum == 20 && Trace.endsIn (·.netSim.algo.finished) (Trace.run step s [.reduceMin true]))
      (by decide +kernel)
    obtain ⟨hminimum, hends⟩ := Bool.and_eq_true_iff.mp hcheck
    obtain ⟨s', hs', hfinished⟩ := Trace.exists_run_of_check step s [.reduceMin true] (·.netSim.algo.finished) hends
    exact ⟨s, s', hs, eq_of_beq hminimum, hs', hfinished⟩
  · intro hall
    exact absurd (hall (fun _ => unlimited) unlimited [.step 0 0 20, .netStep 0 1, .sendReceive 0, .reduceMin true])
      (by decide +kernel)

end Context

end Optimistic

end Fncs

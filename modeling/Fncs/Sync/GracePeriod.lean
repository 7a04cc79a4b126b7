/-
The plain conservative algorithms: `GracePeriodSyncAlgo::GetNextTime`
(`graceperiodpesimisticsyncalgo.cpp`) and the net sim's
`CommunicatorSimulatorSyncalgo::GetNextTime`
(`communicatorsimulatorsyncalgo.cpp`), cut at the reductions they block in.

One turn of the loop takes the sum of the message counters, the least network
delay, which is not used, and the least proposal of the round.
-/
import Fncs.Sync.Time

namespace Fncs

namespace GracePeriodSyncAlgo

/-- The local variables of `GetNextTime`. -/
structure Locals where
  currentTime : TIME
  nextTime : TIME
  nextEstTime : TIME
  needToRespond : Bool
  busywait : Bool
  deriving DecidableEq, Repr

/-- How a turn of the loop ends. -/
inductive Outcome
  /-- `GetNextTime` returns. -/
  | returned (t : TIME)
  /-- `finished` is set, and 0 returned. -/
  | finished
  | again (l : Locals)
  deriving DecidableEq, Repr

/-- A call that asks for less than what was granted already returns at once. -/
def returnsAtOnce (grantedTime nextTime : TIME) : Bool := nextTime < grantedTime

/-- Where the loop is entered. -/
def enter (currentTime nextTime : TIME) : Locals where
  currentTime := currentTime
  nextTime := nextTime
  nextEstTime := 0
  needToRespond := false
  busywait := false

/-- The proposal, once the difference is known. -/
def propose (g : Integrator) (diff : ℕ) (l : Locals) : Locals :=
  if diff = 0 ∧ l.needToRespond = false then { l with nextEstTime := l.nextTime }
  else { l with nextEstTime := addTime l.currentTime g.onetimestep, needToRespond := true }

/-- The end of the turn, once the minimum is known. -/
def conclude (g : Integrator) (minNextTime : TIME) (l : Locals) : Outcome :=
  let l := if minNextTime = l.nextEstTime then { l with busywait := false } else l
  if minNextTime = 0 then .finished
  else
    let l := if minNextTime < l.nextEstTime then
      { l with currentTime := g.realign minNextTime, busywait := true } else l
    if l.busywait then .again l else .returned l.nextEstTime

theorem propose_nextEstTime (g : Integrator) (diff : ℕ) (l : Locals) :
    (propose g diff l).nextEstTime =
      if diff = 0 ∧ l.needToRespond = false then l.nextTime else addTime l.currentTime g.onetimestep := by
  unfold propose
  split <;> rfl

@[simp] theorem propose_nextTime (g : Integrator) (diff : ℕ) (l : Locals) :
    (propose g diff l).nextTime = l.nextTime := by
  unfold propose
  split <;> rfl

/-- A call that has seen no difference yet proposes its `nextTime`. -/
theorem propose_unlatched {g : Integrator} {diff : ℕ} {l : Locals}
    (h : (propose g diff l).needToRespond = false) :
    l.needToRespond = false ∧ (propose g diff l).nextEstTime = l.nextTime := by
  unfold propose at h ⊢
  split at h
  · next hd => exact ⟨hd.2, by rw [if_pos hd]⟩
  · cases h

/-- The end of a turn whose minimum is at most the proposal. -/
theorem conclude_least {g : Integrator} {t : TIME} {l : Locals} (h : t ≤ l.nextEstTime) :
    conclude g t l =
      if t = 0 then .finished
      else if t < l.nextEstTime then .again { l with currentTime := g.realign t, busywait := true }
      else .returned l.nextEstTime := by
  unfold conclude
  split
  · next he => simp [he]
  · next he => simp [lt_of_le_of_ne h he]

/-- At the minimum the call returns it. -/
theorem conclude_eq {g : Integrator} {l : Locals} (h : l.nextEstTime ≠ 0) :
    conclude g l.nextEstTime l = .returned l.nextEstTime := by
  simp [conclude, h]

/-- Below its own proposal the simulator waits. -/
theorem conclude_lt {g : Integrator} {l : Locals} {t : TIME} (h0 : t ≠ 0) (h : t < l.nextEstTime) :
    conclude g t l = .again { l with currentTime := g.realign t, busywait := true } := by
  simp [conclude, h0, h.ne, h]

/-- The end of any turn: the run has ended, or the call waits for what it asked, or it returns what it
proposed, which is then not after the minimum. -/
theorem conclude_cases (g : Integrator) (t : TIME) (l : Locals) :
    (t = 0 ∧ conclude g t l = .finished) ∨
    (∃ l', conclude g t l = .again l' ∧ l'.busywait = true ∧ l'.nextTime = l.nextTime ∧
      l'.needToRespond = l.needToRespond) ∨
    (l.nextEstTime ≤ t ∧ conclude g t l = .returned l.nextEstTime) := by
  by_cases h0 : t = 0
  · exact .inl ⟨h0, by simp [conclude, h0]⟩
  obtain hlt | heq | hgt := lt_trichotomy t l.nextEstTime
  · exact .inr (.inl ⟨_, conclude_lt h0 hlt, rfl, rfl, rfl⟩)
  · refine .inr (.inr ⟨heq.ge, ?_⟩)
    rw [heq]
    exact conclude_eq (heq ▸ h0)
  · have hconclude : conclude g t l = if l.busywait then .again l else .returned l.nextEstTime := by
      simp [conclude, h0, hgt.ne', hgt.not_gt]
    by_cases hb : l.busywait = true
    · exact .inr (.inl ⟨l, by rw [hconclude, if_pos hb], hb, rfl, rfl⟩)
    · exact .inr (.inr ⟨hgt.le, by rw [hconclude, if_neg hb]⟩)

/-- The loop goes on only to wait. -/
theorem busywait_of_again {g : Integrator} {l l' : Locals} {t : TIME} (h : conclude g t l = .again l') :
    l'.busywait = true := by
  obtain ⟨-, hf⟩ | ⟨m, ha, hb, -⟩ | ⟨-, hr⟩ := conclude_cases g t l
  · cases hf.symm.trans h
  · cases ha.symm.trans h
    exact hb
  · cases hr.symm.trans h

end GracePeriodSyncAlgo

namespace CommunicatorSimulatorSyncalgo

/-- How a call of the net sim ends. -/
inductive Outcome
  | returned (t : TIME)
  /-- `finished` is set, and `Infinity` returned. -/
  | finished
  deriving DecidableEq, Repr

/-- A call that asks for less than what was granted already returns at once. -/
def returnsAtOnce (grantedTime nextTime : TIME) : Bool := nextTime < grantedTime

/-- What the net sim proposes. -/
def proposal : TIME := Infinity

/-- The end of the call, once the minimum is known. -/
def conclude (minNextTime : TIME) : Outcome :=
  if minNextTime = Infinity then .finished else .returned minNextTime

/-- The framework time `GetNextTime` returns. -/
def Outcome.time : Outcome → TIME
  | .returned t => t
  | .finished => Infinity

@[simp] theorem conclude_time (t : TIME) : (conclude t).time = t := by
  unfold conclude
  split
  · next h => exact h.symm
  · rfl

end CommunicatorSimulatorSyncalgo

end Fncs

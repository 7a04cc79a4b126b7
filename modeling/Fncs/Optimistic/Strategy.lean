/-
Speculation strategies (`speculationtimecalculationstrategy.cpp`): how far past
the time of the fork a speculative child may run before it has to synchronise,
and what the end of a speculation makes of that distance.
-/
import Fncs.Sync.Time

namespace Fncs

/-- The strategies a configuration can name. -/
inductive StrategyKind
  | constant
  | increasing
  | infinity
  | infinityWithKillLast
  deriving DecidableEq, Repr

/-- A strategy adds its look-ahead to the current time, or speculates to `Infinity`. -/
def StrategyKind.bounded : StrategyKind → Bool
  | .constant | .increasing => true
  | .infinity | .infinityWithKillLast => false

structure SpeculationTimeCalculationStrategy where
  kind : StrategyKind
  specDiff : TIME
  speculationTime : TIME
  deriving DecidableEq, Repr

namespace SpeculationTimeCalculationStrategy

/-- The strategies without a bound take no look-ahead: theirs is `Infinity` nanoseconds. -/
def init (kind : StrategyKind) (metric : TimeMetric) (initialspecTime : TIME) :
    SpeculationTimeCalculationStrategy where
  kind := kind
  specDiff := if kind.bounded then convertToFrameworkTime metric initialspecTime
    else convertToFrameworkTime .nanoseconds Infinity
  speculationTime := 0

variable (st : SpeculationTimeCalculationStrategy)

def startSpeculation (currentTime : TIME) : SpeculationTimeCalculationStrategy :=
  { st with speculationTime := currentTime }

def speculationFailed (failTime : TIME) : SpeculationTimeCalculationStrategy :=
  match st.kind with
  | .increasing => { st with specDiff := subTime failTime st.speculationTime }
  | _ => st

def speculationSuceeded (currentTime : TIME) : SpeculationTimeCalculationStrategy :=
  match st.kind with
  | .increasing => { st with specDiff := addTime st.specDiff (subTime currentTime st.speculationTime) }
  | _ => st

def getNextSpecTime (currentTime : TIME) : TIME :=
  if st.kind.bounded then addTime currentTime st.specDiff else Infinity

def worthSpeculation (currentTime specFailTime : TIME) : Bool :=
  if st.kind.bounded then addTime currentTime st.specDiff < specFailTime else true

def sendUnknownAction : Bool := st.kind = .infinityWithKillLast

/-! ## Without overflow

Only the increasing strategy subtracts: the time of the fork from the time the
speculation ended at.
-/

/-- `speculationFailed` subtracts no more than there is. -/
def FailedFits (failTime : TIME) : Prop := st.kind = .increasing → st.speculationTime ≤ failTime

/-- `speculationSuceeded` subtracts no more than there is, and the sum fits. -/
def SucceededFits (currentTime : TIME) : Prop :=
  st.kind = .increasing →
    st.speculationTime ≤ currentTime ∧ st.specDiff + (currentTime - st.speculationTime) < ulongSize

/-- The sum that `getNextSpecTime` and `worthSpeculation` compute fits. -/
def TargetFits (currentTime : TIME) : Prop := st.kind.bounded = true → currentTime + st.specDiff < ulongSize

instance (t : TIME) : Decidable (st.FailedFits t) := inferInstanceAs (Decidable (_ → _))

instance (t : TIME) : Decidable (st.SucceededFits t) := inferInstanceAs (Decidable (_ → _))

instance (t : TIME) : Decidable (st.TargetFits t) := inferInstanceAs (Decidable (_ → _))

variable {st} {t : TIME}

@[simp] theorem startSpeculation_kind : (st.startSpeculation t).kind = st.kind := rfl

@[simp] theorem startSpeculation_specDiff : (st.startSpeculation t).specDiff = st.specDiff := rfl

@[simp] theorem startSpeculation_speculationTime : (st.startSpeculation t).speculationTime = t := rfl

@[simp] theorem speculationFailed_kind : (st.speculationFailed t).kind = st.kind := by
  unfold speculationFailed
  split <;> rfl

@[simp] theorem speculationFailed_speculationTime :
    (st.speculationFailed t).speculationTime = st.speculationTime := by
  unfold speculationFailed
  split <;> rfl

@[simp] theorem speculationSuceeded_kind : (st.speculationSuceeded t).kind = st.kind := by
  unfold speculationSuceeded
  split <;> rfl

/-- A speculation that failed later than it was started leaves a look-ahead. -/
theorem speculationFailed_pos (hd : 0 < st.specDiff) (h : st.kind = .increasing → st.speculationTime < t)
    (ht : t < ulongSize) : 0 < (st.speculationFailed t).specDiff := by
  unfold speculationFailed
  split
  · next hk =>
    have := h hk
    rw [subTime_of_le this.le ht]
    exact Nat.sub_pos_of_lt this
  · exact hd

/-- A speculation that succeeded leaves a look-ahead no smaller than before. -/
theorem le_speculationSuceeded (h : st.SucceededFits t) (ht : st.kind = .increasing → t < ulongSize) :
    st.specDiff ≤ (st.speculationSuceeded t).specDiff := by
  unfold speculationSuceeded
  split
  · next hk =>
    obtain ⟨hle, hfit⟩ := h hk
    rw [subTime_of_le hle (ht hk), addTime_of_lt hfit]
    exact Nat.le_add_right _ _
  · exact le_rfl

end SpeculationTimeCalculationStrategy

end Fncs

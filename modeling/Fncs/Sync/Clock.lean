/-
`Integrator::getNextTime` (`integrator.cpp`): the clock of a simulator before
and after a call, for anything the algorithm may grant. The grant is counted
from the simulator's initial time, which is added to it again, in 64 bits.
-/
import Fncs.Sync.Time

namespace Fncs.Integrator

/-- The simulator's time after a call, and what each callback is called with.
`GetNextTime` is that of the algorithm in use; what `sendAll` sends is left out. -/
def getNextTime {κ : Type} (g : Integrator) (GetNextTime : TIME → TIME → TIME) (callbacks : List κ)
    (currentTime nextTime : TIME) : TIME × List (κ × TIME) :=
  let toReturn := GetNextTime (g.toFramework currentTime) (g.toFramework nextTime)
  let simTime := g.toSimTime toReturn
  (simTime, callbacks.map fun callback => (callback, simTime))

/-- The clock does not go back: neither what is returned nor what a callback is told is before `currentTime`. -/
def Forward {κ : Type} (currentTime : TIME) (result : TIME × List (κ × TIME)) : Prop :=
  currentTime ≤ result.1 ∧ ∀ call ∈ result.2, currentTime ≤ call.2

theorem forward_iff_le {κ : Type} {g : Integrator} {GetNextTime : TIME → TIME → TIME} {callbacks : List κ}
    {currentTime nextTime : TIME} : Forward currentTime (g.getNextTime GetNextTime callbacks currentTime nextTime) ↔
      currentTime ≤ g.toSimTime (GetNextTime (g.toFramework currentTime) (g.toFramework nextTime)) := by
  constructor
  · exact And.left
  · intro h
    refine ⟨h, fun call hc => ?_⟩
    obtain ⟨callback, -, rfl⟩ := List.mem_map.mp hc
    exact h

/-- A sum that wraps is below both of its terms. -/
theorem addTime_lt_of_wrap {a b : TIME} (ha : a < ulongSize) (hb : b < ulongSize) (h : ulongSize ≤ a + b) :
    addTime a b < b := by
  rw [addTime, Nat.mod_eq_sub_mod h, Nat.mod_eq_of_lt (by unfold TIME at *; omega)]
  unfold TIME at *
  omega

/-- A grant no earlier than the clock sets it back exactly when, counted from the initial time, it leaves 64 bits. -/
theorem toSimTime_le_iff {g : Integrator} {currentTime grant : TIME} (ho : g.offset ≤ currentTime * g.simTimeMetric.scale)
    (hfit : currentTime * g.simTimeMetric.scale < ulongSize) (hle : g.toFramework currentTime ≤ grant)
    (hgrant : grant ≤ Infinity) : currentTime ≤ g.toSimTime grant ↔ grant + g.offset < ulongSize := by
  rw [toFramework_of_lt hfit ho] at hle
  rw [toSimTime, convertToMyTime, Nat.le_div_iff_mul_le g.simTimeMetric.scale_pos]
  have hlt : grant < ulongSize := by
    unfold Infinity at hgrant
    have : 0 < ulongSize := by decide
    unfold TIME at *
    omega
  constructor
  · intro h
    by_contra hwrap
    have := addTime_lt_of_wrap hlt (ho.trans_lt hfit) (not_lt.mp hwrap)
    exact absurd (h.trans_lt this) (not_lt.mpr ho)
  · intro h
    rw [addTime_of_lt h]
    unfold TIME at *
    omega

/-- `getNextTime` never sets the clock back exactly when the grant, counted from the initial time, fits 64 bits. -/
theorem clock_forward_iff {κ : Type} (metric : TimeMetric) (initialTime onetimestep : TIME)
    (GetNextTime : TIME → TIME → TIME) (callbacks : List κ) (currentTime nextTime : TIME)
    (hoffset : initialTime * metric.scale < ulongSize) (hcurrent : initialTime ≤ currentTime)
    (hfit : currentTime * metric.scale < ulongSize)
    (hle : (init metric initialTime onetimestep).toFramework currentTime ≤
      GetNextTime ((init metric initialTime onetimestep).toFramework currentTime)
        ((init metric initialTime onetimestep).toFramework nextTime))
    (hgrant : GetNextTime ((init metric initialTime onetimestep).toFramework currentTime)
      ((init metric initialTime onetimestep).toFramework nextTime) ≤ Infinity) :
    Forward currentTime ((init metric initialTime onetimestep).getNextTime GetNextTime callbacks currentTime nextTime) ↔
      GetNextTime ((init metric initialTime onetimestep).toFramework currentTime)
        ((init metric initialTime onetimestep).toFramework nextTime) +
          (init metric initialTime onetimestep).offset < ulongSize := by
  rw [forward_iff_le]
  refine toSimTime_le_iff ?_ hfit hle hgrant
  show convertToFrameworkTime metric initialTime ≤ currentTime * metric.scale
  rw [convertToFrameworkTime_of_lt hoffset]
  exact Nat.mul_le_mul_right _ hcurrent

/-- A call that is granted what it asked for. -/
theorem forward_next : Forward 1 ((init .seconds 1 1).getNextTime (fun _ next => next) [()] 1 2) :=
  (clock_forward_iff .seconds 1 1 (fun _ next => next) [()] 1 2
    (by decide) (by decide) (by decide) (by decide) (by decide)).mpr (by decide)

/-- The end of the run, granted to a simulator that started at 1 s, sets its clock to 0. -/
theorem clock_back :
    (init .seconds 1 1).getNextTime (fun _ _ => Infinity) [()] 1 2 = (0, [((), 0)]) ∧
    ¬ ∀ (metric : TimeMetric) (initialTime onetimestep : TIME) (GetNextTime : TIME → TIME → TIME)
        (currentTime nextTime : TIME), initialTime * metric.scale < ulongSize → initialTime ≤ currentTime →
      currentTime * metric.scale < ulongSize →
      (init metric initialTime onetimestep).toFramework currentTime ≤
        GetNextTime ((init metric initialTime onetimestep).toFramework currentTime)
          ((init metric initialTime onetimestep).toFramework nextTime) →
      GetNextTime ((init metric initialTime onetimestep).toFramework currentTime)
        ((init metric initialTime onetimestep).toFramework nextTime) ≤ Infinity →
      Forward currentTime
        ((init metric initialTime onetimestep).getNextTime GetNextTime [()] currentTime nextTime) := by
  refine ⟨by decide, fun hall => ?_⟩
  have hforward := hall .seconds 1 1 (fun _ _ => Infinity) 1 2 (by decide) (by decide) (by decide) (by decide)
    (by decide)
  exact absurd hforward.1 (by decide)

end Fncs.Integrator

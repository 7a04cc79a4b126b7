/-
Simulator time and framework time (`simtime.cpp`, `integrator.cpp`): a
simulator counts in its own unit from its own initial time, the framework in
nanoseconds from 0. Times are `uint64_t`: sums, differences and products wrap.
-/
import Fncs.Broker.State

namespace Fncs

/-- `time_metric`, without `UNKNOWN`, for which the conversions throw. -/
inductive TimeMetric
  | seconds
  | milliseconds
  | nanoseconds
  deriving DecidableEq, Repr

/-- Nanoseconds in one unit. -/
def TimeMetric.scale : TimeMetric → ℕ
  | .seconds => 1000000000
  | .milliseconds => 1000000
  | .nanoseconds => 1

/-- `a + b` of two `TIME`s. -/
def addTime (a b : TIME) : TIME := (a + b) % ulongSize

/-- `a - b` of two `TIME`s. -/
def subTime (a b : TIME) : TIME := (a + (ulongSize - b % ulongSize)) % ulongSize

def convertToMyTime (myTimeStep : TimeMetric) (frameworkTime : TIME) : TIME :=
  frameworkTime / myTimeStep.scale

def convertToFrameworkTime (myTimeStep : TimeMetric) (currentTime : TIME) : TIME :=
  currentTime * myTimeStep.scale % ulongSize

/-- The fields of the `Integrator` that the conversions use. -/
structure Integrator where
  simTimeMetric : TimeMetric
  offset : TIME
  onetimestep : TIME
  deriving DecidableEq, Repr

namespace Integrator

/-- The constructor, and the offset each `initIntegrator…` sets after it. -/
def init (simTimeStep : TimeMetric) (initialTime onetimestep : TIME) : Integrator where
  simTimeMetric := simTimeStep
  offset := convertToFrameworkTime simTimeStep initialTime
  onetimestep := convertToFrameworkTime simTimeStep onetimestep

/-- The framework time `getNextTime` passes on for a simulator's time. -/
def toFramework (g : Integrator) (t : TIME) : TIME :=
  subTime (convertToFrameworkTime g.simTimeMetric t) g.offset

/-- The simulator's time `getNextTime` returns for a framework time. -/
def toSimTime (g : Integrator) (t : TIME) : TIME := convertToMyTime g.simTimeMetric (addTime t g.offset)

/-- A framework time rounded down to the simulator's unit. -/
def realign (g : Integrator) (t : TIME) : TIME :=
  convertToFrameworkTime g.simTimeMetric (convertToMyTime g.simTimeMetric t)

end Integrator

/-! ## Without overflow -/

theorem TimeMetric.scale_pos (m : TimeMetric) : 0 < m.scale := by cases m <;> decide

theorem addTime_of_lt {a b : TIME} (h : a + b < ulongSize) : addTime a b = a + b := Nat.mod_eq_of_lt h

theorem subTime_of_le {a b : TIME} (h : b ≤ a) (ha : a < ulongSize) : subTime a b = a - b := by
  rw [subTime, Nat.mod_eq_of_lt (h.trans_lt ha)]
  rw [show a + (ulongSize - b) = (a - b) + ulongSize by lia, Nat.add_mod_right, Nat.mod_eq_of_lt (by lia)]

/-- When a difference of two `TIME`s, wrapped or not, is `t`. -/
theorem subTime_eq_iff {a b t : TIME} : subTime a b = t ↔ t < ulongSize ∧ a ≡ t + b [MOD ulongSize] := by
  have hsize : ulongSize = 18446744073709551616 := by decide
  unfold subTime Nat.ModEq TIME at *
  rw [hsize]
  omega

theorem convertToFrameworkTime_of_lt {m : TimeMetric} {t : TIME} (h : t * m.scale < ulongSize) :
    convertToFrameworkTime m t = t * m.scale := Nat.mod_eq_of_lt h

namespace Integrator

variable {g : Integrator}

theorem toFramework_of_lt {t : TIME} (h : t * g.simTimeMetric.scale < ulongSize)
    (ho : g.offset ≤ t * g.simTimeMetric.scale) :
    g.toFramework t = t * g.simTimeMetric.scale - g.offset := by
  rw [toFramework, convertToFrameworkTime_of_lt h, subTime_of_le ho h]

theorem realign_of_lt {t : TIME} (h : t < ulongSize) :
    g.realign t = t / g.simTimeMetric.scale * g.simTimeMetric.scale :=
  convertToFrameworkTime_of_lt ((Nat.div_mul_le_self _ _).trans_lt h)

theorem realign_le {t : TIME} (h : t < ulongSize) : g.realign t ≤ t := by
  rw [realign_of_lt h]
  exact Nat.div_mul_le_self _ _

theorem lt_realign_add {t : TIME} (h : t < ulongSize) : t < g.realign t + g.simTimeMetric.scale := by
  rw [realign_of_lt h]
  exact Nat.lt_div_mul_add g.simTimeMetric.scale_pos

theorem scale_dvd_realign {t : TIME} (h : t < ulongSize) : g.simTimeMetric.scale ∣ g.realign t := by
  rw [realign_of_lt h]
  exact Nat.dvd_mul_left _ _

end Integrator

/-! ## The simulators of a run -/

/-- What a simulator is started with, within what 64 bits hold. -/
structure Params where
  simTimeStep : TimeMetric
  initialTime : TIME
  onetimestep : TIME
  offset_fits : initialTime * simTimeStep.scale < ulongSize
  onetimestep_fits : onetimestep * simTimeStep.scale < ulongSize

namespace Params

def integrator (s : Params) : Integrator := .init s.simTimeStep s.initialTime s.onetimestep

theorem scale_dvd_offset (s : Params) : s.integrator.simTimeMetric.scale ∣ s.integrator.offset := by
  show s.simTimeStep.scale ∣ convertToFrameworkTime s.simTimeStep s.initialTime
  rw [convertToFrameworkTime_of_lt s.offset_fits]
  exact Nat.dvd_mul_left _ _

theorem scale_dvd_onetimestep (s : Params) : s.integrator.simTimeMetric.scale ∣ s.integrator.onetimestep := by
  show s.simTimeStep.scale ∣ convertToFrameworkTime s.simTimeStep s.onetimestep
  rw [convertToFrameworkTime_of_lt s.onetimestep_fits]
  exact Nat.dvd_mul_left _ _

/-- The clock of a simulator that has not been granted anything stands for framework time 0. -/
theorem clock_start (s : Params) : s.initialTime * s.integrator.simTimeMetric.scale = s.integrator.offset :=
  (convertToFrameworkTime_of_lt s.offset_fits).symm

end Params

/-- A simulator that takes a step. -/
structure Setup extends Params where
  onetimestep_pos : 1 ≤ onetimestep

theorem Setup.scale_le_onetimestep (s : Setup) : s.integrator.simTimeMetric.scale ≤ s.integrator.onetimestep := by
  show s.simTimeStep.scale ≤ convertToFrameworkTime s.simTimeStep s.onetimestep
  rw [convertToFrameworkTime_of_lt s.onetimestep_fits]
  exact Nat.le_mul_of_pos_left _ s.onetimestep_pos

/-- The simulator's clock `current` stands for the framework time `m`, exactly. -/
def Integrator.ClockAt (g : Integrator) (current m : TIME) : Prop :=
  current * g.simTimeMetric.scale = m + g.offset ∧ m + g.offset < ulongSize

namespace Integrator.ClockAt

variable {g : Integrator} {current m next : TIME}

theorem toFramework (h : g.ClockAt current m) : g.toFramework current = m := by
  rw [toFramework_of_lt (h.1 ▸ h.2) (by have := h.1; lia), h.1, Nat.add_sub_cancel]

/-- A later time of the simulator, in framework time. -/
theorem toFramework_next (h : g.ClockAt current m) (hn : current < next)
    (hf : next * g.simTimeMetric.scale < ulongSize) :
    m < g.toFramework next ∧ g.toFramework next = next * g.simTimeMetric.scale - g.offset := by
  have hlt : current * g.simTimeMetric.scale < next * g.simTimeMetric.scale :=
    Nat.mul_lt_mul_of_pos_right hn g.simTimeMetric.scale_pos
  have hc := h.1
  have he := toFramework_of_lt (g := g) hf (by lia)
  exact ⟨by lia, he⟩

/-- The clock after a grant of `t`. -/
theorem granted {t : TIME} (ho : g.simTimeMetric.scale ∣ g.offset) (ht : g.simTimeMetric.scale ∣ t)
    (hf : t + g.offset < ulongSize) : g.ClockAt (g.toSimTime t) t := by
  refine ⟨?_, hf⟩
  rw [toSimTime, convertToMyTime, addTime_of_lt hf]
  exact Nat.div_mul_cancel (Nat.dvd_add ht ho)

end Integrator.ClockAt

end Fncs

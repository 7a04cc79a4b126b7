/-
Lockstep with mixed units: any number of simulators with GracePeriodSyncAlgo and
one net sim, each with its own unit, step and initial time, each of which calls
`timeStepStart` and `getNextTime` over and over. Every call is cut at the
collectives it blocks in; the broker lets a collective go once all members of
the context wait in it, and the differences are the environment's.

A simulator whose clock is behind its granted time skips the barrier of
`timeStepStart`. The simulators are granted times of their own, so their clocks
never are. The net sim is granted every minimum, and its clock rounds it down:
when the minimum is no whole number of its units, it goes to the next reduction
while the others wait at the barrier.
-/
import Fncs.Sync.Rounds
import Fncs.Sync.Lockstep

namespace Fncs.Units

open GracePeriodSyncAlgo (Locals propose)

/-- Where a simulator is in its loop; `L` is what its call keeps. -/
inductive Place (L : Type)
  /-- About to call `timeStepStart`. -/
  | timeStepStart
  /-- In `timeStepStart`, or in the loop of `GetNextTime`. -/
  | waitforAll
  /-- About to call `getNextTime`. -/
  | getNextTime
  | sendRecv
  | networkDelay (diff : ℕ)
  | minTime (l : L)
  deriving DecidableEq, Repr

/-- The collective a simulator is blocked in. -/
def Place.blocked {L : Type} : Place L → Option Stage
  | .waitforAll => some .barrier
  | .sendRecv => some .sendRecv
  | .networkDelay _ => some .networkDelay
  | .minTime _ => some .minTime
  | .timeStepStart | .getNextTime => none

structure Tick extends Rounds.Tick where
  place : Place Locals
  deriving DecidableEq, Repr

namespace Tick

def start (s : Params) : Tick := ⟨⟨s.integrator, s.initialTime, 0, false, none⟩, .timeStepStart⟩

def timeStepStart (t : Tick) : Tick :=
  { t with place := if t.integrator.toFramework t.current < t.grantedTime then .getNextTime else .waitforAll }

/-- A call for `next`, in the simulator's own unit. -/
def getNextTime (next : TIME) (t : Tick) : Tick :=
  if t.returnsAtOnce next then
    { t with current := t.integrator.toSimTime (t.integrator.toFramework next), place := .timeStepStart }
  else { t with call := some (t.entered next), place := .sendRecv }

/-- Where a simulator goes on after the reduction of the proposals, `finished` or not. -/
def concluded (t : Rounds.Tick) : Place Locals := if t.call.isSome then .waitforAll else .timeStepStart

/-- The collective the simulator is blocked in is over. -/
def released (diff : ℕ) (minimum : TIME) (t : Tick) : Tick :=
  match t.place with
  | .waitforAll => { t with place := if t.call.isSome then .sendRecv else .getNextTime }
  | .sendRecv => { t with place := .networkDelay diff }
  | .networkDelay d =>
    match t.call with
    | some l => { t with place := .minTime (propose t.integrator d l) }
    | none => t
  | .minTime l => ⟨(t.conclude minimum l).1, concluded (t.conclude minimum l).1⟩
  | _ => t

/-- No sum the release computes needs more than 64 bits. -/
def Fits (minimum : TIME) (t : Tick) : Prop :=
  match t.place with
  | .networkDelay _ => ∀ l ∈ t.call, l.currentTime + t.integrator.onetimestep < ulongSize
  | .minTime l => l.nextEstTime = minimum → minimum + t.integrator.offset < ulongSize
  | _ => True

instance (minimum : TIME) (t : Tick) : Decidable (t.Fits minimum) := by
  unfold Fits
  split <;> infer_instance

end Tick

structure NetSim extends Rounds.NetSim where
  place : Place Unit
  deriving DecidableEq, Repr

namespace NetSim

def start (s : Params) : NetSim := ⟨⟨s.integrator, s.initialTime, 0, false⟩, .timeStepStart⟩

def timeStepStart (n : NetSim) : NetSim :=
  { n with place := if n.integrator.toFramework n.current < n.grantedTime then .getNextTime else .waitforAll }

/-- A call that returns at once returns the granted time. -/
def getNextTime (next : TIME) (n : NetSim) : NetSim :=
  if n.returnsAtOnce next then { n with current := n.integrator.toSimTime n.grantedTime, place := .timeStepStart }
  else { n with place := .sendRecv }

def released (diff : ℕ) (minimum : TIME) (n : NetSim) : NetSim :=
  match n.place with
  | .waitforAll => { n with place := .getNextTime }
  | .sendRecv => { n with place := .networkDelay diff }
  | .networkDelay _ => { n with place := .minTime () }
  | .minTime _ => ⟨(n.conclude minimum).1, .timeStepStart⟩
  | _ => n

/-- No sum the release computes needs more than 64 bits. -/
def Fits (minimum : TIME) (n : NetSim) : Prop :=
  match n.place with
  | .minTime _ => minimum + n.integrator.offset < ulongSize
  | _ => True

/-- A minimum that is granted is a whole number of the net sim's units, from its initial time on. -/
def Whole (minimum : TIME) (n : NetSim) : Prop :=
  match n.place with
  | .minTime _ => minimum = Infinity ∨ n.integrator.simTimeMetric.scale ∣ minimum + n.integrator.offset
  | _ => True

instance (minimum : TIME) (n : NetSim) : Decidable (n.Fits minimum) := by
  unfold Fits
  split <;> infer_instance

instance (minimum : TIME) (n : NetSim) : Decidable (n.Whole minimum) := by
  unfold Whole
  split <;> infer_instance

end NetSim

structure World (ι : Type) where
  ticks : ι → Tick
  netSim : NetSim

inductive Label (ι : Type)
  | timeStepStart (i : ι)
  | netTimeStepStart
  | getNextTime (i : ι) (next : TIME)
  | netGetNextTime (next : TIME)
  /-- The collective everybody is blocked in is over. -/
  | release (diff : ℕ)
  deriving DecidableEq, Repr

/-- Why a step does not take place. -/
inductive Break
  | notAllowed
  deriving DecidableEq, Repr

namespace World

variable {ι : Type}

def start (setup : ι → Params) (net : Params) : World ι where
  ticks := fun i => .start (setup i)
  netSim := .start net

/-- The collective a simulator, or the net sim (`none`), is blocked in. -/
def blocked (w : World ι) : Option ι → Option Stage
  | some i => (w.ticks i).place.blocked
  | none => w.netSim.place.blocked

variable [Fintype ι] [DecidableEq ι]

/-- The least of the proposals the simulators wait with. -/
def minimum (w : World ι) : TIME :=
  Finset.univ.fold min CommunicatorSimulatorSyncalgo.proposal fun i =>
    match (w.ticks i).place with
    | .minTime l => l.nextEstTime
    | _ => Infinity

def step (w : World ι) : Label ι → Except Break (World ι)
  | .timeStepStart i =>
    if (w.ticks i).place = .timeStepStart then
      .ok { w with ticks := Function.update w.ticks i (w.ticks i).timeStepStart }
    else .error .notAllowed
  | .netTimeStepStart =>
    if w.netSim.place = .timeStepStart then .ok { w with netSim := w.netSim.timeStepStart } else .error .notAllowed
  | .getNextTime i next =>
    if (w.ticks i).place = .getNextTime ∧ (w.ticks i).current < next then
      .ok { w with ticks := Function.update w.ticks i ((w.ticks i).getNextTime next) }
    else .error .notAllowed
  | .netGetNextTime next =>
    if w.netSim.place = .getNextTime ∧ w.netSim.current < next then
      .ok { w with netSim := w.netSim.getNextTime next }
    else .error .notAllowed
  | .release diff =>
    match w.netSim.place.blocked with
    | some q =>
      if ∀ i, (w.ticks i).place.blocked = some q then
        .ok ⟨fun i => (w.ticks i).released diff w.minimum, w.netSim.released diff w.minimum⟩
      else .error .notAllowed
    | none => .error .notAllowed

/-- No product and no sum a step computes needs more than 64 bits. -/
def Fits (w : World ι) : Label ι → Prop
  | .getNextTime i next => next * (w.ticks i).integrator.simTimeMetric.scale < ulongSize
  | .netGetNextTime next => next * w.netSim.integrator.simTimeMetric.scale < ulongSize
  | .release _ => (∀ i, (w.ticks i).Fits w.minimum) ∧ w.netSim.Fits w.minimum
  | .timeStepStart _ | .netTimeStepStart => True

/-- The least proposal is not 0, which signals the end. -/
def GoesOn (w : World ι) : Label ι → Prop
  | .release _ => ∀ l, w.netSim.place = .minTime l → w.minimum ≠ 0
  | _ => True

/-- A minimum that is granted is a time of the net sim. -/
def Whole (w : World ι) : Label ι → Prop
  | .release _ => w.netSim.Whole w.minimum
  | _ => True

/-- Simulators that are blocked are blocked in the same collective, and where
all of them are, it can be released. -/
structure InStep (w : World ι) : Prop where
  same : ∀ x y q r, w.blocked x = some q → w.blocked y = some r → q = r
  released : (∀ x, (w.blocked x).isSome = true) → ∀ diff, ∃ w', w.step (.release diff) = .ok w'

end World

/-! ## Between two collectives -/

/-- The clock is not behind the granted time. -/
def UpToDate (g : Integrator) (current granted : TIME) : Prop := ∃ m, granted ≤ m ∧ g.ClockAt current m

/-- A simulator on the way to the stage `q`, or blocked in it. -/
structure TickOnWay (q : Stage) (t : Tick) : Prop where
  offset_dvd : t.integrator.simTimeMetric.scale ∣ t.integrator.offset
  onetimestep_dvd : t.integrator.simTimeMetric.scale ∣ t.integrator.onetimestep
  idle : t.call = none → UpToDate t.integrator t.current t.grantedTime
  waiting : ∀ l ∈ t.call, t.integrator.simTimeMetric.scale ∣ l.currentTime ∧ t.integrator.simTimeMetric.scale ∣ l.nextTime
  place : match t.place with
    | .timeStepStart => q = .barrier ∧ t.call = none
    | .waitforAll => q = .barrier
    | .getNextTime => q = .sendRecv ∧ t.call = none
    | .sendRecv => q = .sendRecv ∧ t.call ≠ none
    | .networkDelay _ => q = .networkDelay ∧ t.call ≠ none
    | .minTime l => q = .minTime ∧ t.integrator.simTimeMetric.scale ∣ l.nextEstTime ∧
        t.integrator.simTimeMetric.scale ∣ l.nextTime

/-- The net sim on the way to the stage `q`, or blocked in it. -/
structure NetOnWay (q : Stage) (n : NetSim) : Prop where
  offset_dvd : n.integrator.simTimeMetric.scale ∣ n.integrator.offset
  granted_dvd : n.integrator.simTimeMetric.scale ∣ n.grantedTime
  clock : UpToDate n.integrator n.current n.grantedTime
  place : match n.place with
    | .timeStepStart | .waitforAll => q = .barrier
    | .getNextTime | .sendRecv => q = .sendRecv
    | .networkDelay _ => q = .networkDelay
    | .minTime _ => q = .minTime

/-- All simulators are on the way to one stage. -/
structure OnWay (q : Stage) {ι : Type} (w : World ι) : Prop where
  ticks : ∀ i, TickOnWay q (w.ticks i)
  netSim : NetOnWay q w.netSim

theorem TickOnWay.blocked {q r : Stage} {t : Tick} (h : TickOnWay q t) (hb : t.place.blocked = some r) : r = q := by
  have hp := h.place
  cases ht : t.place <;> rw [ht] at hp hb <;> cases hb <;> first | exact hp.symm | exact hp.1.symm

theorem NetOnWay.blocked {q r : Stage} {n : NetSim} (h : NetOnWay q n) (hb : n.place.blocked = some r) : r = q := by
  have hp := h.place
  cases hn : n.place <;> rw [hn] at hp hb <;> cases hb <;> exact hp.symm

/-! ## Clocks -/

theorem upToDate_start (s : Params) : UpToDate s.integrator s.initialTime 0 := by
  have ho : s.integrator.offset = s.initialTime * s.simTimeStep.scale := convertToFrameworkTime_of_lt s.offset_fits
  refine ⟨0, le_rfl, ?_, ?_⟩
  · rw [ho, Nat.zero_add]
    rfl
  · rw [ho, Nat.zero_add]
    exact s.offset_fits

namespace UpToDate

variable {g : Integrator} {current granted next : TIME}

theorem not_lt (h : UpToDate g current granted) : ¬ g.toFramework current < granted := by
  obtain ⟨m, hle, hclock⟩ := h
  rw [hclock.toFramework]
  exact Nat.not_lt.mpr hle

theorem scale_dvd_toFramework (h : UpToDate g current granted) (ho : g.simTimeMetric.scale ∣ g.offset) :
    g.simTimeMetric.scale ∣ g.toFramework current := by
  obtain ⟨m, -, hclock⟩ := h
  rw [hclock.toFramework]
  exact (Nat.dvd_add_left ho).mp (hclock.1 ▸ Nat.dvd_mul_left _ _)

/-- A call for a later time is for one that is past the granted time. -/
theorem toFramework_next (h : UpToDate g current granted) (ho : g.simTimeMetric.scale ∣ g.offset) (hn : current < next)
    (hf : next * g.simTimeMetric.scale < ulongSize) :
    granted < g.toFramework next ∧ g.simTimeMetric.scale ∣ g.toFramework next := by
  obtain ⟨m, hle, hclock⟩ := h
  obtain ⟨hlt, he⟩ := hclock.toFramework_next hn hf
  refine ⟨hle.trans_lt hlt, ?_⟩
  rw [he]
  exact Nat.dvd_sub (Nat.dvd_mul_left _ _) ho

/-- A grant of a time of the simulator's own. -/
theorem of_grant {t : TIME} (ho : g.simTimeMetric.scale ∣ g.offset) (ht : g.simTimeMetric.scale ∣ t)
    (hf : t + g.offset < ulongSize) : UpToDate g (g.toSimTime t) t :=
  ⟨t, le_rfl, .granted ho ht hf⟩

/-- `Infinity`, rounded down, is not before a time of the simulator. -/
theorem infinity (h : UpToDate g current granted) (hd : g.simTimeMetric.scale ∣ granted)
    (hf : Infinity + g.offset < ulongSize) : UpToDate g (g.toSimTime Infinity) granted := by
  obtain ⟨m, hle, -, hm⟩ := h
  have ho : g.offset = 0 := by
    have : Infinity + 1 = ulongSize := rfl
    lia
  have hgr : granted ≤ Infinity := Nat.le_sub_one_of_lt (by lia)
  refine ⟨Infinity / g.simTimeMetric.scale * g.simTimeMetric.scale, ?_, ?_, ?_⟩
  · obtain ⟨k, rfl⟩ := hd
    rw [Nat.mul_comm]
    exact Nat.mul_le_mul_right _ ((Nat.le_div_iff_mul_le g.simTimeMetric.scale_pos).mpr (Nat.mul_comm .. ▸ hgr))
  · rw [Integrator.toSimTime, convertToMyTime, addTime_of_lt hf, ho]
    rfl
  · rw [ho]
    exact (Nat.div_mul_le_self _ _).trans_lt (by decide)

end UpToDate

/-! ## One simulator -/

namespace TickOnWay

variable {minimum : TIME} {q : Stage} {t : Tick} {diff : ℕ}

theorem start (s : Params) : TickOnWay .barrier (.start s) :=
  ⟨s.scale_dvd_offset, s.scale_dvd_onetimestep, fun _ => upToDate_start s, fun l hl => absurd hl (Option.not_mem_none l), rfl, rfl⟩

/-- A simulator's clock stands for what it was granted: it waits at the barrier. -/
theorem timeStepStart (h : TickOnWay q t) (hp : t.place = .timeStepStart) : TickOnWay q t.timeStepStart := by
  obtain ⟨rfl, hc⟩ : q = .barrier ∧ t.call = none := by
    have := h.place
    rwa [hp] at this
  refine ⟨h.offset_dvd, h.onetimestep_dvd, h.idle, h.waiting, ?_⟩
  unfold Tick.timeStepStart
  rw [if_neg (h.idle hc).not_lt]

/-- A call does not return at once. -/
theorem getNextTime {next : TIME} (h : TickOnWay q t) (hp : t.place = .getNextTime) (hn : t.current < next)
    (hf : next * t.integrator.simTimeMetric.scale < ulongSize) : TickOnWay q (t.getNextTime next) := by
  obtain ⟨rfl, hc⟩ : q = .sendRecv ∧ t.call = none := by
    have := h.place
    rwa [hp] at this
  obtain ⟨hlt, hdvd⟩ := (h.idle hc).toFramework_next h.offset_dvd hn hf
  have hnot : ¬ t.returnsAtOnce next = true := by
    simp only [Rounds.Tick.returnsAtOnce, GracePeriodSyncAlgo.returnsAtOnce, Bool.and_eq_true, decide_eq_true_eq,
      not_and, not_lt]
    exact fun _ => hlt.le
  unfold Tick.getNextTime
  rw [if_neg hnot]
  refine ⟨h.offset_dvd, h.onetimestep_dvd, fun hc => absurd hc (Option.some_ne_none _), fun l hl => ?_, rfl,
    Option.some_ne_none _⟩
  cases hl
  simp only [Rounds.Tick.entered, hc, Option.getD_none]
  exact ⟨(h.idle hc).scale_dvd_toFramework h.offset_dvd, hdvd⟩

theorem released_barrier (h : TickOnWay q t) (hb : t.place.blocked = some .barrier) :
    TickOnWay .sendRecv (t.released diff minimum) := by
  have hp : t.place = .waitforAll := by cases ht : t.place <;> rw [ht] at hb <;> first | rfl | cases hb
  unfold Tick.released
  rw [hp]
  refine ⟨h.offset_dvd, h.onetimestep_dvd, h.idle, h.waiting, ?_⟩
  cases hc : t.call <;> simp

theorem released_sendRecv (h : TickOnWay q t) (hb : t.place.blocked = some .sendRecv) :
    TickOnWay .networkDelay (t.released diff minimum) := by
  have hp : t.place = .sendRecv := by cases ht : t.place <;> rw [ht] at hb <;> first | rfl | cases hb
  have hpl := h.place
  rw [hp] at hpl
  unfold Tick.released
  rw [hp]
  exact ⟨h.offset_dvd, h.onetimestep_dvd, h.idle, h.waiting, rfl, hpl.2⟩

/-- What a simulator proposes is a time of its own. -/
theorem scale_dvd_propose {d : ℕ} {l : Locals} (h : TickOnWay q t) (hl : t.call = some l)
    (hf : l.currentTime + t.integrator.onetimestep < ulongSize) :
    t.integrator.simTimeMetric.scale ∣ (propose t.integrator d l).nextEstTime := by
  obtain ⟨hcur, hnext⟩ := h.waiting l hl
  rw [GracePeriodSyncAlgo.propose_nextEstTime]
  split
  · exact hnext
  · rw [addTime_of_lt hf]
    exact Nat.dvd_add hcur h.onetimestep_dvd

theorem released_networkDelay (h : TickOnWay q t) (hb : t.place.blocked = some .networkDelay)
    (hf : ∀ l ∈ t.call, l.currentTime + t.integrator.onetimestep < ulongSize) :
    TickOnWay .minTime (t.released diff minimum) := by
  obtain ⟨d, hp⟩ : ∃ d, t.place = .networkDelay d := by
    cases ht : t.place <;> rw [ht] at hb <;> first | exact ⟨_, rfl⟩ | cases hb
  have hpl := h.place
  rw [hp] at hpl
  obtain ⟨l, hl⟩ := Option.ne_none_iff_exists'.mp hpl.2
  unfold Tick.released
  rw [hp]
  dsimp only
  rw [hl]
  refine ⟨h.offset_dvd, h.onetimestep_dvd, h.idle, h.waiting, rfl, h.scale_dvd_propose hl (hf l hl), ?_⟩
  rw [GracePeriodSyncAlgo.propose_nextTime]
  exact (h.waiting l hl).2

/-- At the minimum the simulator is granted a time of its own; above it, it goes on waiting. -/
theorem released_minTime {l : Locals} (h : TickOnWay q t) (hp : t.place = .minTime l) (h0 : minimum ≠ 0)
    (hle : minimum ≤ l.nextEstTime) (hsize : minimum < ulongSize)
    (hf : l.nextEstTime = minimum → minimum + t.integrator.offset < ulongSize) :
    TickOnWay .barrier (t.released diff minimum) := by
  have hpl := h.place
  rw [hp] at hpl
  obtain ⟨-, hest, hnext⟩ := hpl
  unfold Tick.released
  rw [hp]
  dsimp only
  rcases eq_or_lt_of_le hle with rfl | hlt
  · rw [Rounds.Tick.conclude, GracePeriodSyncAlgo.conclude_eq h0]
    exact ⟨h.offset_dvd, h.onetimestep_dvd, fun _ => .of_grant h.offset_dvd hest (hf rfl),
      fun l hl => absurd hl (Option.not_mem_none l), rfl, rfl⟩
  · rw [Rounds.Tick.conclude, GracePeriodSyncAlgo.conclude_lt h0 hlt]
    refine ⟨h.offset_dvd, h.onetimestep_dvd, fun hc => absurd hc (Option.some_ne_none _), fun l' hl => ?_, rfl⟩
    cases hl
    exact ⟨Integrator.scale_dvd_realign hsize, hnext⟩

end TickOnWay

/-! ## The net sim -/

namespace NetOnWay

variable {minimum : TIME} {q : Stage} {n : NetSim} {diff : ℕ}

theorem start (s : Params) : NetOnWay .barrier (.start s) :=
  ⟨s.scale_dvd_offset, Nat.dvd_zero _, upToDate_start s, rfl⟩

theorem timeStepStart (h : NetOnWay q n) (hp : n.place = .timeStepStart) : NetOnWay q n.timeStepStart := by
  have hpl := h.place
  rw [hp] at hpl
  refine ⟨h.offset_dvd, h.granted_dvd, h.clock, ?_⟩
  unfold NetSim.timeStepStart
  rw [if_neg h.clock.not_lt]
  exact hpl

theorem getNextTime {next : TIME} (h : NetOnWay q n) (hp : n.place = .getNextTime) (hn : n.current < next)
    (hf : next * n.integrator.simTimeMetric.scale < ulongSize) : NetOnWay q (n.getNextTime next) := by
  have hpl := h.place
  rw [hp] at hpl
  have hnot : ¬ n.returnsAtOnce next = true := by
    simp only [Rounds.NetSim.returnsAtOnce, CommunicatorSimulatorSyncalgo.returnsAtOnce, decide_eq_true_eq, not_lt]
    exact (h.clock.toFramework_next h.offset_dvd hn hf).1.le
  unfold NetSim.getNextTime
  rw [if_neg hnot]
  exact ⟨h.offset_dvd, h.granted_dvd, h.clock, hpl⟩

/-- A stage before the last is over. -/
theorem released (h : NetOnWay q n) (hb : n.place.blocked = some q) (hq : q ≠ .minTime) :
    NetOnWay q.next (n.released diff minimum) := by
  unfold NetSim.released
  cases hp : n.place <;> rw [hp] at hb <;> cases hb
  · exact ⟨h.offset_dvd, h.granted_dvd, h.clock, rfl⟩
  · exact ⟨h.offset_dvd, h.granted_dvd, h.clock, rfl⟩
  · exact ⟨h.offset_dvd, h.granted_dvd, h.clock, rfl⟩
  · exact absurd rfl hq

/-- The net sim is granted every minimum; its clock stands for it if it is a whole number of units. -/
theorem released_minTime (h : NetOnWay q n) (hp : n.place = .minTime ()) (hf : minimum + n.integrator.offset < ulongSize)
    (hw : minimum = Infinity ∨ n.integrator.simTimeMetric.scale ∣ minimum + n.integrator.offset) :
    NetOnWay .barrier (n.released diff minimum) := by
  unfold NetSim.released
  rw [hp]
  dsimp only
  by_cases hi : minimum = Infinity
  · subst hi
    rw [Rounds.NetSim.conclude_infinity]
    exact ⟨h.offset_dvd, h.granted_dvd, h.clock.infinity h.granted_dvd hf, rfl⟩
  · have hdvd : n.integrator.simTimeMetric.scale ∣ minimum :=
      (Nat.dvd_add_left h.offset_dvd).mp (hw.resolve_left hi)
    rw [Rounds.NetSim.conclude_of_ne hi]
    exact ⟨h.offset_dvd, hdvd, .of_grant h.offset_dvd hdvd hf, rfl⟩

end NetOnWay

/-! ## All of them -/

namespace World

variable {ι : Type} [Fintype ι] {w w' : World ι} {i : ι} {diff : ℕ}

theorem minimum_le {l : Locals} (hp : (w.ticks i).place = .minTime l) : w.minimum ≤ l.nextEstTime := by
  refine (Finset.fold_min_le _).mpr (.inr ⟨i, Finset.mem_univ i, ?_⟩)
  rw [hp]

theorem minimum_le_infinity (w : World ι) : w.minimum ≤ Infinity := (Finset.fold_min_le _).mpr (.inl le_rfl)

/-- The least proposal is the net sim's, or that of a simulator. -/
theorem minimum_eq (w : World ι) :
    w.minimum = Infinity ∨ ∃ i l, (w.ticks i).place = .minTime l ∧ w.minimum = l.nextEstTime := by
  rcases (Finset.fold_min_le _).mp (le_refl w.minimum) with h | ⟨i, -, h⟩
  · exact .inl (le_antisymm w.minimum_le_infinity h)
  · cases hp : (w.ticks i).place with
    | minTime l =>
      rw [hp] at h
      exact .inr ⟨i, l, hp, le_antisymm (minimum_le hp) h⟩
    | _ =>
      rw [hp] at h
      exact .inl (le_antisymm w.minimum_le_infinity h)

/-- A release happens in one collective, for everybody. -/
theorem release_ok [DecidableEq ι] : w.step (.release diff) = .ok w' ↔
    ∃ q, (∀ x, w.blocked x = some q) ∧
      w' = ⟨fun i => (w.ticks i).released diff w.minimum, w.netSim.released diff w.minimum⟩ := by
  constructor
  · intro h
    simp only [step] at h
    split at h
    · next q hq =>
      split at h
      · next hall =>
        cases h
        exact ⟨q, Option.forall.mpr ⟨hq, hall⟩, rfl⟩
      · cases h
    · cases h
  · rintro ⟨q, hall, rfl⟩
    have hq : w.netSim.place.blocked = some q := hall none
    simp only [step, hq]
    exact if_pos fun i => hall (some i)

/-- One of them moves by itself, or everybody is released. -/
theorem step_cases [DecidableEq ι] {l : Label ι} (h : w.step l = .ok w') :
    (∃ i, l = .timeStepStart i ∧ (w.ticks i).place = .timeStepStart ∧
      w' = { w with ticks := Function.update w.ticks i (w.ticks i).timeStepStart }) ∨
    (l = .netTimeStepStart ∧ w.netSim.place = .timeStepStart ∧ w' = { w with netSim := w.netSim.timeStepStart }) ∨
    (∃ i next, l = .getNextTime i next ∧ (w.ticks i).place = .getNextTime ∧ (w.ticks i).current < next ∧
      w' = { w with ticks := Function.update w.ticks i ((w.ticks i).getNextTime next) }) ∨
    (∃ next, l = .netGetNextTime next ∧ w.netSim.place = .getNextTime ∧ w.netSim.current < next ∧
      w' = { w with netSim := w.netSim.getNextTime next }) ∨
    (∃ diff q, l = .release diff ∧ (∀ x, w.blocked x = some q) ∧
      w' = ⟨fun i => (w.ticks i).released diff w.minimum, w.netSim.released diff w.minimum⟩) := by
  cases l with
  | release diff =>
    obtain ⟨q, hall, rfl⟩ := release_ok.mp h
    exact .inr (.inr (.inr (.inr ⟨diff, q, rfl, hall, rfl⟩)))
  | timeStepStart i =>
    simp only [step] at h
    split at h
    · next hp => cases h; exact .inl ⟨i, rfl, hp, rfl⟩
    · cases h
  | netTimeStepStart =>
    simp only [step] at h
    split at h
    · next hp => cases h; exact .inr (.inl ⟨rfl, hp, rfl⟩)
    · cases h
  | getNextTime i next =>
    simp only [step] at h
    split at h
    · next hp => cases h; exact .inr (.inr (.inl ⟨i, next, rfl, hp.1, hp.2, rfl⟩))
    · cases h
  | netGetNextTime next =>
    simp only [step] at h
    split at h
    · next hp => cases h; exact .inr (.inr (.inr (.inl ⟨next, rfl, hp.1, hp.2, rfl⟩)))
    · cases h

end World

namespace OnWay

open World

variable {ι : Type} {q : Stage} {w w' : World ι} {i : ι} {diff : ℕ}

theorem start (setup : ι → Params) (net : Params) : OnWay .barrier (World.start setup net) :=
  ⟨fun i => .start (setup i), .start net⟩

theorem blocked_eq (h : OnWay q w) {x : Option ι} {r : Stage} (hb : w.blocked x = some r) : r = q := by
  cases x with
  | none => exact h.netSim.blocked hb
  | some i => exact (h.ticks i).blocked hb

/-- A simulator moves by itself. -/
theorem update [DecidableEq ι] (h : OnWay q w) {t : Tick} (ht : TickOnWay q t) :
    OnWay q { w with ticks := Function.update w.ticks i t } := by
  refine ⟨fun j => ?_, h.netSim⟩
  dsimp only
  by_cases hj : j = i
  · subst hj
    rw [Function.update_self]
    exact ht
  · rw [Function.update_of_ne hj]
    exact h.ticks j

variable [Fintype ι]

/-- The collective at the stage `q` is over: all are on the way to the next. -/
theorem release (h : OnWay q w) (hall : ∀ x, w.blocked x = some q) (hf : w.Fits (.release diff))
    (hg : w.GoesOn (.release diff)) (hw : w.Whole (.release diff)) :
    OnWay q.next ⟨fun i => (w.ticks i).released diff w.minimum, w.netSim.released diff w.minimum⟩ := by
  have hticks : ∀ i, (w.ticks i).place.blocked = some q := fun i => hall (some i)
  have hnet : w.netSim.place.blocked = some q := hall none
  cases q with
  | barrier => exact ⟨fun i => (h.ticks i).released_barrier (hticks i), h.netSim.released hnet nofun⟩
  | sendRecv => exact ⟨fun i => (h.ticks i).released_sendRecv (hticks i), h.netSim.released hnet nofun⟩
  | networkDelay =>
    refine ⟨fun i => (h.ticks i).released_networkDelay (hticks i) ?_, h.netSim.released hnet nofun⟩
    have hfi := hf.1 i
    have hb := hticks i
    unfold Tick.Fits at hfi
    cases hp : (w.ticks i).place <;> rw [hp] at hb hfi <;> cases hb
    exact hfi
  | minTime =>
    obtain ⟨l, hp⟩ : ∃ l, w.netSim.place = .minTime l := by
      cases hp : w.netSim.place <;> rw [hp] at hnet <;> first | exact ⟨_, rfl⟩ | cases hnet
    have hsize : w.minimum < ulongSize := lt_of_le_of_lt w.minimum_le_infinity (by decide)
    refine ⟨fun i => ?_, ?_⟩
    · have hfi := hf.1 i
      have hb := hticks i
      unfold Tick.Fits at hfi
      cases ht : (w.ticks i).place <;> rw [ht] at hb hfi <;> cases hb
      exact (h.ticks i).released_minTime ht (hg l hp) (minimum_le ht) hsize hfi
    · have hfn := hf.2
      unfold NetSim.Fits at hfn
      unfold World.Whole NetSim.Whole at hw
      rw [hp] at hfn hw
      exact h.netSim.released_minTime hp hfn hw

theorem step [DecidableEq ι] {l : Label ι} (h : OnWay q w) (hc : w.Fits l ∧ w.GoesOn l ∧ w.Whole l)
    (hs : w.step l = .ok w') : ∃ q', OnWay q' w' := by
  obtain ⟨i, rfl, hp, rfl⟩ | ⟨rfl, hp, rfl⟩ | ⟨i, next, rfl, hp, hn, rfl⟩ | ⟨next, rfl, hp, hn, rfl⟩ |
    ⟨diff, r, rfl, hall, rfl⟩ := step_cases hs
  · exact ⟨q, h.update ((h.ticks i).timeStepStart hp)⟩
  · exact ⟨q, h.ticks, h.netSim.timeStepStart hp⟩
  · exact ⟨q, h.update ((h.ticks i).getNextTime hp hn hc.1)⟩
  · exact ⟨q, h.ticks, h.netSim.getNextTime hp hn hc.1⟩
  · obtain rfl := h.blocked_eq (hall none)
    exact ⟨r.next, h.release hall hc.1 hc.2.1 hc.2.2⟩

theorem inStep [DecidableEq ι] (h : OnWay q w) : w.InStep where
  same x y q' r hx hy := (h.blocked_eq hx).trans (h.blocked_eq hy).symm
  released hall diff := by
    refine ⟨_, release_ok.mpr ⟨q, fun x => ?_, rfl⟩⟩
    obtain ⟨r, hr⟩ := Option.isSome_iff_exists.mp (hall x)
    rw [hr, h.blocked_eq hr]

end OnWay

/-! ## A net sim with the finest unit -/

@[simp] theorem Tick.timeStepStart_integrator (t : Tick) : t.timeStepStart.integrator = t.integrator := rfl

@[simp] theorem Tick.getNextTime_integrator (t : Tick) (next : TIME) :
    (t.getNextTime next).integrator = t.integrator := by
  unfold Tick.getNextTime
  split <;> rfl

@[simp] theorem Tick.released_integrator (t : Tick) (diff : ℕ) (minimum : TIME) :
    (t.released diff minimum).integrator = t.integrator := by
  unfold Tick.released
  cases t.place with
  | minTime l =>
    show (t.toTick.conclude minimum l).1.integrator = t.integrator
    unfold Rounds.Tick.conclude
    split <;> rfl
  | networkDelay d => cases t.call <;> rfl
  | _ => rfl

@[simp] theorem NetSim.timeStepStart_integrator (n : NetSim) : n.timeStepStart.integrator = n.integrator := rfl

@[simp] theorem NetSim.getNextTime_integrator (n : NetSim) (next : TIME) :
    (n.getNextTime next).integrator = n.integrator := by
  unfold NetSim.getNextTime
  split <;> rfl

@[simp] theorem NetSim.released_integrator (n : NetSim) (diff : ℕ) (minimum : TIME) :
    (n.released diff minimum).integrator = n.integrator := by
  unfold NetSim.released
  cases n.place with
  | minTime _ =>
    show (n.toNetSim.conclude minimum).1.integrator = n.integrator
    unfold Rounds.NetSim.conclude
    dsimp only
    split <;> rfl
  | _ => rfl

/-- Every time of a simulator is a time of the net sim. -/
def World.NetFinest {ι : Type} (w : World ι) : Prop :=
  ∀ i, w.netSim.integrator.simTimeMetric.scale ∣ (w.ticks i).integrator.simTimeMetric.scale

namespace World.NetFinest

variable {ι : Type} {w w' : World ι}

theorem update [DecidableEq ι] {i : ι} {t : Tick} (h : w.NetFinest) (ht : t.integrator = (w.ticks i).integrator) :
    NetFinest { w with ticks := Function.update w.ticks i t } := by
  intro j
  by_cases hj : j = i
  · subst hj
    simpa [ht] using h j
  · simpa [hj] using h j

variable [Fintype ι]

theorem step [DecidableEq ι] {l : Label ι} (h : w.NetFinest) (hs : w.step l = .ok w') : w'.NetFinest := by
  obtain ⟨i, rfl, -, rfl⟩ | ⟨rfl, -, rfl⟩ | ⟨i, next, rfl, -, -, rfl⟩ | ⟨next, rfl, -, -, rfl⟩ |
    ⟨diff, r, rfl, -, rfl⟩ := step_cases hs
  · exact h.update (by simp)
  · intro i
    simpa using h i
  · exact h.update (by simp)
  · intro i
    simpa using h i
  · intro i
    simpa using h i

/-- Every minimum is then a time of the net sim. -/
theorem whole {q : Stage} (h : w.NetFinest) (ho : OnWay q w) (l : Label ι) : w.Whole l := by
  cases l with
  | release diff =>
    show w.netSim.Whole w.minimum
    unfold NetSim.Whole
    split
    · rcases w.minimum_eq with hi | ⟨i, l, hp, he⟩
      · exact .inl hi
      · have hpl := (ho.ticks i).place
        rw [hp] at hpl
        exact .inr (Nat.dvd_add (he ▸ (h i).trans hpl.2.1) ho.netSim.offset_dvd)
    · trivial
  | _ => trivial

end World.NetFinest

/-! ## Runs -/

namespace World

variable {ι : Type} [Fintype ι] [DecidableEq ι]

instance (w : World ι) : (l : Label ι) → Decidable (w.Fits l)
  | .getNextTime _ _ | .netGetNextTime _ => inferInstanceAs (Decidable (_ < _))
  | .release _ => inferInstanceAs (Decidable (_ ∧ _))
  | .timeStepStart _ | .netTimeStepStart => isTrue trivial

instance (w : World ι) : (l : Label ι) → Decidable (w.Whole l)
  | .release _ => inferInstanceAs (Decidable (w.netSim.Whole w.minimum))
  | .timeStepStart _ | .netTimeStepStart | .getNextTime _ _ | .netGetNextTime _ => isTrue trivial

instance (w : World ι) : (l : Label ι) → Decidable (w.GoesOn l)
  | .release _ => inferInstanceAs (Decidable (∀ _ : Unit, _ → w.minimum ≠ 0))
  | .timeStepStart _ | .netTimeStepStart | .getNextTime _ _ | .netGetNextTime _ => isTrue trivial

variable (setup : ι → Params) (net : Params) {ls : List (Label ι)}

/-- As long as every minimum that is granted is a time of the net sim, the
simulators that are blocked are blocked in one collective. -/
theorem in_step_of_whole
    (hg : Trace.Guarded step (fun w l => w.Fits l ∧ w.GoesOn l ∧ w.Whole l) (start setup net) ls) :
    Trace.Always step InStep (start setup net) ls := by
  refine (Trace.always_of_guarded (I := fun w => ∃ q, OnWay q w) ?_ ⟨.barrier, .start setup net⟩ hg).imp
    fun w ⟨_, h⟩ => h.inStep
  rintro w l w' ⟨q, h⟩ hc hs
  exact h.step hc hs

/-- Counts in `m` from 0, and steps by one. -/
def fromZero (m : TimeMetric) : Params := ⟨m, 0, 1, by cases m <;> decide, by cases m <;> decide⟩

/-- A simulator in milliseconds and a net sim in seconds. -/
def coarseNet : World (Fin 1) := start (fun _ => fromZero .milliseconds) (fromZero .seconds)

/-- The first grant, to a simulator that asks for `next`. -/
def upToGrant (next : TIME) : List (Label (Fin 1)) :=
  [.timeStepStart 0, .netTimeStepStart, .release 0, .getNextTime 0 next, .netGetNextTime 1, .release 0, .release 0,
    .release 0]

/-- A grant of two seconds, and the next barrier. -/
theorem in_step_of_whole_two : Trace.Always step InStep coarseNet
    (upToGrant 2000 ++ [.timeStepStart 0, .netTimeStepStart, .release 0]) :=
  in_step_of_whole _ _ (by decide +kernel)

/-- Granted half a second, the net sim's clock shows 0: it skips the barrier the simulator waits at. -/
theorem coarse_net_stuck : ∃ (ls : List (Label (Fin 1))) (w : World (Fin 1)),
    Trace.Guarded step (fun w l => w.Fits l ∧ w.GoesOn l) coarseNet ls ∧
      Trace.run step coarseNet ls = .ok w ∧ ¬ w.InStep ∧
      (∀ x, (w.blocked x).isSome = true) ∧ ∀ diff w', w.step (.release diff) ≠ .ok w' := by
  obtain ⟨w, hr, hw⟩ := Trace.exists_run_of_check step coarseNet
    (upToGrant 500 ++ [.timeStepStart 0, .netTimeStepStart, .netGetNextTime 1])
    (fun w => w.blocked (some 0) = some .barrier ∧ w.blocked none = some .sendRecv) (by decide +kernel)
  obtain ⟨htick, hnet⟩ := of_decide_eq_true hw
  refine ⟨_, w, by decide +kernel, hr, fun h => ?_, ?_, fun diff w' hs => ?_⟩
  · cases h.same _ _ _ _ htick hnet
  · rintro (- | i)
    · simp [hnet]
    · simp [Subsingleton.elim i 0, htick]
  · obtain ⟨q, hall, -⟩ := release_ok.mp hs
    cases (hall (some 0)).symm.trans htick
    cases (hall none).symm.trans hnet

/-- It suffices that the net sim's unit divides all others. -/
theorem in_step_of_netFinest (hu : (start setup net).NetFinest)
    (hg : Trace.Guarded step (fun w l => w.Fits l ∧ w.GoesOn l) (start setup net) ls) :
    Trace.Always step InStep (start setup net) ls := by
  refine (Trace.always_of_guarded (I := fun w => (∃ q, OnWay q w) ∧ w.NetFinest) ?_
    ⟨⟨.barrier, .start setup net⟩, hu⟩ hg).imp fun w ⟨⟨_, h⟩, _⟩ => h.inStep
  rintro w l w' ⟨⟨q, h⟩, hw⟩ hc hs
  exact ⟨h.step ⟨hc.1, hc.2, hw.whole h l⟩ hs, hw.step hs⟩

end World

end Fncs.Units

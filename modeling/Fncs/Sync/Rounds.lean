/-
Round-synchronous runs of the plain conservative algorithms: any number of
simulators with GracePeriodSyncAlgo, each with its own unit, step and initial
time, and one net sim. Every simulator takes part in every round; a round
gives all of them the same difference and the least of their proposals. The
environment chooses the differences and the times each new call asks for.
-/
import Fncs.Sync.GracePeriod
import Fncs.Lib.Trace

namespace Fncs.Rounds

open GracePeriodSyncAlgo (Locals propose conclude enter)

/-- A simulator: its clock is the time its last call returned; `call` is the
call of `GetNextTime` it is in. -/
structure Tick where
  integrator : Integrator
  current : TIME
  grantedTime : TIME
  finished : Bool
  call : Option Locals
  deriving DecidableEq, Repr

namespace Tick

def start (s : Setup) : Tick where
  integrator := s.integrator
  current := s.initialTime
  grantedTime := 0
  finished := false
  call := none

/-- A new call that would return without taking part in the round. -/
def returnsAtOnce (t : Tick) (next : TIME) : Bool :=
  t.call.isNone && GracePeriodSyncAlgo.returnsAtOnce t.grantedTime (t.integrator.toFramework next)

/-- The call the simulator is in during the round: a new one, for `next`, if it was in none. -/
def entered (t : Tick) (next : TIME) : Locals :=
  t.call.getD (enter (t.integrator.toFramework t.current) (t.integrator.toFramework next))

/-- The call once the difference is known. -/
def proposed (t : Tick) (diff : ℕ) (next : TIME) : Locals := propose t.integrator diff (t.entered next)

/-- What the simulator proposes. -/
def proposal (t : Tick) (diff : ℕ) (next : TIME) : TIME := (t.proposed diff next).nextEstTime

/-- The end of the round for the simulator: what its call returned, if it did. -/
def conclude (t : Tick) (min : TIME) (l : Locals) : Tick × Option TIME :=
  match GracePeriodSyncAlgo.conclude t.integrator min l with
  | .again l => ({ t with call := some l }, none)
  | .returned r => ({ t with call := none, grantedTime := r, current := t.integrator.toSimTime r }, some r)
  | .finished => ({ t with call := none, finished := true, current := t.integrator.toSimTime 0 }, some 0)

end Tick

/-- The net sim, between two of its calls. -/
structure NetSim where
  integrator : Integrator
  current : TIME
  grantedTime : TIME
  finished : Bool
  deriving DecidableEq, Repr

namespace NetSim

def start (s : Setup) : NetSim where
  integrator := s.integrator
  current := s.initialTime
  grantedTime := 0
  finished := false

def returnsAtOnce (n : NetSim) (next : TIME) : Bool :=
  CommunicatorSimulatorSyncalgo.returnsAtOnce n.grantedTime (n.integrator.toFramework next)

/-- The end of the round for the net sim, and what its call returned. -/
def conclude (n : NetSim) (min : TIME) : NetSim × TIME :=
  let outcome := CommunicatorSimulatorSyncalgo.conclude min
  let current := n.integrator.toSimTime outcome.time
  match outcome with
  | .returned r => ({ n with current := current, grantedTime := r }, r)
  | .finished => ({ n with current := current, finished := true }, outcome.time)

theorem conclude_infinity (n : NetSim) : n.conclude Infinity =
    ({ n with current := n.integrator.toSimTime Infinity, finished := true }, Infinity) := by
  simp [conclude, CommunicatorSimulatorSyncalgo.conclude, CommunicatorSimulatorSyncalgo.Outcome.time]

theorem conclude_of_ne {n : NetSim} {min : TIME} (h : min ≠ Infinity) : n.conclude min =
    ({ n with current := n.integrator.toSimTime min, grantedTime := min }, min) := by
  simp [conclude, CommunicatorSimulatorSyncalgo.conclude, CommunicatorSimulatorSyncalgo.Outcome.time, h]

end NetSim

/-- What a round leaves to be seen: framework times throughout. -/
structure Round (ι : Type) where
  min : TIME
  proposal : ι → TIME
  returned : ι → Option TIME
  netReturned : TIME

/-- The simulators, and the rounds so far. -/
structure World (ι : Type) where
  ticks : ι → Tick
  netSim : NetSim
  log : List (Round ι)

/-- What the environment chooses for a round. `next` is what the simulators that
are in no call ask for, in their own units. -/
structure Input (ι : Type) where
  diff : ℕ
  next : ι → TIME
  netNext : TIME

/-- Why a round does not take place. -/
inductive Break
  /-- A simulator has been told to finish. -/
  | ended
  /-- A call returned without taking part in the round. -/
  | returnedAtOnce
  deriving DecidableEq, Repr

namespace World

variable {ι : Type} [Fintype ι]

def start (setup : ι → Setup) (net : Setup) : World ι where
  ticks := fun i => .start (setup i)
  netSim := .start net
  log := []

/-- The least proposal of the round, the net sim's among them. -/
def minimum (w : World ι) (inp : Input ι) : TIME :=
  Finset.univ.fold min CommunicatorSimulatorSyncalgo.proposal fun i => (w.ticks i).proposal inp.diff (inp.next i)

/-- The simulator `i` after the round, and what its call returned. -/
def concluded (w : World ι) (inp : Input ι) (i : ι) : Tick × Option TIME :=
  (w.ticks i).conclude (w.minimum inp) ((w.ticks i).proposed inp.diff (inp.next i))

/-- The round as it is seen. -/
def seen (w : World ι) (inp : Input ι) : Round ι where
  min := w.minimum inp
  proposal := fun i => (w.ticks i).proposal inp.diff (inp.next i)
  returned := fun i => (w.concluded inp i).2
  netReturned := (w.netSim.conclude (w.minimum inp)).2

/-- The world after the round. -/
def next (w : World ι) (inp : Input ι) : World ι where
  ticks := fun i => (w.concluded inp i).1
  netSim := (w.netSim.conclude (w.minimum inp)).1
  log := w.log ++ [w.seen inp]

/-- One round. -/
def step (w : World ι) (inp : Input ι) : Except Break (World ι) :=
  if (∃ i, (w.ticks i).finished = true) ∨ w.netSim.finished = true then .error .ended
  else if (∃ i, (w.ticks i).returnsAtOnce (inp.next i) = true) ∨ w.netSim.returnsAtOnce inp.netNext = true then
    .error .returnedAtOnce
  else .ok (w.next inp)

/-- What the environment keeps to: every call asks for more than the clock
shows, and no product and no sum the round computes needs more than 64 bits. A
net sim on its own is told to finish at once, and makes no further call. -/
structure Allowed (w : World ι) (inp : Input ι) : Prop where
  later : ∀ i, (w.ticks i).call = none → (w.ticks i).current < inp.next i
  next_fits : ∀ i, (w.ticks i).call = none →
    inp.next i * (w.ticks i).integrator.simTimeMetric.scale < ulongSize
  step_fits : ∀ i, ((w.ticks i).entered (inp.next i)).currentTime + (w.ticks i).integrator.onetimestep < ulongSize
  return_fits : ∀ i, ∀ t ∈ (w.concluded inp i).2, t + (w.ticks i).integrator.offset < ulongSize
  net_unfinished : Fintype.card ι = 0 → w.netSim.finished = false
  net_later : w.netSim.current < inp.netNext
  net_next_fits : inp.netNext < ulongSize
  net_return_fits : w.minimum inp + w.netSim.integrator.offset < ulongSize

/-- Every round of the sequence is allowed in the state it is reached in. -/
def Admissible (w : World ι) : List (Input ι) → Prop
  | [] => True
  | inp :: inps => w.Allowed inp ∧ ∀ w', w.step inp = .ok w' → Admissible w' inps

instance (w : World ι) (inp : Input ι) : Decidable (w.Allowed inp) :=
  decidable_of_iff
    ((∀ i, (w.ticks i).call = none → (w.ticks i).current < inp.next i ∧
        inp.next i * (w.ticks i).integrator.simTimeMetric.scale < ulongSize) ∧
      (∀ i, ((w.ticks i).entered (inp.next i)).currentTime + (w.ticks i).integrator.onetimestep < ulongSize ∧
        ∀ t ∈ (w.concluded inp i).2, t + (w.ticks i).integrator.offset < ulongSize) ∧
      (Fintype.card ι = 0 → w.netSim.finished = false) ∧ w.netSim.current < inp.netNext ∧ inp.netNext < ulongSize ∧
      w.minimum inp + w.netSim.integrator.offset < ulongSize)
    ⟨fun ⟨h₁, h₂, h₃, h₄, h₅, h₆⟩ => ⟨fun i hi => (h₁ i hi).1, fun i hi => (h₁ i hi).2, fun i => (h₂ i).1,
        fun i => (h₂ i).2, h₃, h₄, h₅, h₆⟩,
      fun h => ⟨fun i hi => ⟨h.later i hi, h.next_fits i hi⟩, fun i => ⟨h.step_fits i, h.return_fits i⟩,
        h.net_unfinished, h.net_later, h.net_next_fits, h.net_return_fits⟩⟩

instance decidableAdmissible : (w : World ι) → (inps : List (Input ι)) → Decidable (w.Admissible inps)
  | _, [] => isTrue trivial
  | w, inp :: inps =>
    match hs : w.step inp with
    | .ok w' =>
      have := decidableAdmissible w' inps
      decidable_of_iff (w.Allowed inp ∧ w'.Admissible inps)
        (and_congr_right fun _ => ⟨fun h _ he => Except.ok.inj (hs.symm.trans he) ▸ h, fun h => h w' hs⟩)
    | .error _ =>
      decidable_of_iff (w.Allowed inp) ⟨fun h => ⟨h, fun _ he => nomatch hs.symm.trans he⟩, And.left⟩

end World

/-! ## One simulator, one round -/

/-- The locals of a call that waits after a round with minimum `m`: its
`currentTime` is `m` rounded down to the simulator's unit. -/
structure InCall (g : Integrator) (m : TIME) (l : Locals) : Prop where
  currentTime_dvd : g.simTimeMetric.scale ∣ l.currentTime
  currentTime_le : l.currentTime ≤ m
  lt_currentTime : m < l.currentTime + g.simTimeMetric.scale
  nextTime_dvd : g.simTimeMetric.scale ∣ l.nextTime
  nextTime_gt : l.needToRespond = false → m < l.nextTime

/-- Between two rounds, `m` being the minimum of the last: the simulator has
just been granted `m`, or it waits in a call. -/
structure TickAt (m : TIME) (t : Tick) : Prop where
  unfinished : t.finished = false
  offset_dvd : t.integrator.simTimeMetric.scale ∣ t.integrator.offset
  onetimestep_dvd : t.integrator.simTimeMetric.scale ∣ t.integrator.onetimestep
  onetimestep_ge : t.integrator.simTimeMetric.scale ≤ t.integrator.onetimestep
  idle : t.call = none → t.grantedTime = m ∧ t.integrator.ClockAt t.current m
  waiting : ∀ l, t.call = some l → InCall t.integrator m l

namespace TickAt

variable {m min : TIME} {t : Tick} {next : TIME} {diff : ℕ}

theorem start (s : Setup) : TickAt 0 (Tick.start s) where
  unfinished := rfl
  offset_dvd := s.scale_dvd_offset
  onetimestep_dvd := s.scale_dvd_onetimestep
  onetimestep_ge := s.scale_le_onetimestep
  idle _ := by
    refine ⟨rfl, s.clock_start.trans (Nat.zero_add _).symm, ?_⟩
    show 0 + convertToFrameworkTime s.simTimeStep s.initialTime < ulongSize
    rw [Nat.zero_add]
    exact Nat.mod_lt _ (by decide)
  waiting := nofun

variable (h : TickAt m t) (hlater : t.call = none → t.current < next)
  (hfits : t.call = none → next * t.integrator.simTimeMetric.scale < ulongSize)

include h hlater hfits

/-- A new call asks for more than the simulator was granted. -/
theorem not_returnsAtOnce : t.returnsAtOnce next = false := by
  cases hc : t.call with
  | some l => simp [Tick.returnsAtOnce, hc]
  | none =>
    obtain ⟨hg, hclock⟩ := h.idle hc
    have hn := (hclock.toFramework_next (hlater hc) (hfits hc)).1
    simp only [Tick.returnsAtOnce, hc, Option.isNone_none, Bool.true_and,
      GracePeriodSyncAlgo.returnsAtOnce, hg, decide_eq_false_iff_not, not_lt]
    exact hn.le

/-- During the round every simulator is in a call. -/
theorem entered : InCall t.integrator m (t.entered next) := by
  cases hc : t.call with
  | some l =>
    rw [Tick.entered, hc]
    exact h.waiting l hc
  | none =>
    obtain ⟨-, hclock⟩ := h.idle hc
    obtain ⟨hn, heq⟩ := hclock.toFramework_next (hlater hc) (hfits hc)
    have hm : t.integrator.simTimeMetric.scale ∣ m :=
      (Nat.dvd_add_left h.offset_dvd).mp ⟨t.current, by rw [← hclock.1, Nat.mul_comm]⟩
    simp only [Tick.entered, hc, Option.getD_none, enter, hclock.toFramework]
    refine ⟨hm, le_rfl, Nat.lt_add_of_pos_right t.integrator.simTimeMetric.scale_pos, ?_, fun _ => hn⟩
    show _ ∣ t.integrator.toFramework next
    rw [heq]
    exact Nat.dvd_sub (Nat.dvd_mul_left _ _) h.offset_dvd

variable (hstep : (t.entered next).currentTime + t.integrator.onetimestep < ulongSize)

include hstep

/-- The proposal exceeds the minimum of the last round, and is a time of the simulator. -/
theorem proposal_spec : m < t.proposal diff next ∧
    t.integrator.simTimeMetric.scale ∣ t.proposal diff next := by
  have hl := h.entered hlater hfits
  rw [Tick.proposal, Tick.proposed, GracePeriodSyncAlgo.propose_nextEstTime]
  split
  · next hd => exact ⟨hl.nextTime_gt hd.2, hl.nextTime_dvd⟩
  · rw [addTime_of_lt hstep]
    refine ⟨?_, Nat.dvd_add hl.currentTime_dvd h.onetimestep_dvd⟩
    exact hl.lt_currentTime.trans_le (Nat.add_le_add_left h.onetimestep_ge _)

omit diff in
/-- No minimum before this round was `Infinity`. -/
theorem lt_infinity : m < Infinity := by
  have hl := h.entered hlater hfits
  have := hl.lt_currentTime.trans_le (Nat.add_le_add_left h.onetimestep_ge _)
  exact Nat.lt_sub_of_add_lt (Nat.lt_of_le_of_lt this hstep)

/-- The simulator at the minimum returns from its call. -/
theorem conclude_eq (hmin : t.proposal diff next = min) : t.conclude min (t.proposed diff next) =
    ({ t with call := none, grantedTime := min, current := t.integrator.toSimTime min }, some min) := by
  have hgt : m < t.proposal diff next := (h.proposal_spec hlater hfits hstep).1
  subst hmin
  rw [Tick.conclude, Tick.proposal, GracePeriodSyncAlgo.conclude_eq (Nat.pos_iff_ne_zero.mp (Nat.zero_lt_of_lt hgt))]

/-- Its clock then stands for the minimum. -/
theorem granted (hmin : t.proposal diff next = min) (hret : min + t.integrator.offset < ulongSize) :
    TickAt min (t.conclude min (t.proposed diff next)).1 := by
  have hdvd : _ ∣ t.proposal diff next := (h.proposal_spec hlater hfits hstep).2
  rw [h.conclude_eq hlater hfits hstep hmin]
  exact ⟨h.unfinished, h.offset_dvd, h.onetimestep_dvd, h.onetimestep_ge,
    fun _ => ⟨rfl, .granted h.offset_dvd (hmin ▸ hdvd) hret⟩, nofun⟩

omit hstep in
/-- Any other simulator waits, its `currentTime` moved to the minimum. -/
theorem conclude_lt (hmin : min < t.proposal diff next) (hpos : m < min) (hsize : min < ulongSize) :
    (t.conclude min (t.proposed diff next)).2 = none ∧
      TickAt min (t.conclude min (t.proposed diff next)).1 := by
  have hl := h.entered hlater hfits
  rw [Tick.conclude, GracePeriodSyncAlgo.conclude_lt (Nat.pos_iff_ne_zero.mp (Nat.zero_lt_of_lt hpos)) hmin]
  refine ⟨rfl, h.unfinished, h.offset_dvd, h.onetimestep_dvd, h.onetimestep_ge, nofun, fun l hc => ?_⟩
  cases hc
  refine ⟨Integrator.scale_dvd_realign hsize, Integrator.realign_le hsize, Integrator.lt_realign_add hsize, ?_, ?_⟩
  · simpa [Tick.proposed] using hl.nextTime_dvd
  · intro hr
    have hn := (GracePeriodSyncAlgo.propose_unlatched (l := t.entered next) hr).2
    simp only [Tick.proposed, GracePeriodSyncAlgo.propose_nextTime]
    exact hn ▸ hmin

end TickAt

/-- Between two rounds: the net sim has been granted `m`. -/
structure NetAt (m : TIME) (n : NetSim) : Prop where
  metric : n.integrator.simTimeMetric = .nanoseconds
  granted : n.finished = false → n.grantedTime = m ∧ n.integrator.ClockAt n.current m ∧ m < Infinity
  ended : n.finished = true → m = Infinity

namespace NetAt

variable {m min : TIME} {n : NetSim} {next : TIME}

theorem start (s : Setup) (hs : s.simTimeStep = .nanoseconds) : NetAt 0 (NetSim.start s) where
  metric := hs
  granted _ := by
    refine ⟨rfl, ⟨s.clock_start.trans (Nat.zero_add _).symm, ?_⟩, by decide⟩
    show 0 + convertToFrameworkTime s.simTimeStep s.initialTime < ulongSize
    rw [Nat.zero_add]
    exact Nat.mod_lt _ (by decide)
  ended := nofun

theorem not_returnsAtOnce (h : NetAt m n) (hf : n.finished = false) (hlater : n.current < next)
    (hfits : next < ulongSize) : n.returnsAtOnce next = false := by
  obtain ⟨hg, hclock, -⟩ := h.granted hf
  have hn := (hclock.toFramework_next hlater (by simpa [h.metric, TimeMetric.scale] using hfits)).1
  simp only [NetSim.returnsAtOnce, CommunicatorSimulatorSyncalgo.returnsAtOnce, hg, decide_eq_false_iff_not, not_lt]
  exact hn.le

/-- The net sim is granted every minimum. -/
theorem conclude (h : NetAt m n) (hf : n.finished = false) (hsize : min < ulongSize)
    (hfits : min + n.integrator.offset < ulongSize) :
    (n.conclude min).2 = min ∧ NetAt min (n.conclude min).1 := by
  have hone : n.integrator.simTimeMetric.scale = 1 := by rw [h.metric]; rfl
  by_cases hi : min = Infinity
  · rw [hi, NetSim.conclude_infinity]
    exact ⟨rfl, h.metric, nofun, fun _ => rfl⟩
  · rw [NetSim.conclude_of_ne hi]
    refine ⟨rfl, h.metric, fun _ => ⟨rfl, .granted ?_ ?_ hfits, ?_⟩, fun ht => ?_⟩
    · simp [hone]
    · simp [hone]
    · exact lt_of_le_of_ne (Nat.le_sub_one_of_lt hsize) hi
    · cases hf.symm.trans ht

end NetAt

/-! ## A round, a run -/

/-- What a round of the algorithms should be. -/
structure Conservative {ι : Type} (r : Round ι) : Prop where
  least : ∀ i, r.min ≤ r.proposal i
  returned : ∀ i, r.returned i = if r.proposal i = r.min then some r.min else none
  netReturned : r.netReturned = r.min

section Runs

variable {ι : Type} [Fintype ι] {w w' : World ι} {inp : Input ι} {m : TIME}

/-- Between two rounds, `m` being the minimum of the last. -/
structure WorldAt (m : TIME) (w : World ι) : Prop where
  ticks : ∀ i, TickAt m (w.ticks i)
  netSim : NetAt m w.netSim
  log : ∀ r ∈ w.log, Conservative r ∧ r.min ≤ m
  increasing : w.log.Pairwise fun r r' => r.min < r'.min

omit [Fintype ι] in
theorem WorldAt.start (setup : ι → Setup) (net : Setup) (hnet : net.simTimeStep = .nanoseconds) :
    WorldAt 0 (World.start setup net) where
  ticks i := .start (setup i)
  netSim := .start net hnet
  log := nofun
  increasing := .nil

theorem minimum_le (w : World ι) (inp : Input ι) (i : ι) :
    w.minimum inp ≤ (w.ticks i).proposal inp.diff (inp.next i) :=
  ((Finset.le_fold_min _).mp le_rfl).2 i (Finset.mem_univ i)

theorem minimum_lt (w : World ι) (inp : Input ι) : w.minimum inp < ulongSize :=
  Nat.lt_of_le_pred (by decide) ((Finset.le_fold_min _).mp le_rfl).1

/-- An allowed round takes place, and leaves the world between two rounds again. -/
theorem WorldAt.step (h : WorldAt m w) (ha : w.Allowed inp) :
    w.step inp = .ok (w.next inp) ∧ WorldAt (w.minimum inp) (w.next inp) := by
  have hspec (i) : m < (w.ticks i).proposal inp.diff (inp.next i) ∧ _ :=
    (h.ticks i).proposal_spec (ha.later i) (ha.next_fits i) (ha.step_fits i)
  have hnf : w.netSim.finished = false := by
    rcases isEmpty_or_nonempty ι with he | ⟨⟨i⟩⟩
    · exact ha.net_unfinished (Fintype.card_eq_zero_iff.mpr he)
    · have hlt := (h.ticks i).lt_infinity (ha.later i) (ha.next_fits i) (ha.step_fits i)
      exact Bool.eq_false_iff.mpr fun hf => hlt.ne (h.netSim.ended hf)
  have hgt : m < w.minimum inp :=
    (Finset.lt_fold_min _).mpr ⟨(h.netSim.granted hnf).2.2, fun i _ => (hspec i).1⟩
  have hconcluded i : (w.concluded inp i).2 =
      (if (w.ticks i).proposal inp.diff (inp.next i) = w.minimum inp then some (w.minimum inp) else none) ∧
      TickAt (w.minimum inp) (w.concluded inp i).1 := by
    by_cases heq : (w.ticks i).proposal inp.diff (inp.next i) = w.minimum inp
    · have heq' := (h.ticks i).conclude_eq (ha.later i) (ha.next_fits i) (ha.step_fits i) heq
      have hret : (w.concluded inp i).2 = some (w.minimum inp) := by rw [World.concluded, heq']
      rw [if_pos heq]
      exact ⟨hret, (h.ticks i).granted (ha.later i) (ha.next_fits i) (ha.step_fits i) heq
        (ha.return_fits i _ hret)⟩
    · rw [if_neg heq]
      exact (h.ticks i).conclude_lt (ha.later i) (ha.next_fits i)
        (lt_of_le_of_ne (minimum_le w inp i) (Ne.symm heq)) hgt (minimum_lt w inp)
  have hnet := h.netSim.conclude hnf (minimum_lt w inp) ha.net_return_fits
  have hround : Conservative (w.seen inp) := ⟨minimum_le w inp, fun i => (hconcluded i).1, hnet.1⟩
  refine ⟨?_, fun i => (hconcluded i).2, hnet.2, ?_, ?_⟩
  · unfold World.step
    rw [if_neg, if_neg]
    · rintro (⟨i, hi⟩ | hi)
      · rw [(h.ticks i).not_returnsAtOnce (ha.later i) (ha.next_fits i)] at hi
        cases hi
      · rw [h.netSim.not_returnsAtOnce hnf ha.net_later ha.net_next_fits] at hi
        cases hi
    · rintro (⟨i, hi⟩ | hi)
      · rw [(h.ticks i).unfinished] at hi
        cases hi
      · rw [hnf] at hi
        cases hi
  · intro r hr
    rcases List.mem_append.mp hr with hr | hr
    · exact ⟨(h.log r hr).1, (h.log r hr).2.trans hgt.le⟩
    · rw [List.mem_singleton.mp hr]
      exact ⟨hround, le_rfl⟩
  · refine List.pairwise_append.mpr ⟨h.increasing, List.pairwise_singleton _ _, fun r hr r' hr' => ?_⟩
    rw [List.mem_singleton.mp hr']
    exact (h.log r hr).2.trans_lt hgt

/-- What holds of the rounds of a run: each is as it should be, their minima
increase strictly, and so do the times granted in different rounds. -/
structure ConservativeOrder (log : List (Round ι)) : Prop where
  rounds : ∀ r ∈ log, Conservative r
  increasing : log.Pairwise fun r r' => r.min < r'.min
  grants : log.Pairwise fun r r' => ∀ i j t t', r.returned i = some t → r'.returned j = some t' → t < t'

omit [Fintype ι] in
/-- Only the minimum is ever granted. -/
theorem Conservative.eq_min {r : Round ι} (h : Conservative r) {i : ι} {t : TIME} (hi : r.returned i = some t) :
    t = r.min := by
  rw [h.returned i] at hi
  split at hi
  · exact (Option.some.inj hi).symm
  · cases hi

omit [Fintype ι] in
theorem WorldAt.conservativeOrder (h : WorldAt m w) : ConservativeOrder w.log where
  rounds r hr := (h.log r hr).1
  increasing := h.increasing
  grants := h.increasing.imp_of_mem fun hr hr' hlt i j t t' hi hj => by
    rw [(h.log _ hr).1.eq_min hi, (h.log _ hr').1.eq_min hj]
    exact hlt

/-- Every sequence of allowed rounds takes place. -/
theorem WorldAt.run (h : WorldAt m w) {inps : List (Input ι)} (ha : w.Admissible inps) :
    ∃ w' m', Trace.run World.step w inps = .ok w' ∧ WorldAt m' w' ∧ w'.log.length = w.log.length + inps.length := by
  induction inps generalizing w m with
  | nil => exact ⟨w, m, rfl, h, rfl⟩
  | cons inp inps ih =>
    obtain ⟨hs, hnext⟩ := h.step ha.1
    obtain ⟨w', m', hr, hw', hlen⟩ := ih hnext (ha.2 _ hs)
    refine ⟨w', m', Trace.run_cons.mpr ⟨_, hs, hr⟩, hw', ?_⟩
    rw [hlen]
    simp [World.next]
    omega

/-- The plain conservative algorithms keep conservative order: whatever the
environment chooses, every round takes place, and no simulator is granted a
time that is not later than all times granted in earlier rounds. The clock of
a simulator that was granted a time stands for it exactly. -/
theorem grace_period_conservative (setup : ι → Setup) {net : Setup} (hnet : net.simTimeStep = .nanoseconds)
    {inps : List (Input ι)} (ha : (World.start setup net).Admissible inps) :
    ∃ w, Trace.run World.step (World.start setup net) inps = .ok w ∧ w.log.length = inps.length ∧
      ConservativeOrder w.log ∧
      ∀ i, (w.ticks i).call = none → (w.ticks i).integrator.toFramework (w.ticks i).current = (w.ticks i).grantedTime := by
  obtain ⟨w, m, hr, hw, hlen⟩ := (WorldAt.start setup net hnet).run ha
  refine ⟨w, hr, by simpa [World.start] using hlen, hw.conservativeOrder, fun i hi => ?_⟩
  obtain ⟨hg, hclock⟩ := (hw.ticks i).idle hi
  rw [hclock.toFramework, hg]

/-- A simulator in seconds that starts at 5, one in milliseconds. -/
def twoSetups (i : Fin 2) : Setup :=
  if i = 0 then ⟨⟨.seconds, 5, 1, by decide, by decide⟩, by decide⟩
  else ⟨⟨.milliseconds, 0, 1, by decide, by decide⟩, by decide⟩

/-- Both in one call, a message, the simulator in milliseconds a second later. -/
def twoInputs : List (Input (Fin 2)) :=
  [⟨0, fun i => if i = 0 then 7 else 1500, 1⟩, ⟨1, fun _ => 1600, 1500000001⟩, ⟨0, fun _ => 4000, 1501000001⟩]

theorem grace_period_conservative_two :
    ∃ w, Trace.run World.step (World.start twoSetups ⟨⟨.nanoseconds, 0, 1, by decide, by decide⟩, by decide⟩) twoInputs = .ok w ∧
      w.log.length = 3 ∧ ConservativeOrder w.log := by
  have hadm : (World.start twoSetups ⟨⟨.nanoseconds, 0, 1, by decide, by decide⟩, by decide⟩).Admissible twoInputs := by
    decide
  obtain ⟨w, hr, hlen, h, -⟩ := grace_period_conservative twoSetups rfl hadm
  exact ⟨w, hr, hlen, h⟩

end Runs

end Fncs.Rounds

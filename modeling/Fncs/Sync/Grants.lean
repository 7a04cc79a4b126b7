/-
How much a tick simulator is granted by the conservative algorithms
`GracePeriodSyncAlgo`, `ConservativeSleepingTickAlgo` and
`ActiveSetConservativeTick`, whatever the others answer in the rounds of a call.

What a call returns depends on two things only: the place it has come to, and
whether it has a message to respond to. `Call` is that much of a call, and each
of the algorithms refines it. A call that responds returns one step past its
place, and nothing holds the step back: it may lead past the time asked for.
-/
import Fncs.Lib.Trace
import Fncs.Sync.ActiveSet
import Fncs.Sync.Sleeping

namespace Fncs

namespace Granting

inductive Break
  | notAllowed
  /-- A write past the end of a table. -/
  | outOfRange
  deriving DecidableEq, Repr

/-! ## A call, from its place on -/

/-- Where a call stands. -/
structure Call where
  place : TIME
  nextTime : TIME
  responds : Bool
  deriving DecidableEq, Repr

/-- What a round tells the call: whether there is a message to respond to, and the least proposal. -/
structure Answer where
  respond : Bool
  minNextTime : TIME
  deriving DecidableEq, Repr

inductive Standing
  | waiting (c : Call)
  | returned (t : TIME)
  deriving DecidableEq, Repr

namespace Call

def hear (c : Call) (respond : Bool) : Call := { c with responds := c.responds || respond }

def proposal (g : Integrator) (c : Call) : TIME :=
  if c.responds then addTime c.place g.onetimestep else c.nextTime

/-- Below its proposal the call waits, and goes on from the minimum, in the simulator's unit. -/
def settle (g : Integrator) (minNextTime : TIME) (c : Call) : Standing :=
  if minNextTime < c.proposal g then .waiting { c with place := g.realign minNextTime }
  else .returned (c.proposal g)

end Call

def Standing.advance (g : Integrator) : Standing → Answer → Except Break Standing
  | .waiting c, r => .ok ((c.hear r.respond).settle g r.minNextTime)
  | .returned _, _ => .error .notAllowed

/-- The place after these minima: that of the last of them. -/
def place (g : Integrator) (currentTime : TIME) (minima : List TIME) : TIME :=
  match minima.getLast? with
  | none => currentTime
  | some t => g.realign t

variable {g : Integrator}

theorem place_cons (currentTime t : TIME) (minima : List TIME) :
    place g currentTime (t :: minima) = place g (g.realign t) minima := by
  unfold place
  rw [List.getLast?_cons]
  cases minima.getLast? <;> rfl

theorem Call.hear_hear (c : Call) (m n : Bool) : (c.hear m).hear n = c.hear (n || m) := by
  unfold hear
  rw [Bool.or_assoc, Bool.or_comm m n]

theorem Standing.advance_waiting {c c' : Call} {r : Answer}
    (h : Standing.advance g (.waiting c) r = .ok (.waiting c')) :
    c' = { c.hear r.respond with place := g.realign r.minNextTime } := by
  have h := Except.ok.inj h
  unfold Call.settle at h
  split at h
  · exact (Standing.waiting.inj h).symm
  · cases h

/-- A call that still waits after some rounds. -/
theorem waiting_after {c c' : Call} {rs : List Answer}
    (h : Trace.run (Standing.advance g) (.waiting c) rs = .ok (.waiting c')) :
    c' = ⟨place g c.place (rs.map Answer.minNextTime), c.nextTime, c.responds || rs.any Answer.respond⟩ := by
  induction rs generalizing c with
  | nil =>
    cases h
    simp [place]
  | cons r rs ih =>
    obtain ⟨s, hs, hr⟩ := Trace.run_cons.mp h
    cases s with
    | returned t =>
      -- nothing follows a return
      cases rs with
      | nil => cases hr
      | cons r' rs => cases hr
    | waiting d =>
      have hd := Standing.advance_waiting hs
      have := ih hr
      subst hd
      rw [this, List.map_cons, place_cons, List.any_cons]
      simp [Call.hear, Bool.or_assoc]

/-- What a call returns: the time asked for, or one step past the place of its last round. -/
theorem returned_eq {c : Call} {rs : List Answer} {t : TIME}
    (h : Trace.run (Standing.advance g) (.waiting c) rs = .ok (.returned t)) :
    t = if c.responds || rs.any Answer.respond then
        addTime (place g c.place (rs.dropLast.map Answer.minNextTime)) g.onetimestep
      else c.nextTime := by
  rcases List.eq_nil_or_concat' rs with rfl | ⟨init, r, rfl⟩
  · cases h
  obtain ⟨s, hs, hr⟩ := Trace.run_append.mp h
  obtain ⟨s', hs', hr⟩ := Trace.run_cons.mp hr
  cases hr
  cases s with
  | returned u => cases hs'
  | waiting d =>
    have hd := waiting_after hs
    have hs' := Except.ok.inj hs'
    unfold Call.settle at hs'
    split at hs'
    · cases hs'
    · rw [← Standing.returned.inj hs', hd]
      simp [Call.proposal, Call.hear, Bool.or_assoc]

/-! ## The algorithms -/

/-- What a turn of the loop is given: what `sleep` returns, where it is called, the difference, the
minimum, and the next times of the others, where they are asked for. -/
structure Round where
  woken : Bool
  diff : ℕ
  minNextTime : TIME
  nextTimes : List TIME
  deriving DecidableEq, Repr

/-- The algorithm of a tick simulator, with its members. -/
inductive TickAlgorithm
  | gracePeriod (grantedTime : TIME)
  | sleeping (a : ConservativeSleepingTickAlgo)
  | activeSet (grantedTime : TIME)
  deriving DecidableEq, Repr

/-- A call of `GetNextTime`, at the head of its loop or after it. -/
inductive Process
  | gracePeriod (l : GracePeriodSyncAlgo.Locals)
  | sleeping (a : ConservativeSleepingTickAlgo) (l : ConservativeSleepingTickAlgo.Locals)
  | activeSet (l : ActiveSetConservativeTick.Locals)
  | returned (t : TIME)
  /-- The end of the simulation was signalled. -/
  | finished
  deriving DecidableEq, Repr

namespace TickAlgorithm

def grantedTime : TickAlgorithm → TIME
  | .gracePeriod grantedTime => grantedTime
  | .sleeping a => a.grantedTime
  | .activeSet grantedTime => grantedTime

/-- Whether a simulator that waits may sleep. -/
def sleeps : TickAlgorithm → Bool
  | .sleeping _ => true
  | _ => false

/-- `GetNextTime` up to its loop. -/
def getNextTime (currentTime nextTime : TIME) : TickAlgorithm → Process
  | .gracePeriod grantedTime =>
    if GracePeriodSyncAlgo.returnsAtOnce grantedTime nextTime then .returned nextTime
    else .gracePeriod (GracePeriodSyncAlgo.enter currentTime nextTime)
  | .sleeping a =>
    if ConservativeSleepingTickAlgo.returnsAtOnce a.grantedTime nextTime then .returned nextTime
    else .sleeping (a.wakeOthers nextTime) (ConservativeSleepingTickAlgo.enter a.grantedTime currentTime nextTime)
  | .activeSet grantedTime =>
    if ActiveSetConservativeTick.returnsAtOnce grantedTime nextTime then .returned grantedTime
    else .activeSet (ActiveSetConservativeTick.enter currentTime nextTime)

/-- Whether some round had the call respond: by a difference, or by a message that ended a sleep.
Nobody sleeps before the first round. -/
def asked (rounds : List Round) (alg : TickAlgorithm) : Bool :=
  rounds.any (fun r => r.diff ≠ 0) || (alg.sleeps && rounds.tail.any Round.woken)

end TickAlgorithm

namespace Process

/-- The proposal the call makes in a reduction. -/
def nextEstTime : Process → TIME
  | .gracePeriod l => l.nextEstTime
  | .sleeping _ l => l.nextEstTime
  | .activeSet l => l.nextEstTime
  | .returned t => t
  | .finished => 0

/-- A turn up to the minimum. -/
def propose (g : Integrator) (r : Round) : Process → Except Break Process
  | .gracePeriod l => .ok (.gracePeriod (GracePeriodSyncAlgo.propose g r.diff l))
  | .sleeping a l =>
    match (a.awake r.woken l).1.propose g r.diff (a.awake r.woken l).2 with
    | some (a, l) => .ok (.sleeping a l)
    | none => .error .outOfRange
  | .activeSet l => .ok (.activeSet (ActiveSetConservativeTick.propose g r.diff l))
  | .returned _ | .finished => .error .notAllowed

def ofOutcome : GracePeriodSyncAlgo.Outcome → (GracePeriodSyncAlgo.Locals → Process) → Process
  | .returned t, _ => .returned t
  | .finished, _ => .finished
  | .again l, p => p l

/-- The rest of the turn. -/
def conclude (g : Integrator) (r : Round) : Process → Except Break Process
  | .gracePeriod l => .ok (ofOutcome (GracePeriodSyncAlgo.conclude g r.minNextTime l) .gracePeriod)
  | .sleeping a l =>
    match a.conclude g r.minNextTime r.nextTimes l with
    | some (a, o) => .ok (ofOutcome o (.sleeping a))
    | none => .error .outOfRange
  | .activeSet l =>
    match ActiveSetConservativeTick.conclude g r.minNextTime l with
    | .again l => .ok (.activeSet l)
    | .returned t => .ok (.returned t)
  | .returned _ | .finished => .error .notAllowed

/-- A turn of the loop. -/
def advance (g : Integrator) (p : Process) (r : Round) : Except Break Process :=
  (p.propose g r).bind fun q => q.conclude g r

/-- The minimum of the round is at most the proposal made in it. -/
def Least (g : Integrator) (p : Process) (r : Round) : Prop :=
  ∀ q ∈ (p.propose g r).toOption, r.minNextTime ≤ q.nextEstTime

instance (g : Integrator) (p : Process) (r : Round) : Decidable (Least g p r) :=
  Option.decidableForallMem _

end Process

/-! ## Refinement -/

def callOf (l : GracePeriodSyncAlgo.Locals) : Call := ⟨l.currentTime, l.nextTime, l.needToRespond⟩

/-- The locals of `ActiveSetConservativeTick`, as the plain algorithm has them. -/
def plain (l : ActiveSetConservativeTick.Locals) : GracePeriodSyncAlgo.Locals :=
  ⟨l.currentTime, l.nextTime, l.nextEstTime, l.needToRespond, false⟩

/-- What the round is to a call; `waits` says whether it may have slept. -/
def Round.answer (waits : Bool) (r : Round) : Answer := ⟨decide (r.diff ≠ 0) || (waits && r.woken), r.minNextTime⟩

/-- The process stands where the call does. `sleeps` is that of the algorithm; `waits` holds after
the first round. One that waits and does not sleep has to respond already. -/
def Stands (sleeps waits : Bool) (p : Process) (s : Standing) : Prop :=
  match p with
  | .gracePeriod l => sleeps = false ∧ s = .waiting (callOf l)
  | .sleeping a l => sleeps = true ∧ s = .waiting (callOf l) ∧ l.busywait = waits ∧
      (waits = true → a.diff ≠ 0 → l.needToRespond = true)
  | .activeSet l => sleeps = false ∧ s = .waiting (callOf (plain l))
  | .returned t => s = .returned t
  | .finished => True

theorem callOf_propose (diff : ℕ) (l : GracePeriodSyncAlgo.Locals) :
    callOf (GracePeriodSyncAlgo.propose g diff l) = (callOf l).hear (decide (diff ≠ 0)) ∧
      (GracePeriodSyncAlgo.propose g diff l).nextEstTime =
        (callOf (GracePeriodSyncAlgo.propose g diff l)).proposal g := by
  unfold GracePeriodSyncAlgo.propose Call.proposal Call.hear callOf
  split
  · next h => simp [h]
  · next h =>
    rw [Decidable.not_and_iff_or_not, Bool.not_eq_false] at h
    rcases h with h | h <;> simp [h]

theorem plain_propose (diff : ℕ) (l : ActiveSetConservativeTick.Locals) :
    plain (ActiveSetConservativeTick.propose g diff l) = GracePeriodSyncAlgo.propose g diff (plain l) := by
  unfold ActiveSetConservativeTick.propose GracePeriodSyncAlgo.propose plain
  split <;> rfl

/-- The end of a turn of the plain algorithm, which the sleeping one shares. -/
theorem stands_ofOutcome {sleeps : Bool} {l : GracePeriodSyncAlgo.Locals} {t : TIME}
    {f : GracePeriodSyncAlgo.Locals → Process}
    (hf : ∀ l', callOf l' = { callOf l with place := g.realign t } → l'.busywait = true →
      Stands sleeps true (f l') (.waiting (callOf l')))
    (hl : l.nextEstTime = (callOf l).proposal g) (ht : t ≤ l.nextEstTime) :
    Stands sleeps true (Process.ofOutcome (GracePeriodSyncAlgo.conclude g t l) f) ((callOf l).settle g t) := by
  rw [GracePeriodSyncAlgo.conclude_least ht]
  unfold Call.settle
  rw [← hl]
  by_cases h0 : t = 0
  · rw [if_pos h0]
    trivial
  · rw [if_neg h0]
    split
    · exact hf _ rfl rfl
    · rfl

/-- After a sleep the answer of `sleep` counts; a waiting call that did not sleep responds anyway. -/
theorem responds_awake {waits : Bool} {a : ConservativeSleepingTickAlgo} {l : GracePeriodSyncAlgo.Locals}
    (hw : l.busywait = waits) (hd : waits = true → a.diff ≠ 0 → l.needToRespond = true) (woken : Bool) :
    callOf (a.awake woken l).2 = (callOf l).hear (waits && woken) := by
  rw [ConservativeSleepingTickAlgo.awake_locals, ConservativeSleepingTickAlgo.sleeps, hw]
  cases waits with
  | false => rfl
  | true =>
    by_cases h0 : a.diff = 0
    · simp [callOf, Call.hear, h0]
    · simp [callOf, Call.hear, hd rfl h0]

theorem gracePeriod_stands {waits : Bool} {l : GracePeriodSyncAlgo.Locals} {q : Process} {r : Round}
    (hl : (Process.gracePeriod l).Least g r) (h : (Process.gracePeriod l).advance g r = .ok q) :
    Stands false true q (((callOf l).hear (r.answer (false && waits)).respond).settle g r.minNextTime) := by
  obtain ⟨p, hp, hq⟩ := Trace.bind_eq_ok.mp h
  cases hp
  cases hq
  obtain ⟨hc, he⟩ := callOf_propose (g := g) r.diff l
  have hm : r.minNextTime ≤ _ := hl _ rfl
  have : Stands false true (Process.ofOutcome _ .gracePeriod) _ := stands_ofOutcome (fun l' _ _ => ⟨rfl, rfl⟩) he hm
  rw [hc] at this
  simpa [Round.answer] using this

theorem sleeping_stands {waits : Bool} {a : ConservativeSleepingTickAlgo} {l : GracePeriodSyncAlgo.Locals} {q : Process}
    {r : Round} (hw : l.busywait = waits) (hd : waits = true → a.diff ≠ 0 → l.needToRespond = true)
    (hl : (Process.sleeping a l).Least g r) (h : (Process.sleeping a l).advance g r = .ok q) :
    Stands true true q (((callOf l).hear (r.answer (true && waits)).respond).settle g r.minNextTime) := by
  obtain ⟨p, hp, hq⟩ := Trace.bind_eq_ok.mp h
  have hm : r.minNextTime ≤ p.nextEstTime := hl p (by rw [hp]; rfl)
  unfold Process.propose at hp
  dsimp only at hp
  split at hp
  · next b l' hb =>
    cases hp
    obtain ⟨hbd, rfl⟩ := ConservativeSleepingTickAlgo.propose_some hb
    unfold Process.conclude at hq
    dsimp only at hq
    split at hq
    · next c o hc =>
      cases hq
      obtain ⟨hcd, rfl⟩ := ConservativeSleepingTickAlgo.conclude_some hc
      obtain ⟨hp, he⟩ := callOf_propose (g := g) r.diff (a.awake r.woken l).2
      have hresp : (callOf l).hear (r.answer (true && waits)).respond =
          callOf (GracePeriodSyncAlgo.propose g r.diff (a.awake r.woken l).2) := by
        rw [hp, responds_awake hw hd, Call.hear_hear]
        rfl
      rw [hresp]
      refine stands_ofOutcome (fun l' hl' hb' => ⟨rfl, rfl, hb', fun _ h0 => ?_⟩) he hm
      -- a difference had the call respond in this very round
      have hl' : l'.needToRespond = _ := congrArg Call.responds hl'
      rw [hcd, hbd] at h0
      rw [hl', hp]
      simp [Call.hear, h0]
    · cases hq
  · cases hp

theorem activeSet_stands {waits : Bool} {l : ActiveSetConservativeTick.Locals} {q : Process} {r : Round}
    (h : (Process.activeSet l).advance g r = .ok q) :
    Stands false true q (((callOf (plain l)).hear (r.answer (false && waits)).respond).settle g r.minNextTime) := by
  obtain ⟨p, hp, hq⟩ := Trace.bind_eq_ok.mp h
  cases hp
  obtain ⟨hc, he⟩ := callOf_propose (g := g) r.diff (plain l)
  rw [← plain_propose] at hc he
  have he : (ActiveSetConservativeTick.propose g r.diff l).nextEstTime = _ := he
  have hresp : (r.answer (false && waits)).respond = decide (r.diff ≠ 0) := by simp [Round.answer]
  rw [hresp, ← hc]
  unfold Process.conclude ActiveSetConservativeTick.conclude at hq
  unfold Call.settle
  dsimp only at hq
  rw [← he]
  split
  · next hlt =>
    rw [if_pos hlt] at hq
    cases hq
    exact ⟨rfl, rfl⟩
  · next hlt =>
    rw [if_neg hlt] at hq
    cases hq
    rfl

/-- A round of the process is a round of the call. -/
theorem advance_stands {sleeps waits : Bool} {p q : Process} {r : Round} {s : Standing} (hs : Stands sleeps waits p s)
    (hl : p.Least g r) (h : p.advance g r = .ok q) :
    ∃ s', s.advance g (r.answer (sleeps && waits)) = .ok s' ∧ Stands sleeps true q s' := by
  cases p with
  | gracePeriod l =>
    obtain ⟨rfl, rfl⟩ := hs
    exact ⟨_, rfl, gracePeriod_stands hl h⟩
  | sleeping a l =>
    obtain ⟨rfl, rfl, hw, hd⟩ := hs
    exact ⟨_, rfl, sleeping_stands hw hd hl h⟩
  | activeSet l =>
    obtain ⟨rfl, rfl⟩ := hs
    exact ⟨_, rfl, activeSet_stands h⟩
  | returned t => cases h
  | finished => cases h

/-! ## What a call returns -/

/-- The answers of a call's rounds: before the first the call has not waited. -/
def TickAlgorithm.answers (alg : TickAlgorithm) : List Round → List Answer
  | [] => []
  | r :: rs => r.answer false :: rs.map (Round.answer alg.sleeps)

/-- The place the last of the rounds starts from. -/
def lastPlace (g : Integrator) (currentTime : TIME) (rounds : List Round) : TIME :=
  place g currentTime (rounds.dropLast.map Round.minNextTime)

variable {alg : TickAlgorithm} {currentTime nextTime t : TIME} {rounds : List Round} {p : Process}

theorem getNextTime_stands (hg : alg.grantedTime ≤ currentTime) (hn : currentTime < nextTime) :
    Stands alg.sleeps false (alg.getNextTime currentTime nextTime) (.waiting ⟨currentTime, nextTime, false⟩) := by
  have hlt : ¬ nextTime < alg.grantedTime := (hg.trans hn.le).not_gt
  cases alg with
  | gracePeriod grantedTime =>
    have : GracePeriodSyncAlgo.returnsAtOnce grantedTime nextTime = false := decide_eq_false hlt
    rw [TickAlgorithm.getNextTime, this]
    exact ⟨rfl, rfl⟩
  | sleeping a =>
    have : ConservativeSleepingTickAlgo.returnsAtOnce a.grantedTime nextTime = false := decide_eq_false hlt
    have hcur : ¬ currentTime < a.grantedTime := hg.not_gt
    rw [TickAlgorithm.getNextTime, this]
    simp [Stands, TickAlgorithm.sleeps, callOf, ConservativeSleepingTickAlgo.enter, hcur]
  | activeSet grantedTime =>
    have : ActiveSetConservativeTick.returnsAtOnce grantedTime nextTime = false := decide_eq_false hlt
    rw [TickAlgorithm.getNextTime, this]
    exact ⟨rfl, rfl⟩

/-- The rounds of a call of any of the algorithms are rounds of a `Call`. -/
theorem run_stands (hg : alg.grantedTime ≤ currentTime) (hn : currentTime < nextTime)
    (hl : Trace.Guarded (Process.advance g) (Process.Least g) (alg.getNextTime currentTime nextTime) rounds)
    (hr : Trace.run (Process.advance g) (alg.getNextTime currentTime nextTime) rounds = .ok p) :
    ∃ waits s, Trace.run (Standing.advance g) (.waiting ⟨currentTime, nextTime, false⟩) (alg.answers rounds) = .ok s ∧
      Stands alg.sleeps waits p s := by
  have hs := getNextTime_stands hg hn
  cases rounds with
  | nil =>
    cases hr
    exact ⟨false, _, rfl, hs⟩
  | cons r rounds =>
    obtain ⟨q, hq, hr⟩ := Trace.run_cons.mp hr
    obtain ⟨hm, hl⟩ := hl q hq
    obtain ⟨s, hadv, hs⟩ := advance_stands hs hm hq
    rw [Bool.and_false] at hadv
    obtain ⟨s', hrun, hs'⟩ := Trace.run_simulates
      (fun _ _ _ _ h hm hq => Bool.and_true alg.sleeps ▸ advance_stands h hm hq) hs hl hr
    exact ⟨true, s', Trace.run_cons.mpr ⟨s, hadv, hrun⟩, hs'⟩

theorem any_answers (alg : TickAlgorithm) (rounds : List Round) :
    (alg.answers rounds).any Answer.respond = alg.asked rounds := by
  cases rounds with
  | nil => simp [TickAlgorithm.answers, TickAlgorithm.asked]
  | cons r rounds =>
    have hrest : (rounds.map (Round.answer alg.sleeps)).any Answer.respond =
        (rounds.any (fun r => r.diff ≠ 0) || (alg.sleeps && rounds.any Round.woken)) := by
      induction rounds with
      | nil => simp
      | cons r rounds ih =>
        rw [List.map_cons, List.any_cons, List.any_cons, List.any_cons, ih]
        cases alg.sleeps <;> simp [Round.answer, Bool.or_assoc, Bool.or_left_comm]
    rw [TickAlgorithm.answers, List.any_cons, hrest, TickAlgorithm.asked]
    simp [Round.answer, Bool.or_assoc]

theorem minima_answers (alg : TickAlgorithm) (rounds : List Round) :
    (alg.answers rounds).map Answer.minNextTime = rounds.map Round.minNextTime := by
  cases rounds with
  | nil => rfl
  | cons r rounds => simp [TickAlgorithm.answers, Round.answer]

/-- What a call returns. -/
theorem granted_eq (hg : alg.grantedTime ≤ currentTime) (hn : currentTime < nextTime)
    (hl : Trace.Guarded (Process.advance g) (Process.Least g) (alg.getNextTime currentTime nextTime) rounds)
    (hr : Trace.run (Process.advance g) (alg.getNextTime currentTime nextTime) rounds = .ok (.returned t)) :
    t = if alg.asked rounds then addTime (lastPlace g currentTime rounds) g.onetimestep else nextTime := by
  obtain ⟨waits, s, hrun, hs⟩ := run_stands hg hn hl hr
  cases hs
  have := returned_eq hrun
  rwa [Bool.false_or, any_answers, List.map_dropLast, minima_answers, ← List.map_dropLast] at this

/-- A call is granted more than the time it stands at and no more than it asks for exactly if no round
had it respond, or the step from the place of its last round leads there. -/
theorem granted_within_iff (hg : alg.grantedTime ≤ currentTime) (hn : currentTime < nextTime)
    (hl : Trace.Guarded (Process.advance g) (Process.Least g) (alg.getNextTime currentTime nextTime) rounds)
    (hr : Trace.run (Process.advance g) (alg.getNextTime currentTime nextTime) rounds = .ok (.returned t)) :
    (currentTime < t ∧ t ≤ nextTime) ↔
      (alg.asked rounds = false ∨
        (currentTime < addTime (lastPlace g currentTime rounds) g.onetimestep ∧
          addTime (lastPlace g currentTime rounds) g.onetimestep ≤ nextTime)) := by
  have ht := granted_eq hg hn hl hr
  cases ha : alg.asked rounds with
  | false =>
    rw [ha, if_neg Bool.false_ne_true] at ht
    simp [ht, hn]
  | true =>
    rw [ha, if_pos rfl] at ht
    simp [ht]

theorem granted_within_one :
    (0 < 1000000000 ∧ 1000000000 ≤ 5000000000) ↔
      ((TickAlgorithm.gracePeriod 0).asked [⟨false, 1, 1000000000, []⟩] = false ∨
        (0 < addTime (lastPlace (.init .seconds 0 1) 0 [⟨false, 1, 1000000000, []⟩]) 1000000000 ∧
          addTime (lastPlace (.init .seconds 0 1) 0 [⟨false, 1, 1000000000, []⟩]) 1000000000 ≤ 5000000000)) :=
  granted_within_iff (g := .init .seconds 0 1) (by decide) (by decide) (by decide) (by decide)

/-- With a step of 5 s a simulator at 0 s that asks for 5 s first waits for one at 3 s. The message that
this one then sends has it granted 8 s, by each of the algorithms. -/
theorem step_leads_past_next :
    let algs := [TickAlgorithm.gracePeriod 0, .sleeping (.create 2 fun _ => 0), .activeSet 0]
    let rounds : List Round := [⟨false, 0, 3000000000, [3000000000]⟩, ⟨false, 1, 8000000000, []⟩]
    let g : Integrator := .init .seconds 0 5
    (rounds.map Round.minNextTime).IsChain (· < ·) ∧
      (∀ alg ∈ algs, alg.grantedTime ≤ 0 ∧
        Trace.Guarded (Process.advance g) (Process.Least g) (alg.getNextTime 0 5000000000) rounds ∧
        Trace.run (Process.advance g) (alg.getNextTime 0 5000000000) rounds = .ok (.returned 8000000000)) ∧
      ¬ 8000000000 ≤ 5000000000 := by
  decide

/-! ## Steps of one unit -/

/-- The next unit is not past a later time on the grid. -/
theorem add_scale_le {n : ℕ} (m : TimeMetric) (hp : m.scale ∣ currentTime) (hn : m.scale ∣ n) (h : currentTime < n) :
    currentTime + m.scale ≤ n := by
  have := Nat.le_of_dvd (Nat.sub_pos_of_lt h) (Nat.dvd_sub hn hp)
  lia

/-- A time on the grid stays within what is rounded down to it. -/
theorem le_realign (hc : g.simTimeMetric.scale ∣ currentTime) (h : currentTime ≤ t) (ht : t < ulongSize) :
    currentTime ≤ g.realign t := by
  obtain ⟨k, rfl⟩ := hc
  rw [Integrator.realign_of_lt ht, Nat.mul_comm]
  refine Nat.mul_le_mul_right _ ((Nat.le_div_iff_mul_le g.simTimeMetric.scale_pos).mpr ?_)
  rwa [Nat.mul_comm]

/-- A call under way has not come to the time it asks for, and one that returned has not gone past it. -/
def Within (g : Integrator) (currentTime nextTime : TIME) : Standing → Prop
  | .waiting c => c.nextTime = nextTime ∧ g.simTimeMetric.scale ∣ c.place ∧ currentTime ≤ c.place ∧ c.place < nextTime
  | .returned t => currentTime < t ∧ t ≤ nextTime

theorem advance_within (hstep : g.onetimestep = g.simTimeMetric.scale) (hc : g.simTimeMetric.scale ∣ currentTime)
    (hn : g.simTimeMetric.scale ∣ nextTime) (hfit : nextTime < ulongSize) {s s' : Standing} {r : Answer}
    (hs : Within g currentTime nextTime s) (hr : currentTime ≤ r.minNextTime) (h : s.advance g r = .ok s') :
    Within g currentTime nextTime s' := by
  cases s with
  | returned t => cases h
  | waiting c =>
    obtain ⟨rfl, hgrid, hle, hlt⟩ := hs
    have hunit := add_scale_le g.simTimeMetric hgrid hn hlt
    have hprop : c.place < (c.hear r.respond).proposal g ∧ (c.hear r.respond).proposal g ≤ c.nextTime := by
      unfold Call.proposal
      split
      · have hadd : addTime c.place g.onetimestep = c.place + g.simTimeMetric.scale := by
          rw [hstep]
          exact addTime_of_lt (hunit.trans_lt hfit)
        show c.place < addTime c.place g.onetimestep ∧ addTime c.place g.onetimestep ≤ c.nextTime
        rw [hadd]
        exact ⟨Nat.lt_add_of_pos_right g.simTimeMetric.scale_pos, hunit⟩
      · exact ⟨hlt, le_rfl⟩
    have h := Except.ok.inj h
    unfold Call.settle at h
    split at h
    · next hm =>
      have hmin : r.minNextTime < ulongSize := (hm.trans_le hprop.2).trans hfit
      subst h
      refine ⟨rfl, Integrator.scale_dvd_realign hmin, le_realign hc hr hmin, ?_⟩
      exact (Integrator.realign_le hmin).trans_lt (hm.trans_le hprop.2)
    · subst h
      exact ⟨hle.trans_lt hprop.1, hprop.2⟩

/-- With steps of one unit, and nobody proposing less than the time the call stands at, no call is granted
more than it asks for. -/
theorem unit_step_within (hstep : g.onetimestep = g.simTimeMetric.scale) (hc : g.simTimeMetric.scale ∣ currentTime)
    (hnext : g.simTimeMetric.scale ∣ nextTime) (hfit : nextTime < ulongSize)
    (hmin : ∀ r ∈ rounds, currentTime ≤ r.minNextTime) (hg : alg.grantedTime ≤ currentTime)
    (hn : currentTime < nextTime)
    (hl : Trace.Guarded (Process.advance g) (Process.Least g) (alg.getNextTime currentTime nextTime) rounds)
    (hr : Trace.run (Process.advance g) (alg.getNextTime currentTime nextTime) rounds = .ok (.returned t)) :
    currentTime < t ∧ t ≤ nextTime := by
  obtain ⟨waits, s, hrun, hs⟩ := run_stands hg hn hl hr
  cases hs
  have hans : ∀ r ∈ alg.answers rounds, currentTime ≤ r.minNextTime := by
    have := List.forall_mem_map.mpr hmin
    rw [← minima_answers alg] at this
    exact List.forall_mem_map.mp this
  have hstart : Within g currentTime nextTime (.waiting ⟨currentTime, nextTime, false⟩) := ⟨rfl, hc, le_rfl, hn⟩
  have := Trace.always_of_guarded (fun _ _ _ hs hr h => advance_within hstep hc hnext hfit hs hr h) hstart
    (Trace.guarded_of_forall hans)
  exact this.last hrun

end Granting

end Fncs

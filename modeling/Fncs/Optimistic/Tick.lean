/-
The optimistic algorithms: `OptimisticTickSyncAlgo` (`optimisticticksyncalgo.cpp`)
and the net sim's `OptimisticCommSyncAlgo` (`optimisticcommsyncalgo.cpp`), which
is derived from it.

A process forks a child that runs ahead speculatively while the process itself
goes on synchronising; the two share a fail time and an action code. One slot
of the reduction carries a speculation time while the process has no child, and
the action code while it has one. `GetNextTime` is cut at the collectives it
blocks in: the sum of the message counters, and the reduction of the proposals.
-/
import Fncs.Optimistic.Strategy

namespace Fncs

def ACTION_DOFAILLALL : ℕ := 0
def ACTION_NOINFO : ℕ := 1
def ACTION_FAILED : ℕ := 2
def ACTION_SUCCESS : ℕ := 3
def ACTION_UNDEFINED : ℕ := 4

/-- The memory a process and its child share. -/
structure ShmItems where
  failTime : TIME
  action : ℕ
  deriving DecidableEq, Repr

/-- A process with its view of the shared memory, `comm`. -/
inductive Role
  /-- No child process. -/
  | alone
  | parent (comm : ShmItems)
  /-- A speculative process; it detaches from the memory when its speculation fails. -/
  | child (comm : Option ShmItems)
  deriving DecidableEq, Repr

structure OptimisticTickSyncAlgo where
  integrator : Integrator
  st : SpeculationTimeCalculationStrategy
  grantedTime : TIME
  finished : Bool
  specFailTime : TIME
  minNextTime : TIME
  globalAction : ℕ
  role : Role
  deriving DecidableEq, Repr

/-- What a process does about its speculation in a round. -/
inductive Decision
  | keepGoing
  | fork
  | killChild
  | failAll
  | die
  deriving DecidableEq, Repr

/-- What a process takes to the reduction of the proposals. -/
inductive Ask
  | reduceMinTime (minNextTime : TIME)
  /-- `aggreateReduceMin` with a speculation time. -/
  | specTime (minNextTime specNextTime : TIME)
  /-- `aggreateReduceMin` with an action code. -/
  | action (minNextTime : TIME) (action : ℕ)
  deriving DecidableEq, Repr

namespace Ask

/-- Which of the two collectives this is for. -/
def plain : Ask → Bool
  | .reduceMinTime _ => true
  | .specTime _ _ | .action _ _ => false

def time : Ask → TIME
  | .reduceMinTime t | .specTime t _ | .action t _ => t

/-- What goes into the slot, as a number. -/
def slot : Ask → TIME
  | .reduceMinTime _ => Infinity
  | .specTime _ t => t
  | .action _ code => code

/-- What the slot carries. -/
inductive Kind
  | nothing
  | specTime
  | action
  deriving DecidableEq, Repr

def kind : Ask → Kind
  | .reduceMinTime _ => .nothing
  | .specTime _ _ => .specTime
  | .action _ _ => .action

end Ask

namespace OptimisticTickSyncAlgo

def init (integrator : Integrator) (strategy : SpeculationTimeCalculationStrategy) : OptimisticTickSyncAlgo where
  integrator := integrator
  st := strategy
  grantedTime := 0
  finished := false
  specFailTime := Infinity
  minNextTime := 0
  globalAction := 0
  role := .alone

variable (a : OptimisticTickSyncAlgo)

def hasChild : Bool :=
  match a.role with
  | .parent _ => true
  | _ => false

/-! ## The speculative process -/

/-- The child goes on until it fails or the parent gets ahead of it. -/
def doLimbo : OptimisticTickSyncAlgo :=
  match a.role with
  | .parent comm =>
    if a.minNextTime < comm.failTime then { a with specFailTime := comm.failTime }
    else if comm.action = ACTION_FAILED then { a with role := .parent { comm with action := ACTION_DOFAILLALL } }
    else a
  | _ => a

def doFailAll : OptimisticTickSyncAlgo :=
  match a.role with
  | .parent _ => { a with specFailTime := Infinity, role := .alone }
  | _ => a

def childDied : OptimisticTickSyncAlgo :=
  match a.role with
  | .parent comm =>
    { a with specFailTime := comm.failTime, st := a.st.speculationFailed comm.failTime, role := .alone }
  | _ => a

/-- Whether `checkChild` kills the child. -/
def killsChild (diff : ℕ) : Bool := decide (0 < diff) && a.hasChild

def checkChild (diff : ℕ) : OptimisticTickSyncAlgo :=
  if a.killsChild diff then { a.childDied with specFailTime := Infinity } else a

/-- The memory after `attachTimeShm`: what is attached already is left as it is. -/
def attachTimeShm : ShmItems :=
  match a.role with
  | .parent comm | .child (some comm) => comm
  | _ => ⟨0, if a.st.sendUnknownAction then ACTION_NOINFO else ACTION_UNDEFINED⟩

/-- The process that goes on after a fork at `currentTime`. -/
def forked (asChild : Bool) (currentTime : TIME) : OptimisticTickSyncAlgo :=
  if asChild then
    { a with st := a.st.startSpeculation currentTime, specFailTime := Infinity, role := .child (some a.attachTimeShm) }
  else { a with st := a.st.startSpeculation currentTime, role := .parent a.attachTimeShm }

/-- Which branch `testSpeculationState` takes. -/
def decision (specNextTime : TIME) : Decision :=
  if a.hasChild = false ∧ specNextTime ≠ 0 then .fork
  else if a.hasChild = true then
    if a.globalAction = ACTION_DOFAILLALL then .failAll
    else if a.globalAction = ACTION_FAILED then .killChild
    else if a.globalAction = ACTION_SUCCESS then .die
    else .keepGoing
  else .keepGoing

/-- The process after `testSpeculationState`, and what that returns; `none` if
the process exits. After a fork `asChild` says which of the two is followed. -/
def testSpeculationState (asChild : Bool) (specNextTime currentTime : TIME) :
    Option (OptimisticTickSyncAlgo × TIME) :=
  match a.decision specNextTime with
  | .fork => some (a.forked asChild currentTime, if asChild then specNextTime else 0)
  | .failAll => some (a.doFailAll, 0)
  | .killChild => some (a.childDied, 0)
  | .die => none
  | .keepGoing => some (if a.hasChild = true ∧ a.globalAction = ACTION_NOINFO then a.doLimbo else a, 0)

/-- `timeStepStart`, past the barrier if it waits there. A child that gets there
has succeeded, and takes its parent's place; one that has detached from the
memory dereferences a null pointer. -/
def timeStepStart (currentTime : TIME) : Option OptimisticTickSyncAlgo :=
  if currentTime < a.grantedTime then
    match a.role with
    | .child (some comm) => some { a with role := .child (some { comm with failTime := currentTime }) }
    | _ => some a
  else
    match a.role with
    | .child (some _) =>
      some { a with specFailTime := Infinity, st := a.st.speculationSuceeded currentTime, role := .alone }
    | .child none => none
    | _ => some a

/-- What the reduction writes back: the minimum, and the slot's minimum in the
action code or as the speculation time, which is `other` if the slot held no time. -/
def receive (other minimum slot : TIME) : Ask → OptimisticTickSyncAlgo × TIME
  | .reduceMinTime _ => ({ a with minNextTime := minimum }, 0)
  | .specTime _ _ => ({ a with minNextTime := minimum }, slot)
  | .action _ _ => ({ a with minNextTime := minimum, globalAction := slot }, other)

/-- The reduction and what follows from it for the speculation: `minNextTime` is
the minimum, or in a new child the speculation time. `none` if the process exits. -/
def settle (other : TIME) (asChild : Bool) (minimum slot currentTime : TIME) (ask : Ask) :
    Option OptimisticTickSyncAlgo :=
  let received := a.receive other minimum slot ask
  (received.1.testSpeculationState asChild received.2 currentTime).map fun result =>
    if 0 < result.2 then { result.1 with minNextTime := received.2 } else result.1

/-- We passed beyond the fail time of the last speculation. -/
def forgetFailTime (currentTime : TIME) : OptimisticTickSyncAlgo :=
  if a.specFailTime < currentTime then { a with specFailTime := Infinity } else a

/-! ## `GetNextTime` -/

/-- The local variables of `GetNextTime`. -/
structure Locals where
  currentTimeParam : TIME
  currentTime : TIME
  nextTime : TIME
  nextEstTime : TIME
  myminNextTime : TIME
  canSpeculate : Bool
  needToRespond : Bool
  busywait : Bool
  deriving DecidableEq, Repr

/-- A call that asks for no more than what was granted returns at once. -/
def returnsAtOnce (nextTime : TIME) : Bool := nextTime ≤ a.grantedTime

/-- Where the loop is entered: with granted time left, the barrier is at the granted time. -/
def enter (currentTime nextTime : TIME) : Locals where
  currentTimeParam := currentTime
  currentTime := if currentTime < a.grantedTime then a.grantedTime else currentTime
  nextTime := nextTime
  nextEstTime := 0
  myminNextTime := 0
  canSpeculate := false
  needToRespond := false
  busywait := currentTime < a.grantedTime

/-- The locals of a call that waits at `t` for another turn. -/
def Locals.waiting (g : Integrator) (t : TIME) (l : Locals) : Locals :=
  { l with currentTimeParam := g.realign t, currentTime := t, busywait := true }

/-- A turn of the loop, up to the sum of the counters. -/
def beginTurn (l : Locals) : Option OptimisticTickSyncAlgo :=
  if l.busywait then a.timeStepStart l.currentTime else some a

/-- The proposal, once the difference is known. -/
def propose (diff : ℕ) (l : Locals) : OptimisticTickSyncAlgo × Locals :=
  if diff = 0 ∧ l.needToRespond = false then
    if a.specFailTime ≠ Infinity ∧ l.nextTime < a.specFailTime then
      -- the last speculation ran up to `specFailTime` without a message
      ({ a with specFailTime := Infinity },
        { l with nextEstTime := a.specFailTime, myminNextTime := l.nextTime, canSpeculate := false })
    else (a, { l with nextEstTime := l.nextTime, myminNextTime := l.nextTime, canSpeculate := true })
  else
    let nextEstTime := addTime l.currentTimeParam a.integrator.onetimestep
    (a.checkChild diff,
      { l with nextEstTime := nextEstTime, myminNextTime := nextEstTime, canSpeculate := false, needToRespond := true })

def mySpecNextTime (l : Locals) : TIME :=
  if l.canSpeculate = true ∧ a.st.worthSpeculation l.currentTime a.specFailTime = true then
    a.st.getNextSpecTime l.currentTime
  else 0

/-- What the process submits. -/
def ask (diff : ℕ) (minNextTime mySpecNextTime : TIME) : Ask :=
  if diff = 0 then
    match a.role with
    | .parent comm => .action minNextTime comm.action
    | _ => .specTime minNextTime mySpecNextTime
  else .reduceMinTime minNextTime

/-- How a turn of the loop ends. -/
inductive Outcome
  | again (a : OptimisticTickSyncAlgo) (l : Locals)
  | returned (a : OptimisticTickSyncAlgo) (t : TIME)
  | exited
  deriving DecidableEq, Repr

/-- The end of the turn, once the reduction is known. -/
def conclude (asChild : Bool) (minimum slot : TIME) (l : Locals) (ask : Ask) : Outcome :=
  match a.settle 0 asChild minimum slot l.currentTime ask with
  | none => .exited
  | some a =>
    if a.minNextTime = 0 then .returned { a with finished := true } 0
    else
      let granted := { a with grantedTime := a.minNextTime }
      if a.minNextTime < l.myminNextTime then .again granted (l.waiting a.integrator a.minNextTime)
      else .returned granted l.myminNextTime

/-! ## What the steps do -/

variable {a} {a' b : OptimisticTickSyncAlgo} {asChild : Bool} {s t r : TIME} {diff : ℕ} {l : Locals}

/-- Only a child does more than wait: it notes the time, or takes its parent's place. -/
theorem timeStepStart_cases (h : a.timeStepStart t = some a') :
    (∃ comm, a.role = .child (some comm) ∧ t < a.grantedTime ∧
      a' = { a with role := .child (some { comm with failTime := t }) }) ∨
    (∃ comm, a.role = .child (some comm) ∧ a.grantedTime ≤ t ∧
      a' = { a with specFailTime := Infinity, st := a.st.speculationSuceeded t, role := .alone }) ∨
    ((∀ comm, a.role = .child comm → comm = none ∧ t < a.grantedTime) ∧ a' = a) := by
  unfold timeStepStart at h
  split at h
  · next ht =>
    cases hr : a.role with
    | alone => simp only [hr] at h; exact .inr (.inr ⟨nofun, (Option.some.inj h).symm⟩)
    | parent comm => simp only [hr] at h; exact .inr (.inr ⟨nofun, (Option.some.inj h).symm⟩)
    | child comm =>
      cases comm with
      | none =>
        simp only [hr] at h
        exact .inr (.inr ⟨fun _ he => ⟨(Role.child.inj he).symm, ht⟩, (Option.some.inj h).symm⟩)
      | some comm => simp only [hr] at h; exact .inl ⟨comm, rfl, ht, (Option.some.inj h).symm⟩
  · next ht =>
    cases hr : a.role with
    | alone => simp only [hr] at h; exact .inr (.inr ⟨nofun, (Option.some.inj h).symm⟩)
    | parent comm => simp only [hr] at h; exact .inr (.inr ⟨nofun, (Option.some.inj h).symm⟩)
    | child comm =>
      cases comm with
      | none => simp only [hr] at h; cases h
      | some comm => simp only [hr] at h; exact .inr (.inl ⟨comm, rfl, not_lt.mp ht, (Option.some.inj h).symm⟩)

theorem testSpeculationState_cases (h : a.testSpeculationState asChild s t = some (b, r)) :
    (a.decision s = .fork ∧ b = a.forked asChild t ∧ r = if asChild then s else 0) ∨
    (a.decision s = .failAll ∧ b = a.doFailAll ∧ r = 0) ∨
    (a.decision s = .killChild ∧ b = a.childDied ∧ r = 0) ∨
    (a.decision s = .keepGoing ∧ (b = a ∨ b = a.doLimbo) ∧ r = 0) := by
  unfold testSpeculationState at h
  split at h
  · next hd => cases h; exact .inl ⟨hd, rfl, rfl⟩
  · next hd => cases h; exact .inr (.inl ⟨hd, rfl, rfl⟩)
  · next hd => cases h; exact .inr (.inr (.inl ⟨hd, rfl, rfl⟩))
  · cases h
  · next hd =>
    cases h
    refine .inr (.inr (.inr ⟨hd, ?_, rfl⟩))
    split
    · exact .inr rfl
    · exact .inl rfl

/-! ## What the speculation leaves alone -/

/-- Only the end of a turn touches the granted time. -/
structure Untouched (a b : OptimisticTickSyncAlgo) : Prop where
  grantedTime : b.grantedTime = a.grantedTime
  minNextTime : b.minNextTime = a.minNextTime
  integrator : b.integrator = a.integrator

theorem Untouched.refl : Untouched a a := ⟨rfl, rfl, rfl⟩

theorem Untouched.trans {c : OptimisticTickSyncAlgo} (h : Untouched a b) (h' : Untouched b c) : Untouched a c :=
  ⟨h'.grantedTime.trans h.grantedTime, h'.minNextTime.trans h.minNextTime, h'.integrator.trans h.integrator⟩

theorem untouched_childDied : Untouched a a.childDied := by
  cases h : a.role <;> simp only [childDied, h] <;> exact ⟨rfl, rfl, rfl⟩

theorem untouched_doFailAll : Untouched a a.doFailAll := by
  cases h : a.role <;> simp only [doFailAll, h] <;> exact ⟨rfl, rfl, rfl⟩

theorem untouched_doLimbo : Untouched a a.doLimbo := by
  unfold doLimbo
  split
  · split
    · exact ⟨rfl, rfl, rfl⟩
    · split <;> exact ⟨rfl, rfl, rfl⟩
  · exact .refl

theorem untouched_checkChild : Untouched a (a.checkChild diff) := by
  unfold checkChild
  split
  · exact untouched_childDied.trans ⟨rfl, rfl, rfl⟩
  · exact .refl

theorem untouched_forked : Untouched a (a.forked asChild t) := by
  cases asChild <;> exact ⟨rfl, rfl, rfl⟩

theorem untouched_timeStepStart (h : a.timeStepStart t = some b) : Untouched a b := by
  obtain ⟨comm, -, -, rfl⟩ | ⟨comm, -, -, rfl⟩ | ⟨-, rfl⟩ := timeStepStart_cases h <;> exact ⟨rfl, rfl, rfl⟩

theorem untouched_beginTurn (h : a.beginTurn l = some b) : Untouched a b := by
  unfold beginTurn at h
  split at h
  · exact untouched_timeStepStart h
  · cases h; exact .refl

theorem untouched_forgetFailTime : Untouched a (a.forgetFailTime t) := by
  unfold forgetFailTime
  split <;> exact ⟨rfl, rfl, rfl⟩

theorem untouched_testSpeculationState (h : a.testSpeculationState asChild s t = some (b, r)) : Untouched a b := by
  obtain ⟨-, rfl, -⟩ | ⟨-, rfl, -⟩ | ⟨-, rfl, -⟩ | ⟨-, rfl | rfl, -⟩ := testSpeculationState_cases h
  · exact untouched_forked
  · exact untouched_doFailAll
  · exact untouched_childDied
  · exact .refl
  · exact untouched_doLimbo

theorem untouched_propose : Untouched a (a.propose diff l).1 := by
  unfold propose
  split
  · split <;> exact ⟨rfl, rfl, rfl⟩
  · exact untouched_checkChild

/-- A proposal leaves the times the call stands at, and what it asks for, as they are. -/
theorem locals_propose : (a.propose diff l).2.currentTimeParam = l.currentTimeParam ∧
    (a.propose diff l).2.currentTime = l.currentTime ∧ (a.propose diff l).2.nextTime = l.nextTime := by
  unfold propose
  split
  · split <;> exact ⟨rfl, rfl, rfl⟩
  · exact ⟨rfl, rfl, rfl⟩

/-- Once a difference was not 0 the call responds. -/
theorem needToRespond_propose : (a.propose diff l).2.needToRespond = (l.needToRespond || decide (diff ≠ 0)) := by
  unfold propose
  split
  · next h => split <;> simp [h.1]
  · next h =>
    cases hn : l.needToRespond with
    | true => rfl
    | false => simpa [hn] using h

/-- In the parents' lineage the minimum is what everybody is granted. -/
theorem settle_parent {other minimum slot : TIME} {ask : Ask}
    (h : a.settle other false minimum slot t ask = some b) :
    b.grantedTime = a.grantedTime ∧ b.minNextTime = minimum ∧ b.integrator = a.integrator := by
  obtain ⟨⟨c, r⟩, hc, he⟩ := Option.map_eq_some_iff.mp h
  have hr : r = 0 := by
    obtain ⟨-, -, h⟩ | ⟨-, -, h⟩ | ⟨-, -, h⟩ | ⟨-, -, h⟩ := testSpeculationState_cases hc <;> exact h
  subst hr
  obtain ⟨hg, hm, hi⟩ := untouched_testSpeculationState hc
  rw [if_neg (lt_irrefl _)] at he
  subst he
  cases ask <;> exact ⟨hg, hm, hi⟩

end OptimisticTickSyncAlgo

/-! ## The net sim -/

namespace OptimisticCommSyncAlgo

variable (a : OptimisticTickSyncAlgo)

def returnsAtOnce (nextTime : TIME) : Bool := nextTime < a.grantedTime

/-- What the net sim proposes; in the slot it follows what the others do. -/
def proposal : TIME := Infinity

/-- The end of the call, once the reduction is known: the net sim and what it returns. -/
def conclude (asChild : Bool) (minimum slot currentTime : TIME) (ask : Ask) :
    Option (OptimisticTickSyncAlgo × TIME) :=
  (a.settle Infinity asChild minimum slot currentTime ask).map fun a =>
    if a.minNextTime = Infinity then ({ a with finished := true }, Infinity)
    else ({ a with grantedTime := a.minNextTime }, a.minNextTime)

end OptimisticCommSyncAlgo

end Fncs

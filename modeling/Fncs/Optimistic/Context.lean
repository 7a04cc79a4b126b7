/-
A context of optimistic simulators: any number of processes with
OptimisticTickSyncAlgo and the net sim with OptimisticCommSyncAlgo. A process
moves on its own up to a collective; the sum of the counters and the reduction
of the proposals each move all of them, and give all of them the same result.

A barrier only holds a process back, so here it passes one by itself: that
allows more orders than there are. Children and parents write to the shared
memory at any time. At a fork a run follows the parents, or the children, which
form a context of their own.
-/
import Fncs.Optimistic.Tick
import Fncs.Lib.Trace

namespace Fncs.Optimistic

open OptimisticTickSyncAlgo (Locals)

/-- Where a process is; `L` is what its call of `GetNextTime` keeps. -/
inductive Loc (L : Type)
  /-- In the simulator's own code. -/
  | running
  | sendReceive (l : L)
  | minTime (l : L) (ask : Ask)
  /-- Blocked for good, or exited. -/
  | halted
  deriving DecidableEq, Repr

structure Process (L : Type) where
  algo : OptimisticTickSyncAlgo
  loc : Loc L
  deriving DecidableEq, Repr

abbrev Tick := Process Locals

/-- Its call keeps the `currentTime`. -/
abbrev NetSim := Process TIME

namespace Process

variable {L : Type}

def start (integrator : Integrator) (strategy : SpeculationTimeCalculationStrategy) : Process L where
  algo := .init integrator strategy
  loc := .running

/-- The shared memory is written by the process at its other end. -/
def write (items : ShmItems) (p : Process L) : Option (Process L) :=
  match p.algo.role with
  | .parent _ => some { p with algo := { p.algo with role := .parent items } }
  | .child (some _) => some { p with algo := { p.algo with role := .child (some items) } }
  | _ => none

/-- A message is sent or received. A child reports that it has failed and
detaches from the memory, which it can do once; after a send it is blocked. -/
def message (sent : Bool) (p : Process L) : Option (Process L) :=
  match p.loc, p.algo.role with
  | .running, .child (some _) =>
    some ⟨{ p.algo with role := .child none }, if sent then .halted else .running⟩
  | .running, .child none => none
  | .running, _ => some p
  | _, _ => none

/-- What the process has taken to the reduction of the proposals. -/
def ask? (p : Process L) : Option Ask :=
  match p.loc with
  | .minTime _ ask => some ask
  | _ => none

/-- What the process decides once the reduction is known. -/
def decision (other minimum slot : TIME) (p : Process L) : Option Decision :=
  p.ask?.map fun ask => (p.algo.receive other minimum slot ask).1.decision (p.algo.receive other minimum slot ask).2

theorem write_cases {items : ShmItems} {p q : Process L} (h : p.write items = some q) :
    q.loc = p.loc ∧ OptimisticTickSyncAlgo.Untouched p.algo q.algo := by
  unfold write at h
  split at h <;> first | cases h; exact ⟨rfl, rfl, rfl, rfl⟩ | cases h

end Process

namespace Tick

/-- `GetNextTime`, up to the sum of the counters. -/
def getNextTime (currentTime nextTime : TIME) (a : OptimisticTickSyncAlgo) : Option Tick :=
  if a.returnsAtOnce nextTime then some ⟨a, .running⟩
  else
    let l := a.enter currentTime nextTime
    ((a.forgetFailTime l.currentTime).beginTurn l).map fun a => ⟨a, .sendReceive l⟩

/-- `timeStepStart`, then `GetNextTime`. -/
def step (currentTime nextTime : TIME) (p : Tick) : Option Tick :=
  match p.loc with
  | .running => (p.algo.timeStepStart currentTime).bind (getNextTime currentTime nextTime)
  | _ => none

def sendReceive (diff : ℕ) (p : Tick) : Option Tick :=
  match p.loc with
  | .sendReceive l =>
    let (a, l) := p.algo.propose diff l
    some ⟨{ a with minNextTime := l.nextEstTime }, .minTime l (a.ask diff l.nextEstTime (a.mySpecNextTime l))⟩
  | _ => none

def reduceMin (asChild : Bool) (minimum slot : TIME) (p : Tick) : Option Tick :=
  match p.loc with
  | .minTime l ask =>
    match p.algo.conclude asChild minimum slot l ask with
    | .again a l => (a.beginTurn l).map fun a => ⟨a, .sendReceive l⟩
    | .returned a _ => some ⟨a, .running⟩
    | .exited => some { p with loc := .halted }
  | _ => none

variable {p q : Tick} {currentTime nextTime minimum slot : TIME} {diff : ℕ} {asChild : Bool}
  {a : OptimisticTickSyncAlgo}

theorem getNextTime_cases (h : getNextTime currentTime nextTime a = some q) :
    (nextTime ≤ a.grantedTime ∧ q = ⟨a, .running⟩) ∨
    (a.grantedTime < nextTime ∧ ∃ b, (a.forgetFailTime (a.enter currentTime nextTime).currentTime).beginTurn
        (a.enter currentTime nextTime) = some b ∧ q = ⟨b, .sendReceive (a.enter currentTime nextTime)⟩) := by
  unfold getNextTime at h
  split at h
  · next hn => cases h; exact .inl ⟨of_decide_eq_true hn, rfl⟩
  · next hn =>
    obtain ⟨b, hb, rfl⟩ := Option.map_eq_some_iff.mp h
    exact .inr ⟨not_le.mp fun hle => hn (decide_eq_true hle), b, hb, rfl⟩

theorem step_cases (h : step currentTime nextTime p = some q) :
    p.loc = .running ∧ ∃ a, p.algo.timeStepStart currentTime = some a ∧
      getNextTime currentTime nextTime a = some q := by
  unfold step at h
  split at h
  · next hl => exact ⟨hl, Option.bind_eq_some_iff.mp h⟩
  · cases h

theorem sendReceive_cases (h : sendReceive diff p = some q) : ∃ l, p.loc = .sendReceive l ∧
    q = ⟨{ (p.algo.propose diff l).1 with minNextTime := (p.algo.propose diff l).2.nextEstTime },
      .minTime (p.algo.propose diff l).2 ((p.algo.propose diff l).1.ask diff (p.algo.propose diff l).2.nextEstTime
        ((p.algo.propose diff l).1.mySpecNextTime (p.algo.propose diff l).2))⟩ := by
  unfold sendReceive at h
  split at h
  · next l hl => exact ⟨l, hl, (Option.some.inj h).symm⟩
  · cases h

/-- A turn ends with the process gone, the simulation over, another turn, or the call. -/
theorem reduceMin_cases (h : reduceMin asChild minimum slot p = some q) : ∃ l ask, p.loc = .minTime l ask ∧
    ((p.algo.settle 0 asChild minimum slot l.currentTime ask = none ∧ q = { p with loc := .halted }) ∨
      ∃ a, p.algo.settle 0 asChild minimum slot l.currentTime ask = some a ∧
        ((a.minNextTime = 0 ∧ q = ⟨{ a with finished := true }, .running⟩) ∨
          (a.minNextTime ≠ 0 ∧ a.minNextTime < l.myminNextTime ∧ ∃ b,
            OptimisticTickSyncAlgo.beginTurn { a with grantedTime := a.minNextTime }
              (l.waiting a.integrator a.minNextTime) = some b ∧
            q = ⟨b, .sendReceive (l.waiting a.integrator a.minNextTime)⟩) ∨
          (a.minNextTime ≠ 0 ∧ l.myminNextTime ≤ a.minNextTime ∧
            q = ⟨{ a with grantedTime := a.minNextTime }, .running⟩))) := by
  unfold reduceMin at h
  split at h
  · next l ask hl =>
    refine ⟨l, ask, hl, ?_⟩
    unfold OptimisticTickSyncAlgo.conclude at h
    cases hs : p.algo.settle 0 asChild minimum slot l.currentTime ask with
    | none =>
      simp only [hs, Option.some.injEq] at h
      exact .inl ⟨rfl, h.symm⟩
    | some a =>
      refine .inr ⟨a, rfl, ?_⟩
      by_cases h0 : a.minNextTime = 0
      · simp only [hs, if_pos h0, Option.some.injEq] at h
        exact .inl ⟨h0, h.symm⟩
      · by_cases hm : a.minNextTime < l.myminNextTime
        · simp only [hs, h0, hm, ite_true, ite_false] at h
          obtain ⟨b, hb, rfl⟩ := Option.map_eq_some_iff.mp h
          exact .inr (.inl ⟨h0, hm, b, hb, rfl⟩)
        · simp only [hs, h0, hm, ite_false, Option.some.injEq] at h
          exact .inr (.inr ⟨h0, not_lt.mp hm, h.symm⟩)
  · cases h

end Tick

namespace NetSim

def step (currentTime nextTime : TIME) (p : NetSim) : Option NetSim :=
  match p.loc with
  | .running =>
    (p.algo.timeStepStart currentTime).map fun a =>
      if OptimisticCommSyncAlgo.returnsAtOnce a nextTime then { p with algo := a }
      else ⟨a.forgetFailTime currentTime, .sendReceive currentTime⟩
  | _ => none

def sendReceive (diff : ℕ) (p : NetSim) : Option NetSim :=
  match p.loc with
  | .sendReceive currentTime =>
    let a := p.algo.checkChild diff
    some ⟨{ a with minNextTime := OptimisticCommSyncAlgo.proposal },
      .minTime currentTime (a.ask diff OptimisticCommSyncAlgo.proposal Infinity)⟩
  | _ => none

def reduceMin (asChild : Bool) (minimum slot : TIME) (p : NetSim) : Option NetSim :=
  match p.loc with
  | .minTime currentTime ask =>
    match OptimisticCommSyncAlgo.conclude p.algo asChild minimum slot currentTime ask with
    | some (a, _) => some ⟨a, .running⟩
    | none => some { p with loc := .halted }
  | _ => none

end NetSim

/-- The processes of a context. -/
structure Context (ι : Type) where
  ticks : ι → Tick
  netSim : NetSim

inductive Label (ι : Type)
  | step (i : ι) (currentTime nextTime : TIME)
  | netStep (currentTime nextTime : TIME)
  | write (i : ι) (items : ShmItems)
  | netWrite (items : ShmItems)
  | message (i : ι) (sent : Bool)
  | netMessage (sent : Bool)
  /-- Everybody learns the difference of the counters. -/
  | sendReceive (diff : ℕ)
  /-- Everybody learns the minima; after a fork `asChild` says who is followed. -/
  | reduceMin (asChild : Bool)
  deriving DecidableEq, Repr

/-- Why a step does not take place. -/
inductive Break
  | notAllowed
  /-- Two processes wait in different collectives. -/
  | mixed
  deriving DecidableEq, Repr

namespace Context

variable {ι : Type}

def start (ticks : ι → Integrator × SpeculationTimeCalculationStrategy)
    (netSim : Integrator × SpeculationTimeCalculationStrategy) : Context ι where
  ticks := fun i => .start (ticks i).1 (ticks i).2
  netSim := .start netSim.1 netSim.2

/-- One process has moved. -/
def moved [DecidableEq ι] (s : Context ι) (i : ι) : Option Tick → Except Break (Context ι)
  | some p => .ok { s with ticks := Function.update s.ticks i p }
  | none => .error .notAllowed

/-- The net sim has moved. -/
def netMoved (s : Context ι) : Option NetSim → Except Break (Context ι)
  | some p => .ok { s with netSim := p }
  | none => .error .notAllowed

variable [Fintype ι]

/-- All of them have moved. -/
def allMoved (ticks : ι → Option Tick) : Option NetSim → Except Break (Context ι)
  | some p =>
    if h : ∀ i, (ticks i).isSome then .ok ⟨fun i => (ticks i).get (h i), p⟩ else .error .notAllowed
  | none => .error .notAllowed

/-- The least of what everybody takes to the reduction. -/
def least (s : Context ι) (part : Ask → TIME) : TIME :=
  Finset.univ.fold min ((s.netSim.ask?.map part).getD Infinity) fun i => ((s.ticks i).ask?.map part).getD Infinity

/-- The minimum of the proposals. -/
def minimum (s : Context ι) : TIME := s.least Ask.time

/-- The minimum of the slot. -/
def slot (s : Context ι) : TIME := s.least Ask.slot

/-- Everybody waits in the same collective. -/
def SameCollective (s : Context ι) : Prop := ∀ i, (s.ticks i).ask?.map Ask.plain = s.netSim.ask?.map Ask.plain

instance (s : Context ι) : Decidable s.SameCollective := inferInstanceAs (Decidable (∀ _, _))

variable [DecidableEq ι]

def step (s : Context ι) : Label ι → Except Break (Context ι)
  | .step i currentTime nextTime => s.moved i (Tick.step currentTime nextTime (s.ticks i))
  | .netStep currentTime nextTime => s.netMoved (NetSim.step currentTime nextTime s.netSim)
  | .write i items => s.moved i ((s.ticks i).write items)
  | .netWrite items => s.netMoved (s.netSim.write items)
  | .message i sent => s.moved i ((s.ticks i).message sent)
  | .netMessage sent => s.netMoved (s.netSim.message sent)
  | .sendReceive diff => allMoved (fun i => Tick.sendReceive diff (s.ticks i)) (NetSim.sendReceive diff s.netSim)
  | .reduceMin asChild =>
    if s.SameCollective then
      allMoved (fun i => Tick.reduceMin asChild s.minimum s.slot (s.ticks i))
        (NetSim.reduceMin asChild s.minimum s.slot s.netSim)
    else .error .mixed

variable {s s' : Context ι} {i : ι}

omit [Fintype ι] in
theorem moved_ok {p : Option Tick} :
    s.moved i p = .ok s' ↔ ∃ q, p = some q ∧ s' = { s with ticks := Function.update s.ticks i q } := by
  cases p <;> simp [moved, eq_comm]

omit [Fintype ι] [DecidableEq ι] in
theorem netMoved_ok {p : Option NetSim} : s.netMoved p = .ok s' ↔ ∃ q, p = some q ∧ s' = { s with netSim := q } := by
  cases p <;> simp [netMoved, eq_comm]

omit [DecidableEq ι] in
theorem allMoved_ok {ticks : ι → Option Tick} {p : Option NetSim} :
    allMoved ticks p = .ok s' ↔ (∀ i, ticks i = some (s'.ticks i)) ∧ p = some s'.netSim := by
  cases p with
  | none => simp [allMoved]
  | some q =>
    unfold allMoved
    dsimp only
    split
    · next h =>
      constructor
      · rintro ⟨⟩
        exact ⟨fun i => (Option.some_get _).symm, rfl⟩
      · rintro ⟨ht, hq⟩
        cases hq
        congr 1
        obtain ⟨t, n⟩ := s'
        simp only [Context.mk.injEq, and_true]
        funext i
        exact Option.get_of_eq_some _ (ht i)
    · next h =>
      constructor
      · nofun
      · rintro ⟨ht, -⟩
        exact absurd (fun i => by rw [ht i]; rfl) h

end Context

end Fncs.Optimistic

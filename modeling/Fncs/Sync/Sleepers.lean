/-
Runs of the sleeping algorithm: the simulators of a group, each with
`ConservativeSleepingTickAlgo`, the net sim and the broker.

A call of `GetNextTime` is cut at the requests it blocks in, and the table of
the others' next times is read and written entry by entry, as the source does
it. What C++ leaves undefined, an entry past the table's end or one that was
never written, ends a simulator's part of the run. The net sim may make any
request of the collectives at any time.
-/
import Fncs.Sync.Sleeping
import Fncs.Sync.Client

namespace Fncs.Sleepers

open Broker (Request Reply Replies HelloGroup Refusal Frame Session)
open ConservativeSleepingTickAlgo (Locals)

/-- What may go wrong with `powersimgrantedTime[i]`. -/
inductive Misuse
  | outOfBounds
  | unwritten
  deriving DecidableEq, Repr

/-- Where a simulator is. Each place but the first is one blocking request. -/
inductive Place
  /-- Outside the algorithm. -/
  | running
  | timeStepStart
  /-- In the `sleep` of the loop over the table; `rest` is what the loop has not looked at. -/
  | waking (rest : List Entry) (l : Locals)
  /-- In the wait that begins a turn. -/
  | waiting (l : Locals)
  | sendRecv (l : Locals)
  | networkDelay (l : Locals)
  | minTime (l : Locals)
  | gather (minNextTime : TIME) (l : Locals)
  deriving DecidableEq, Repr

/-- A simulator with the algorithm. `finished` tells it that the run has ended. -/
structure Tick where
  integrator : Integrator
  algo : ConservativeSleepingTickAlgo
  place : Place
  finished : Bool
  fault : Option Misuse
  deriving DecidableEq, Repr

namespace Tick

/-- A turn of the loop begins. -/
def beginTurn (l : Locals) (x : Tick) : Tick := { x with place := if l.busywait then .waiting l else .sendRecv l }

/-- The loop over the table, up to its next `sleep`. -/
def lookAt (l : Locals) : List Entry → Tick → Tick
  | [], x => x.beginTurn l
  | e :: rest, x =>
    if e.written = false then { x with fault := some .unwritten }
    else if l.nextTime ≥ e.value then { x with place := .waking rest l }
    else x.lookAt l rest

/-- A call that is ahead of what was granted waits for the others. -/
def timeStepStart (currentTime : TIME) (x : Tick) : Tick :=
  if currentTime < x.algo.grantedTime then x else { x with place := .timeStepStart }

/-- `GetNextTime` is called. -/
def getNextTime (currentTime nextTime : TIME) (x : Tick) : Tick :=
  if ConservativeSleepingTickAlgo.returnsAtOnce x.algo.grantedTime nextTime then x
  else
    let l := ConservativeSleepingTickAlgo.enter x.algo.grantedTime currentTime nextTime
    if x.algo.mightSleep then x.lookAt l x.algo.powersimgrantedTime else x.beginTurn l

/-- The request a simulator blocks in. The counters and the delay are the interface's. -/
def request {ι : Type} (sent recv : ℕ) (delay : TIME) (x : Tick) : Option (Request ι) :=
  if x.fault.isSome then none
  else match x.place with
    | .running => none
    | .timeStepStart => some .barrier
    | .waking _ _ => some .sleep
    | .waiting l => some (if x.algo.sleeps l then .sleep else .barrier)
    | .sendRecv _ => some (.reduceSendRecv sent recv)
    | .networkDelay _ => some (.reduceMinTime delay)
    | .minTime l => some (.reduceMinTime l.nextEstTime)
    | .gather _ l => some (.allGatherNextTime l.nextEstTime)

/-- The end of a turn. -/
def conclude (minNextTime : TIME) (nextTimes : List TIME) (l : Locals) (x : Tick) : Tick :=
  match x.algo.conclude x.integrator minNextTime nextTimes l with
  | none => { x with fault := some .outOfBounds }
  | some (a, .again l) => { x with algo := a }.beginTurn l
  | some (a, .returned t) => { x with algo := { a with grantedTime := t }, place := .running }
  | some (a, .finished) => { x with algo := a, place := .running, finished := true }

/-- The reply arrives. `woken` is what `sleep` returns, which the loop over the table drops. -/
def resume (woken : Bool) (x : Tick) (r : Reply) : Tick :=
  match x.place, r with
  | .timeStepStart, .ack => { x with place := .running }
  | .waking rest l, .ack => { x with algo := { x.algo with mightSleep := false } }.lookAt l rest
  | .waiting l, .ack =>
    { x with algo := (x.algo.awake woken l).1, place := .sendRecv (x.algo.awake woken l).2 }
  | .sendRecv l, .diff d => { x with algo := { x.algo with diff := d }, place := .networkDelay l }
  | .networkDelay l, .time _ =>
    match x.algo.propose x.integrator x.algo.diff l with
    | some (a, l) => { x with algo := a, place := .minTime l }
    | none => { x with fault := some .outOfBounds }
  | .minTime l, .time t => if x.algo.gathers then { x with place := .gather t l } else x.conclude t [] l
  | .gather t l, .nextTimes ts => x.conclude t ts l
  | _, _ => x

end Tick

/-! ## The system -/

/-- What happens next. `woken` is what the calls of `sleep` that are answered return. -/
inductive Event (ι : Type)
  | timeStepStart (i : ι) (currentTime : TIME)
  | getNextTime (i : ι) (currentTime nextTime : TIME)
  /-- The request a simulator blocks in reaches the broker. -/
  | request (i : ι) (sent recv : ℕ) (delay : TIME) (woken : ι → Bool)
  | netSim (r : Request ι) (woken : ι → Bool)

/-- The broker with the requests it has not answered, and the simulators. -/
structure State (ι : Type) [LinearOrder ι] where
  session : Session ι
  ticks : ι → Tick

variable {ι : Type} [LinearOrder ι]

/-- The simulators with the algorithm: all but the net sim. -/
def powerSims (g : HelloGroup ι) : Finset ι := g.members.toFinset.erase g.netSim

def numberOfPowerSims (g : HelloGroup ι) : ℕ := (powerSims g).card

namespace State

/-- Every simulator has called its constructor, and makes its first call. -/
def start (g : HelloGroup ι) (integrator : ι → Integrator) (fresh : ι → ℕ → TIME) (b : Broker ι) : State ι where
  session := .start b
  ticks := fun i => ⟨integrator i, .create (numberOfPowerSims g) (fresh i), .running, false, none⟩

/-- The simulators once the broker has sent `out`. -/
def resumed (s : State ι) (out : Replies ι) (woken : ι → Bool) (i : ι) : Tick :=
  match System.replyTo out i with
  | none => s.ticks i
  | some r => (s.ticks i).resume (woken i) r

/-- A request reaches the broker. -/
def send (g : HelloGroup ι) (s : State ι) (f : Frame ι) (woken : ι → Bool) : Except Refusal (State ι) :=
  if Broker.collectivesOnly g.netSim s.session f then
    match s.session.broker.step f.identity f.context f.request with
    | .error e => .error (.stopped e)
    | .ok (b, out, _) => .ok ⟨s.session.after f b out, s.resumed out woken⟩
  else .error .notAllowed

/-- A simulator that waits for nothing makes a call. -/
def call (g : HelloGroup ι) (s : State ι) (i : ι) (f : Tick → Tick) : Except Refusal (State ι) :=
  if i ∈ powerSims g ∧ (s.ticks i).place = .running ∧ (s.ticks i).fault = none then
    .ok { s with ticks := Function.update s.ticks i (f (s.ticks i)) }
  else .error .notAllowed

def step (g : HelloGroup ι) (s : State ι) : Event ι → Except Refusal (State ι)
  | .timeStepStart i currentTime => s.call g i (Tick.timeStepStart currentTime)
  | .getNextTime i currentTime nextTime => s.call g i (Tick.getNextTime currentTime nextTime)
  | .request i sent recv delay woken =>
    match (s.ticks i).request sent recv delay with
    | some r => if i ∈ powerSims g then s.send g ⟨i, 0, r⟩ woken else .error .notAllowed
    | none => .error .notAllowed
  | .netSim r woken => s.send g ⟨g.netSim, 0, r⟩ woken

end State

end Fncs.Sleepers

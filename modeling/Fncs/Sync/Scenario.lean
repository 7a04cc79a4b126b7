/-
Message-free runs: the simulators of a group, each of which calls
`timeStepStart` and `getNextTime` over and over, with the plain algorithms or
with the active-set ones. What a simulator asks for is a function of the times
its calls have returned.
-/
import Fncs.Sync.GracePeriod
import Fncs.Sync.ActiveSet
import Fncs.Sync.Client

namespace Fncs

open Broker (Request Reply HelloGroup)

/-- The simulators of a group: what they are started with, and what they ask for. -/
structure Scenario (ι : Type) [LinearOrder ι] where
  group : HelloGroup ι
  setup : ι → Setup
  netSim_metric : (setup group.netSim).simTimeStep = .nanoseconds
  /-- The `nextTime` of a simulator, after the times its calls have returned, the latest first. -/
  policy : ι → List TIME → TIME

namespace Scenario

variable {ι : Type} [LinearOrder ι] (S : Scenario ι)

def integrator (i : ι) : Integrator := (S.setup i).integrator

/-- The simulator's clock. -/
def clock (i : ι) (grants : List TIME) : TIME := grants.headD (S.setup i).initialTime

/-- The framework times the next call is made with. -/
def currentTime (i : ι) (grants : List TIME) : TIME := (S.integrator i).toFramework (S.clock i grants)

def nextTime (i : ι) (grants : List TIME) : TIME := (S.integrator i).toFramework (S.policy i grants)

/-- A call the simulator may make: for more than its clock shows, and for a
finite time that the clocks of both the simulator and the net sim can show. -/
def legal (i : ι) (grants : List TIME) : Bool :=
  decide (S.clock i grants < S.policy i grants) &&
    decide (S.policy i grants * (S.integrator i).simTimeMetric.scale < ulongSize) &&
    (decide (i = S.group.netSim) || (decide (S.nextTime i grants < Infinity) &&
      decide (S.nextTime i grants + (S.integrator S.group.netSim).offset < ulongSize)))

end Scenario

/-- A simulator: the times its calls have returned, the latest first and in its
own unit, `grantedTime`, and where it is. -/
structure Sim (Loc : Type) where
  grants : List TIME
  grantedTime : TIME
  loc : Loc
  deriving DecidableEq, Repr

namespace Sim

/-- The start of `GetNextTime` in one algorithm: whether it returns at once, for
`grantedTime` and the requested time, and where it goes otherwise, for the
current and the requested time. -/
structure Entry (Pc : Type) where
  returnsAtOnce : TIME → TIME → Bool
  goes : TIME → TIME → Pc

variable {ι : Type} [LinearOrder ι] {Loc Pc : Type} (S : Scenario ι)

/-- `GetNextTime` is called: the net sim enters at `net`, the others at `tick`. -/
def call (tick net : Entry Pc) (stopped : Pc) (i : ι) (x : Sim Loc) : Pc :=
  let entry := if i = S.group.netSim then net else tick
  if entry.returnsAtOnce x.grantedTime (S.nextTime i x.grants) then stopped
  else entry.goes (S.currentTime i x.grants) (S.nextTime i x.grants)

/-- `GetNextTime` has returned `t`: the next step starts, without a barrier if the clock is behind. -/
def returned (goto : Sim Loc → Pc → Sim Loc) (timeStepStart : Pc) (call : Sim Loc → Pc) (i : ι) (x : Sim Loc)
    (t : TIME) : Sim Loc :=
  let x : Sim Loc := { x with grants := (S.integrator i).toSimTime t :: x.grants, grantedTime := t }
  goto x (if S.currentTime i x.grants < t then call x else timeStepStart)

end Sim

/-! ## The plain algorithms -/

namespace PlainSim

/-- Where a simulator is. `stopped`: its call has returned without a
reduction, or it has been told to finish. -/
inductive Loc
  | timeStepStart
  | waitforAll (l : GracePeriodSyncAlgo.Locals)
  | sendRecv (l : GracePeriodSyncAlgo.Locals)
  | networkDelay (l : GracePeriodSyncAlgo.Locals) (diff : ℕ)
  | minTime (l : GracePeriodSyncAlgo.Locals)
  | netSendRecv
  | netNetworkDelay (diff : ℕ)
  | netMinTime
  | stopped
  deriving DecidableEq, Repr

variable {ι : Type} [LinearOrder ι] (S : Scenario ι)

def start : Sim Loc := ⟨[], 0, .timeStepStart⟩

def goto (x : Sim Loc) (loc : Loc) : Sim Loc := { x with loc := loc }

/-- Where a simulator's call and the net sim's start. -/
def tick : Sim.Entry Loc :=
  ⟨GracePeriodSyncAlgo.returnsAtOnce, fun t next => .sendRecv (GracePeriodSyncAlgo.enter t next)⟩

def net : Sim.Entry Loc := ⟨CommunicatorSimulatorSyncalgo.returnsAtOnce, fun _ _ => .netSendRecv⟩

/-- `GetNextTime` is called. -/
def call (i : ι) (x : Sim Loc) : Loc := x.call S tick net .stopped i

/-- `GetNextTime` has returned `t`. -/
def returned (i : ι) (x : Sim Loc) (t : TIME) : Sim Loc := x.returned S goto .timeStepStart (call S i) i t

/-- The counters are 0 and no message has set a network delay. -/
def request (i : ι) (x : Sim Loc) : Option (Request ι) :=
  match x.loc with
  | .timeStepStart => if S.legal i x.grants then some .barrier else none
  | .waitforAll _ => some .barrier
  | .sendRecv _ | .netSendRecv => some (.reduceSendRecv 0 0)
  | .networkDelay _ _ | .netNetworkDelay _ => some (.reduceMinTime Infinity)
  | .minTime l => some (.reduceMinTime l.nextEstTime)
  | .netMinTime => some (.reduceMinTime CommunicatorSimulatorSyncalgo.proposal)
  | .stopped => none

def resume (i : ι) (x : Sim Loc) (r : Reply) : Sim Loc × Option TIME :=
  match x.loc, r with
  | .timeStepStart, .ack => (goto x (call S i x), none)
  | .waitforAll l, .ack => (goto x (.sendRecv l), none)
  | .sendRecv l, .diff d => (goto x (.networkDelay l d), none)
  | .networkDelay l d, .time _ =>
    (goto x (.minTime (GracePeriodSyncAlgo.propose (S.integrator i) d l)), none)
  | .minTime l, .time t =>
    match GracePeriodSyncAlgo.conclude (S.integrator i) t l with
    | .again l => (goto x (.waitforAll l), none)
    | .returned t => (returned S i x t, some t)
    | .finished => (goto x .stopped, some 0)
  | .netSendRecv, .diff d => (goto x (.netNetworkDelay d), none)
  | .netNetworkDelay _, .time _ => (goto x .netMinTime, none)
  | .netMinTime, .time t =>
    match CommunicatorSimulatorSyncalgo.conclude t with
    | .returned t => (returned S i x t, some t)
    | .finished => (goto x .stopped, some Infinity)
  | _, _ => (goto x .stopped, none)

def client : Client ι (Sim Loc) := ⟨request S, resume S⟩

end PlainSim

/-! ## The active-set algorithms -/

namespace ActiveSim

/-- Where a simulator is, as for the plain algorithms. -/
inductive Pc
  | timeStepStart
  | sendRecv (l : ActiveSetConservativeTick.Locals)
  | networkDelay (l : ActiveSetConservativeTick.Locals) (diff : ℕ)
  | minTimeWithSleep (l : ActiveSetConservativeTick.Locals)
  | netSendRecv (currentTime : TIME)
  | netNetworkDelay (currentTime : TIME) (diff : ℕ)
  | netMinTimeWithSleep (currentTime : TIME)
  | stopped
  deriving DecidableEq, Repr

/-- `sentMessage` is set when the simulator sends a message. -/
structure Loc where
  pc : Pc
  sentMessage : Bool
  deriving DecidableEq, Repr

variable {ι : Type} [LinearOrder ι] (S : Scenario ι)

def start : Sim Loc := ⟨[], 0, ⟨.timeStepStart, false⟩⟩

def goto (x : Sim Loc) (pc : Pc) : Sim Loc := { x with loc := { x.loc with pc := pc } }

/-- Where a simulator's call and the net sim's start. -/
def tick : Sim.Entry Pc :=
  ⟨ActiveSetConservativeTick.returnsAtOnce, fun t next => .sendRecv (ActiveSetConservativeTick.enter t next)⟩

def net : Sim.Entry Pc := ⟨ActiveSetConservativeCom.returnsAtOnce, fun t _ => .netSendRecv t⟩

/-- `GetNextTime` is called. -/
def call (i : ι) (x : Sim Loc) : Pc := x.call S tick net .stopped i

/-- `GetNextTime` has returned `t`. -/
def returned (i : ι) (x : Sim Loc) (t : TIME) : Sim Loc := x.returned S goto .timeStepStart (call S i) i t

/-- The counters are 0 and no message has set a network delay. -/
def request (i : ι) (x : Sim Loc) : Option (Request ι) :=
  match x.loc.pc with
  | .timeStepStart => if S.legal i x.grants then some .barrier else none
  | .sendRecv _ | .netSendRecv _ => some (.reduceSendRecv 0 0)
  | .networkDelay _ _ | .netNetworkDelay _ _ => some (.reduceMinTime Infinity)
  | .minTimeWithSleep l => some (.reduceMinTimeSleep l.nextEstTime x.loc.sentMessage)
  | .netMinTimeWithSleep _ => some (.reduceMinTimeSleep ActiveSetConservativeCom.proposal false)
  | .stopped => none

def resume (i : ι) (x : Sim Loc) (r : Reply) : Sim Loc × Option TIME :=
  match x.loc.pc, r with
  | .timeStepStart, .ack => (goto x (call S i x), none)
  | .sendRecv l, .diff d => (goto x (.networkDelay l d), none)
  | .networkDelay l d, .time _ =>
    (goto x (.minTimeWithSleep (ActiveSetConservativeTick.propose (S.integrator i) d l)), none)
  | .minTimeWithSleep l, .time t =>
    let x := { x with loc := { x.loc with sentMessage := false } }
    match ActiveSetConservativeTick.conclude (S.integrator i) t l with
    | .again l => (goto x (.sendRecv l), none)
    | .returned t => (returned S i x t, some t)
  | .netSendRecv t, .diff d => (goto x (.netNetworkDelay t d), none)
  | .netNetworkDelay t _, .time _ => (goto x (.netMinTimeWithSleep t), none)
  | .netMinTimeWithSleep _, .time t =>
    match ActiveSetConservativeCom.conclude (S.integrator i) x.grantedTime t with
    | .again t => (goto x (.netSendRecv t), none)
    | .returned t => (returned S i x t, some t)
  | _, _ => (goto x .stopped, none)

def client : Client ι (Sim Loc) := ⟨request S, resume S⟩

end ActiveSim

end Fncs

/-
The broker's tables (`fncsbroker.cpp`).

The source keeps one vector per table, all of the same length, indexed by
the context number; here a context's entries are one record and the broker
holds a list of them. Identities are opaque to the broker: it only compares
and orders them. The empty string, which the source uses for "no net sim
yet", is `none`.
-/
import Fncs.Lib.OrdMap

namespace Fncs

/-- Framework time, an unsigned 64-bit number. -/
abbrev TIME := ℕ

/-- One past the largest `unsigned long`. -/
def ulongSize : ℕ := 2 ^ 64

/-- `Infinity`, the largest `TIME`. -/
def Infinity : TIME := ulongSize - 1

namespace Broker

/-- The operations whose requests wait in a table until enough have arrived. -/
inductive Collective
  | barrier
  | reduceMinTime
  | reduceMinTimeSleep
  | reduceMinTimeAction
  | reduceSendRecv
  | allGatherNextTime
  | reduceFailTime
  | childSuccess
  deriving DecidableEq, Repr

/-- The calls of `graceful_death` with a failure. -/
inductive Death
  | invalidContext
  | die
  | netSimAlreadyConnected
  | tooManyConnections
  | tooManyChildInits
  | childAlreadyInReinitMap
  | parentIdNotInLogicalMap
  | tooManyReinits
  | parentAlreadyInReinitMap
  | noNetSimInReinitMap
  | oldParentIdNotInLogicalMap
  | objectNotRegistered
  | noRealIdOfObject
  | duplicate (k : Collective)
  | exceedsWorldSize (k : Collective)
  | unknownSim
  | worldSizeBecameZero
  | worldSizeTooLarge
  | netSimInGather
  | sentBelowReceived
  | objectAlreadyRegistered
  | noLogicalId
  | finalizeExceedsWorldSize
  | alreadyAsleep
  | nobodyAwake
  | tooManyAsleep
  | finishedExceedsWorldSize
  | unrecognizedControl
  deriving DecidableEq, Repr

/-- Why the broker stops. -/
inductive Stop
  | gracefulDeath (why : Death)
  /-- A failed `assert`. -/
  | assertion
  /-- A table of contexts indexed past its end. -/
  | outOfRange
  /-- The first or the least element of an empty table read. -/
  | noElement
  deriving DecidableEq, Repr

@[ext] structure AggregateType where
  time : TIME
  action : ℕ
  deriving DecidableEq, Repr

structure TimeBool where
  time : TIME
  hadMessage : Bool
  deriving DecidableEq, Repr

/-- What the broker answers a request with. -/
inductive Reply
  | context (contextID : ℕ)
  | time (t : TIME)
  | timeAction (t : TIME) (action : ℕ)
  | diff (d : ℕ)
  | nextTimes (times : List TIME)
  | ack
  | valid
  | notValid
  | objectCount (n : ℕ)
  deriving DecidableEq, Repr

/-- What the broker publishes to every simulator. -/
inductive Publication
  | finished
  | dieChild
  | childDied (time : TIME)
  | dieParent (context : ℤ)
  deriving DecidableEq, Repr

/-- The control words of the broker socket, with the frames that follow them. -/
inductive Request (ι : Type)
  | hello (parent : ℤ)
  | helloNetSim (parent : ℤ)
  | reduceMinTime (time : TIME)
  | reduceMinTimeSleep (time : TIME) (hadMessage : Bool)
  | reduceMinTimeAction (time : TIME) (action : ℕ)
  | reduceFailTime (time : TIME)
  | reduceSendRecv (sent recv : ℕ)
  | allGatherNextTime (nextTime : TIME)
  | registerObject (name : String)
  | finalizeRegistrations
  | barrier
  | sleep
  | childFailed
  | die
  | finished
  | childSuccess
  | parentReinit (oldId : ι)
  | childInit (parent : ℤ) (oldId : ι)
  | childInitNetSim (parent : ℤ) (oldId : ι)
  deriving DecidableEq, Repr

/-- The entries of every per-context table at one context. -/
structure Context (ι : Type) [LinearOrder ι] where
  netSimID : Option ι
  netSimObjCount : ℕ
  /-- The members that are not asleep. -/
  contexts : OrdSet ι
  parentContexts : OrdSet ℤ
  /-- How many members the collectives wait for. -/
  worldSizes : ℕ
  validContexts : Bool
  childInitComplete : Bool
  reduceMinTime : OrdMap ι TIME
  reduceMinTimeSleepState : OrdMap ι TIME
  reduceMinTimeSleepIncoming : OrdMap ι TimeBool
  reduceMinTimeAction : OrdMap ι AggregateType
  reduceSent : OrdMap ι ℕ
  reduceRecv : OrdMap ι ℕ
  reduceSentTotal : ℕ
  reduceRecvTotal : ℕ
  reduceFailTime : OrdMap ι TIME
  allGather : OrdMap ι TIME
  finalized : OrdSet ι
  barrier : OrdSet ι
  succed : OrdSet ι
  asleep : OrdSet ι
  finished : OrdSet ι
  reinitMap : OrdMap ι ι
  logicalIDToRealID : OrdMap ℕ ι
  sleepingSim : Bool
  deriving DecidableEq

end Broker

/-- The broker's state. -/
structure Broker (ι : Type) [LinearOrder ι] where
  worldSize : ℕ
  objToID : OrdMap String ℕ
  ctxs : List (Broker.Context ι)
  newNetSimID : Option ι
  newConnections : OrdSet ι
  childIniMap : OrdMap ι ι
  newParents : OrdSet ℤ
  deriving DecidableEq

namespace Broker

variable {ι : Type} [LinearOrder ι]

/-- The broker `main` starts: no context, nothing pending. -/
def init (worldSize : ℕ) : Broker ι where
  worldSize := worldSize
  objToID := ∅
  ctxs := []
  newNetSimID := none
  newConnections := ∅
  childIniMap := ∅
  newParents := ∅

/-- The entries `add_context` makes. The first round of `REDUCE_MIN_TIME_SLEEP`
starts from time 0 for every member known by then. -/
def Context.fresh (worldSize : ℕ) (netSimID : Option ι) (members : OrdSet ι) (parents : OrdSet ℤ) :
    Context ι where
  netSimID := netSimID
  netSimObjCount := 0
  contexts := members
  parentContexts := parents
  worldSizes := worldSize
  validContexts := true
  childInitComplete := false
  reduceMinTime := ∅
  reduceMinTimeSleepState := members.map fun _ _ => 0
  reduceMinTimeSleepIncoming := ∅
  reduceMinTimeAction := ∅
  reduceSent := ∅
  reduceRecv := ∅
  reduceSentTotal := 0
  reduceRecvTotal := 0
  reduceFailTime := ∅
  allGather := ∅
  finalized := ∅
  barrier := ∅
  succed := ∅
  asleep := ∅
  finished := ∅
  reinitMap := ∅
  logicalIDToRealID := ∅
  sleepingSim := false

/-- `add_context`: the number of the new context is its place in the list. -/
def addContext (b : Broker ι) : Broker ι :=
  { b with
    ctxs := b.ctxs ++ [Context.fresh b.worldSize b.newNetSimID b.newConnections b.newParents] }

end Broker

end Fncs

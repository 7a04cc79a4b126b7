/-
The broker's request handlers (`fncsbroker.cpp`), one definition for each
function of the source, and `step`, the broker side of its main loop.

A handler either stops the broker or answers with its new state and the
messages it sends, in the order it sends them. Handlers that touch one
context only are functions of that context's entries.
-/
import Fncs.Broker.State

namespace Fncs.Broker

variable {ι : Type} [LinearOrder ι]

/-- Messages sent on the broker socket, with their addressees. -/
abbrev Replies (ι : Type) := List (ι × Reply)

/-- What a handler of one context leaves: its entries and the replies. -/
abbrev Handled (ι : Type) [LinearOrder ι] := Except Stop (Context ι × Replies ι)

/-- Stopping through `graceful_death`. -/
def death {α : Type} (why : Death) : Except Stop α := .error (.gracefulDeath why)

/-- `std::min_element`: the first of the least elements. -/
def minElement {α : Type} (less : α → α → Bool) : List α → Option α
  | [] => none
  | a :: l => some (l.foldl (fun m x => if less x m then x else m) a)

/-- `ReduceMinPairLess`. -/
def reduceMinPairLess (left right : ι × TIME) : Bool := left.2 < right.2

/-! ## Shared shapes -/

/-- A request that joins a collective: a second one from the same simulator
is fatal, one of an invalid context is ignored (`isValid`). -/
def joinCollective (k : Collective) (waiting : Bool) (c : Context ι) (post : Context ι)
    (checker : Context ι → Handled ι) : Handled ι :=
  if waiting then death (.duplicate k)
  else if c.validContexts = false then .ok (c, [])
  else checker post

/-- A collective waits for `need` requests; more than that is fatal. -/
def checkSize (k : Collective) (size need : ℕ) (c : Context ι) (release : Handled ι) : Handled ι :=
  if size > need then death (.exceedsWorldSize k)
  else if size = need then release
  else .ok (c, [])

/-- The same reply to every key of a table. -/
def replyAll {α : Type} (m : OrdMap ι α) (r : Reply) : Replies ι := m.keys.map fun i => (i, r)

/-! ## Barrier -/

def barrierChecker (c : Context ι) : Handled ι :=
  checkSize .barrier c.barrier.size c.worldSizes c <|
    if c.worldSizes > 1 then .ok ({ c with barrier := ∅ }, replyAll c.barrier .ack)
    else .ok (c, [])

def barrierHandler (c : Context ι) (identity : ι) : Handled ι :=
  joinCollective .barrier (c.barrier.contains identity) c
    { c with barrier := c.barrier.add identity } barrierChecker

/-! ## Reductions -/

def reduceMinTimeChecker (c : Context ι) : Handled ι :=
  checkSize .reduceMinTime c.reduceMinTime.size c.worldSizes c <|
    match minElement reduceMinPairLess c.reduceMinTime.entries with
    | none => .error .noElement
    | some min => .ok ({ c with reduceMinTime := ∅ }, replyAll c.reduceMinTime (.time min.2))

def reduceMinTimeHandler (c : Context ι) (identity : ι) (time : TIME) : Handled ι :=
  joinCollective .reduceMinTime (c.reduceMinTime.contains identity) c
    { c with reduceMinTime := c.reduceMinTime.insert identity time } reduceMinTimeChecker

/-- The loop over the table, from `Infinity` in both components. -/
def reduceMinTimeActionMins (m : OrdMap ι AggregateType) : AggregateType :=
  m.vals.foldl (fun mins v =>
    { time := if mins.time > v.time then v.time else mins.time
      action := if mins.action > v.action then v.action else mins.action })
    ⟨Infinity, Infinity⟩

def reduceMinTimeActionChecker (c : Context ι) : Handled ι :=
  checkSize .reduceMinTimeAction c.reduceMinTimeAction.size c.worldSizes c <|
    let mins := reduceMinTimeActionMins c.reduceMinTimeAction
    .ok ({ c with reduceMinTimeAction := ∅ }, replyAll c.contexts (.timeAction mins.time mins.action))

def reduceMinTimeActionHandler (c : Context ι) (identity : ι) (time : TIME) (action : ℕ) : Handled ι :=
  joinCollective .reduceMinTimeAction (c.reduceMinTimeAction.contains identity) c
    { c with reduceMinTimeAction := c.reduceMinTimeAction.insert identity ⟨time, action⟩ }
    reduceMinTimeActionChecker

/-- The totals are `unsigned long`: they wrap. -/
def reduceSendRecvChecker (c : Context ι) : Handled ι :=
  checkSize .reduceSendRecv c.reduceSent.size c.worldSizes c <|
    if c.reduceRecv.size ≠ c.worldSizes then .error .assertion
    else
      let sentTotal := (c.reduceSentTotal + c.reduceSent.vals.sum % ulongSize) % ulongSize
      let recvTotal := (c.reduceRecvTotal + c.reduceRecv.vals.sum % ulongSize) % ulongSize
      if sentTotal < recvTotal then death .sentBelowReceived
      else
        .ok ({ c with
          reduceSentTotal := sentTotal
          reduceRecvTotal := recvTotal
          reduceSent := ∅
          reduceRecv := ∅ }, replyAll c.reduceSent (.diff (sentTotal - recvTotal)))

def reduceSendRecvHandler (c : Context ι) (identity : ι) (sent recv : ℕ) : Handled ι :=
  if c.reduceSent.contains identity then
    if c.reduceRecv.contains identity then death (.duplicate .reduceSendRecv)
    else .error .assertion
  else if c.validContexts = false then .ok (c, [])
  else reduceSendRecvChecker
    { c with
      reduceSent := c.reduceSent.insert identity sent
      reduceRecv := c.reduceRecv.insert identity recv }

/-- The next times the table holds for everyone but `identity` and the net sim. -/
def gatheredTimes (c : Context ι) (identity : ι) : List TIME :=
  (c.allGather.entries.filter fun e => !(some e.1 == c.netSimID) && !(identity == e.1)).map Prod.snd

/-- The gather waits for one request fewer than the other collectives: the
net sim takes no part. -/
def allGatherChecker (c : Context ι) : Handled ι :=
  if c.allGather.size > c.worldSizes then death (.exceedsWorldSize .allGatherNextTime)
  else if c.allGather.size = c.worldSizes - 1 then
    .ok ({ c with allGather := ∅ },
      (c.contexts.keys.filter fun i => !(some i == c.netSimID)).map fun i =>
        (i, .nextTimes (gatheredTimes c i)))
  else .ok (c, [])

def allGatherHandler (c : Context ι) (identity : ι) (nextTime : TIME) : Handled ι :=
  if c.allGather.contains identity then death (.duplicate .allGatherNextTime)
  else if some identity = c.netSimID then death .netSimInGather
  else if c.validContexts = false then .ok (c, [])
  else allGatherChecker { c with allGather := c.allGather.insert identity nextTime }

/-! ## Sleeping -/

/-- The checks a SLEEP repeats for the members still awake. -/
def sleepRecheck (c : Context ι) : Handled ι :=
  if c.worldSizes ≠ 1 then
    match barrierChecker c with
    | .error e => .error e
    | .ok (c₁, out₁) =>
      match reduceMinTimeChecker c₁ with
      | .error e => .error e
      | .ok (c₂, out₂) =>
        match reduceSendRecvChecker c₂ with
        | .error e => .error e
        | .ok (c₃, out₃) => .ok (c₃, out₁ ++ out₂ ++ out₃)
  else .ok (c, [])

/-- What `sleep_handler` does after its checks: when all but one sleep, all wake. -/
def sleepWakeAll (worldSize : ℕ) (c : Context ι) (out : Replies ι) : Handled ι :=
  if c.worldSizes = 0 then death .nobodyAwake
  else if c.asleep.size > worldSize - 1 then death .tooManyAsleep
  else if c.asleep.size = worldSize - 1 then
    if c.worldSizes ≠ 1 then .error .assertion
    else
      .ok ({ c with
        contexts := c.contexts.union c.asleep
        asleep := ∅
        worldSizes := worldSize }, out ++ replyAll c.asleep .ack)
  else .ok (c, out)

/-- `sleep_handler` has no `isValid` check. -/
def sleepHandler (worldSize : ℕ) (c : Context ι) (identity : ι) : Handled ι :=
  if c.asleep.contains identity then death .alreadyAsleep
  else
    match sleepRecheck
      { c with
        asleep := c.asleep.add identity
        worldSizes := c.worldSizes - 1
        contexts := c.contexts.erase identity } with
    | .error e => .error e
    | .ok (c, out) => sleepWakeAll worldSize c out

/-! ## The active-set reduction -/

/-- `TimeBoolMapAccumulate` over the table, started from its first entry. -/
def timeBoolAccumulate (m : OrdMap ι TimeBool) : Option TimeBool :=
  m.vals.head?.map fun initial =>
    m.vals.foldl (fun left right => ⟨min left.time right.time, left.hadMessage || right.hadMessage⟩) initial

/-- The incoming table completed with the remembered times of the sleepers. -/
def withSleepers (c : Context ι) : OrdMap ι TimeBool :=
  c.reduceMinTimeSleepIncoming.union (c.reduceMinTimeSleepState.map fun _ t => ⟨t, false⟩)

/-- A message while somebody sleeps: everybody gets the previous minimum. -/
def reduceMinTimeSleepWakeAll (worldSize : ℕ) (c : Context ι) : Handled ι :=
  match minElement reduceMinPairLess c.reduceMinTimeSleepState.entries with
  | none => .error .noElement
  | some timeMin =>
    .ok ({ c with
      worldSizes := worldSize
      sleepingSim := false
      reduceMinTimeSleepIncoming := ∅ }, replyAll c.contexts (.time timeMin.2))

/-- No message: the incoming times are remembered, and only the simulators
at the minimum, and the net sim, are answered. -/
def reduceMinTimeSleepAdvance (worldSize : ℕ) (c : Context ι) (incoming : OrdMap ι TimeBool)
    (timeMin : TIME) : Handled ι :=
  let granted := incoming.filter fun i tb => tb.time == timeMin || some i == c.netSimID
  if ¬ incoming.keys.all c.reduceMinTimeSleepState.contains then death .unknownSim
  else if granted.size = 0 then death .worldSizeBecameZero
  else if granted.size > worldSize then death .worldSizeTooLarge
  else
    .ok ({ c with
      worldSizes := granted.size
      sleepingSim := granted.size != worldSize
      reduceMinTimeSleepState := incoming.entries.foldl (fun s e => s.insert e.1 e.2.time) c.reduceMinTimeSleepState
      reduceMinTimeSleepIncoming := ∅ }, replyAll granted (.time timeMin))

def reduceMinTimeSleepChecker (worldSize : ℕ) (c : Context ι) : Handled ι :=
  checkSize .reduceMinTimeSleep c.reduceMinTimeSleepIncoming.size c.worldSizes c <|
    let incoming := withSleepers c
    match timeBoolAccumulate incoming with
    | none => .error .noElement
    | some timeBoolMin =>
      if timeBoolMin.hadMessage && c.sleepingSim then reduceMinTimeSleepWakeAll worldSize c
      else reduceMinTimeSleepAdvance worldSize c incoming timeBoolMin.time

def reduceMinTimeSleepHandler (worldSize : ℕ) (c : Context ι) (identity : ι) (time : TIME)
    (hadMessage : Bool) : Handled ι :=
  joinCollective .reduceMinTimeSleep (c.reduceMinTimeSleepIncoming.contains identity) c
    { c with reduceMinTimeSleepIncoming := c.reduceMinTimeSleepIncoming.insert identity ⟨time, hadMessage⟩ }
    (reduceMinTimeSleepChecker worldSize)

/-! ## Registration -/

/-- The table is not cleared: registration is finalized once. -/
def finalizeHandler (c : Context ι) (identity : ι) : Handled ι :=
  let c := { c with finalized := c.finalized.add identity }
  if c.finalized.size > c.worldSizes then death .finalizeExceedsWorldSize
  else if c.finalized.size = c.worldSizes then
    .ok (c, replyAll c.finalized (.objectCount c.netSimObjCount))
  else .ok (c, [])

/-! ## The whole broker -/

/-- What handling a request leaves: the broker, the replies, the publications. -/
abbrev Result (ι : Type) [LinearOrder ι] := Except Stop (Broker ι × Replies ι × List Publication)

/-- The entries of context `k`, or an access past the end of a table. -/
def context (b : Broker ι) (k : ℕ) : Except Stop (Context ι) :=
  match b.ctxs[k]? with
  | none => .error .outOfRange
  | some c => .ok c

def setContext (b : Broker ι) (k : ℕ) (c : Context ι) : Broker ι := { b with ctxs := b.ctxs.set k c }

/-- A handler of one context, run on context `k`. -/
def onContext (b : Broker ι) (k : ℕ) (f : Context ι → Handled ι) : Result ι := do
  let c ← b.context k
  let (c', out) ← f c
  .ok (b.setContext k c', out, [])

/-- `m` with `v` at `k` unless `k` is bound already: `std::map::insert`. -/
def insertNew {κ α : Type} [LinearOrder κ] (m : OrdMap κ α) (k : κ) (v : α) : OrdMap κ α :=
  if m.contains k then m else m.insert k v

/-- The members in order, numbered from 0. -/
def numberMembers (m : OrdMap ℕ ι) (members : List ι) : OrdMap ℕ ι :=
  members.zipIdx.foldl (fun m e => insertNew m e.2 e.1) m

/-- The entries of the context named in the last HELLO of an initial group:
its map is filled, not that of the new context. -/
def Context.number (c : Context ι) (members : OrdSet ι) : Context ι :=
  { c with logicalIDToRealID := numberMembers c.logicalIDToRealID members.keys }

/-- Ready for the next group. -/
def clearGroup (b : Broker ι) : Broker ι :=
  { b with newConnections := ∅, newParents := ∅, newNetSimID := none }

/-- A HELLO noted. -/
def noteHello (b : Broker ι) (identity : ι) (parent : ℤ) (netSim : Bool) : Broker ι :=
  { b with
    newConnections := b.newConnections.add identity
    newParents := b.newParents.add parent
    newNetSimID := if netSim then some identity else b.newNetSimID }

/-- The group is complete. -/
def helloComplete (b : Broker ι) (context : ℕ) : Result ι :=
  let out := replyAll b.newConnections (.context b.ctxs.length)
  if b.newParents.size ≠ 1 then .error .assertion
  else if b.newParents.keys.head? = some (-1) then do
    let c ← b.addContext.context context
    .ok ((b.addContext.setContext context (c.number b.newConnections)).clearGroup, out, [])
  else .ok (b.addContext.clearGroup, out, [])

def helloHandler (b : Broker ι) (identity : ι) (context : ℕ) (parent : ℤ) (netSim : Bool) : Result ι :=
  if netSim ∧ b.newNetSimID.isSome then death .netSimAlreadyConnected
  else
    let b := noteHello b identity parent netSim
    if b.newConnections.size > b.worldSize then death .tooManyConnections
    else if b.newConnections.size = b.worldSize then helloComplete b context
    else .ok (b, [], [])

/-- Logical id `i` follows its process: its image under the pairs (old id, new id). -/
def remapOne (pairs : OrdMap ι ι) (why : Death) (logical : OrdMap ℕ ι) (i : ℕ) : Except Stop (OrdMap ℕ ι) :=
  match (logical.lookup i).bind pairs.lookup with
  | none => death why
  | some realID => .ok (logical.insert i realID)

/-- The loop over the logical ids. -/
def remap (pairs : OrdMap ι ι) (why : Death) (logical : OrdMap ℕ ι) : Except Stop (OrdMap ℕ ι) :=
  (List.range logical.size).foldlM (remapOne pairs why) logical

/-- The parents of an invalid context are turned away; those of a valid one
take the place of their old identities. -/
def parentReinitChecker (b : Broker ι) (k : ℕ) : Result ι := do
  let c ← b.context k
  if c.childInitComplete = false ∨ c.reinitMap.size ≠ b.worldSize then .ok (b, [], [])
  else if c.validContexts = false then
    .ok (b.setContext k { c with childInitComplete := false, reinitMap := ∅ },
      c.reinitMap.vals.map fun i => (i, .notValid), [])
  else
    match c.netSimID.bind c.reinitMap.lookup with
    | none => death .noNetSimInReinitMap
    | some netSim =>
      let logical ← remap c.reinitMap .oldParentIdNotInLogicalMap c.logicalIDToRealID
      .ok (b.setContext k { c with
        contexts := .ofList c.reinitMap.vals
        netSimID := some netSim
        logicalIDToRealID := logical
        reinitMap := ∅
        childInitComplete := false }, c.reinitMap.vals.map fun i => (i, .valid), [])

def parentReinitHandler (b : Broker ι) (identity : ι) (k : ℕ) (oldId : ι) : Result ι := do
  let c ← b.context k
  if c.reinitMap.size > b.worldSize then death .tooManyReinits
  else if c.reinitMap.contains oldId then death .parentAlreadyInReinitMap
  else parentReinitChecker (b.setContext k { c with reinitMap := c.reinitMap.insert oldId identity }) k

/-- A new context of `children`, and the tables of the group cleared. -/
def addChild (b : Broker ι) (children : OrdSet ι) (logical : OrdMap ℕ ι) : Broker ι :=
  { b with
    ctxs := b.ctxs ++ [{ Context.fresh b.worldSize b.newNetSimID b.newConnections b.newParents with
      contexts := children
      logicalIDToRealID := logical }]
    childIniMap := ∅
    newConnections := ∅
    newParents := ∅
    newNetSimID := none }

/-- Once every child has connected: a new context, then the parents that wait for it. -/
def childInitChecker (b : Broker ι) (parent : ℤ) : Result ι :=
  if b.childIniMap.size ≠ b.worldSize then .ok (b, [], [])
  else if parent < 0 then .error .outOfRange
  else do
    let k := parent.toNat
    let p ← b.context k
    if p.validContexts = false ∨ b.newConnections.size ≠ 0 ∨ b.newParents.size ≠ 1 ∨ b.newNetSimID.isNone then
      .error .assertion
    else
      let children := OrdSet.ofList b.childIniMap.vals
      let logical ← remap b.childIniMap .parentIdNotInLogicalMap p.logicalIDToRealID
      let (b', out, pubs) ←
        parentReinitChecker ((b.addChild children logical).setContext k { p with childInitComplete := true }) k
      .ok (b', replyAll children (.context b.ctxs.length) ++ out, pubs)

def childInitHandler (b : Broker ι) (identity : ι) (parent : ℤ) (oldId : ι) (netSim : Bool) : Result ι :=
  if b.childIniMap.size > b.worldSize then death .tooManyChildInits
  else if b.childIniMap.contains oldId then death .childAlreadyInReinitMap
  else
    childInitChecker { b with
      newParents := b.newParents.add parent
      newNetSimID := if netSim then some identity else b.newNetSimID
      childIniMap := b.childIniMap.insert oldId identity } parent

/-- Net sim objects are counted, the others recorded under their owner's logical id. The name is as it was received. -/
def registerHandler (b : Broker ι) (identity : ι) (k : ℕ) (name : String) : Result ι := do
  let c ← b.context k
  if some identity = c.netSimID then
    .ok (b.setContext k { c with netSimObjCount := c.netSimObjCount + 1 }, [], [])
  else if b.objToID.contains name then death .objectAlreadyRegistered
  else
    match c.logicalIDToRealID.entries.find? fun e => e.2 = identity with
    | none => death .noLogicalId
    | some e => .ok ({ b with objToID := b.objToID.insert name e.1 }, [], [])

/-- `route_handler`, once the envelope and the payload are received: the identity a message for object `dest` is
forwarded to. -/
def routeHandler (b : Broker ι) (k : ℕ) (dest : String) : Except Stop ι :=
  match b.objToID.lookup dest with
  | none => death .objectNotRegistered
  | some logicalObjectOwner => do
    let c ← b.context k
    match c.logicalIDToRealID.lookup logicalObjectOwner with
    | none => death .noRealIdOfObject
    | some objectOwner => .ok objectOwner

/-- `delay_handler`, once the message is received: the identity it is forwarded to. -/
def delayHandler (b : Broker ι) (k : ℕ) : Except Stop (Option ι) := do
  let c ← b.context k
  .ok c.netSimID

def succeedChecker (b : Broker ι) (k : ℕ) (c : Context ι) : Result ι :=
  if c.succed.size > c.worldSizes then death (.exceedsWorldSize .childSuccess)
  else if c.succed.size = c.worldSizes ∧ c.worldSizes > 1 then
    match c.parentContexts.keys with
    | [] => .error .noElement
    | p :: ps =>
      let b := b.setContext k { c with succed := ∅ }
      if (p :: ps).all fun p => 0 ≤ p ∧ p.toNat < b.ctxs.length then
        .ok ({ b with ctxs := (p :: ps).foldl (fun cs p =>
            cs.modify p.toNat fun c => { c with validContexts := false }) b.ctxs },
          [], [.dieParent p])
      else .error .outOfRange
  else .ok (b.setContext k c, [], [])

def succeedHandler (b : Broker ι) (identity : ι) (k : ℕ) : Result ι := do
  let c ← b.context k
  if c.succed.contains identity then death (.duplicate .childSuccess)
  else if c.validContexts = false then .ok (b, [], [])
  else succeedChecker b k { c with succed := c.succed.add identity }

def childFailedHandler (b : Broker ι) : Result ι := .ok (b, [], [.dieChild])

def reduceFailTimeChecker (b : Broker ι) (k : ℕ) (c : Context ι) : Result ι :=
  if c.reduceFailTime.size > c.worldSizes then death (.exceedsWorldSize .reduceFailTime)
  else if c.reduceFailTime.size = c.worldSizes then
    match minElement reduceMinPairLess c.reduceFailTime.entries with
    | none => .error .noElement
    | some min =>
      .ok (b.setContext k { c with validContexts := false, reduceFailTime := ∅ }, [], [.childDied min.2])
  else .ok (b.setContext k c, [], [])

def reduceFailTimeHandler (b : Broker ι) (identity : ι) (k : ℕ) (time : TIME) : Result ι := do
  let c ← b.context k
  if c.reduceFailTime.contains identity then death (.duplicate .reduceFailTime)
  else if c.validContexts = false then .ok (b, [], [])
  else reduceFailTimeChecker b k { c with reduceFailTime := c.reduceFailTime.insert identity time }

/-- `finished_handler`: the last one is not published. -/
def finishedHandler (b : Broker ι) (identity : ι) (k : ℕ) : Result ι := do
  let c ← b.context k
  let c := { c with finished := c.finished.add identity }
  if c.finished.size > b.worldSize then death .finishedExceedsWorldSize
  else if c.finished.size = b.worldSize then .ok (b.setContext k c, [], [])
  else .ok (b.setContext k c, [], [.finished])

/-- One turn of the main loop: a request of `identity` for `context`. -/
def step (b : Broker ι) (identity : ι) (context : ℤ) (r : Request ι) : Result ι :=
  if context < 0 ∨ (b.ctxs.length ≤ context.toNat ∧ b.ctxs ≠ []) then death .invalidContext
  else
    let k := context.toNat
    match r with
    | .hello parent => helloHandler b identity k parent false
    | .helloNetSim parent => helloHandler b identity k parent true
    | .reduceMinTime t => b.onContext k (reduceMinTimeHandler · identity t)
    | .reduceMinTimeSleep t hadMessage =>
      b.onContext k (reduceMinTimeSleepHandler b.worldSize · identity t hadMessage)
    | .reduceMinTimeAction t action => b.onContext k (reduceMinTimeActionHandler · identity t action)
    | .reduceFailTime t => reduceFailTimeHandler b identity k t
    | .reduceSendRecv sent recv => b.onContext k (reduceSendRecvHandler · identity sent recv)
    | .allGatherNextTime t => b.onContext k (allGatherHandler · identity t)
    | .registerObject name => registerHandler b identity k name
    | .finalizeRegistrations => b.onContext k (finalizeHandler · identity)
    | .barrier => b.onContext k (barrierHandler · identity)
    | .sleep => b.onContext k (sleepHandler b.worldSize · identity)
    | .childFailed => childFailedHandler b
    | .die => death .die
    | .finished => finishedHandler b identity k
    | .childSuccess => succeedHandler b identity k
    | .parentReinit oldId => parentReinitHandler b identity k oldId
    | .childInit parent oldId => childInitHandler b identity parent oldId false
    | .childInitNetSim parent oldId => childInitHandler b identity parent oldId true

end Fncs.Broker

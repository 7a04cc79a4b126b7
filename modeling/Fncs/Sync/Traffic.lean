/-
Messages between simulators and what is counted of them: the counters of the
communication managers (`abscommmanager.cpp`, `graceperiodcommmanager.cpp`),
the net sim's ledger of held packets (`communicationcommanager.cpp`), and the
reduction that reports the counters to the broker. Payloads, inboxes and
network delays are left out: nothing is counted by them.

A `Traffic` is the broker with its simulators and the messages on their way.
Its labels are the calls a simulator makes and the arrivals at the broker and
at the simulators, in any order.
-/
import Fncs.Broker.Registration
import Fncs.Sync.Client
import Fncs.Sync.Time

namespace Fncs

open Broker (Request Reply Replies HelloGroup Session Stop)

/-- One past the largest `uint32_t`. -/
def uintSize : ℕ := 2 ^ 32

structure Message where
  msgFrom : String
  msgTo : String
  timeStamp : TIME
  delayThroughComm : Bool
  deriving DecidableEq, Repr

/-- `DESTIONATION_BCAST` is the addressee. -/
def Message.isBroadCast (m : Message) : Bool := m.msgTo == "*"

/-- What a manager throws. -/
inductive Thrown
  /-- `getObjectInterface` of a name that is not registered here. -/
  | objectInterfaceRegistration
  /-- A broadcast that reaches a simulator. -/
  | interfaceError
  /-- A broadcast of the net sim. -/
  | operationNotSupported
  deriving DecidableEq, Repr

/-- The oldest time a message may have, 0 when the difference wraps. -/
def graceTime (currentTime packetLostPeriod : TIME) : TIME :=
  if subTime currentTime packetLostPeriod > currentTime then 0 else subTime currentTime packetLostPeriod

/-- The bound on a message's age, without the unsigned arithmetic. -/
theorem graceTime_eq {currentTime packetLostPeriod : TIME} (hc : currentTime < ulongSize)
    (hp : packetLostPeriod < ulongSize) : graceTime currentTime packetLostPeriod = currentTime - packetLostPeriod := by
  by_cases h : packetLostPeriod ≤ currentTime
  · rw [graceTime, subTime_of_le h hc, if_neg (Nat.not_lt.mpr (Nat.sub_le _ _))]
  · have hlt : currentTime + (ulongSize - packetLostPeriod) < ulongSize := by lia
    have hwrap : subTime currentTime packetLostPeriod = currentTime + (ulongSize - packetLostPeriod) := by
      rw [subTime, Nat.mod_eq_of_lt hp, Nat.mod_eq_of_lt hlt]
    have hgt : currentTime + (ulongSize - packetLostPeriod) > currentTime := by lia
    rw [graceTime, hwrap, if_pos hgt, Nat.sub_eq_zero_of_le (Nat.le_of_not_le h)]

/-- A message that is dropped on arrival. -/
def tooOld (packetLostPeriod currentTime : TIME) (m : Message) : Bool :=
  m.timeStamp < graceTime currentTime packetLostPeriod

/-- `sendCount` and `receiveCount` of a manager, both `uint64_t`. -/
structure Counters where
  sendCount : ℕ
  receiveCount : ℕ
  deriving DecidableEq, Repr

namespace AbsCommManager

/-- `messageReceived` of a simulator that is not the net sim. -/
def messageReceived (interfaces : List String) (packetLostPeriod currentTime : TIME) (c : Counters) (m : Message) :
    Except Thrown Counters :=
  if tooOld packetLostPeriod currentTime m then .ok c
  else if m.isBroadCast then .error .interfaceError
  else if m.msgTo ∉ interfaces then .error .objectInterfaceRegistration
  else .ok { c with receiveCount := (c.receiveCount + 1) % ulongSize }

/-- The end of `reduceTotalSendReceive`: the copies that were reported are subtracted. -/
def subtractCopies (c : Counters) (sendCountCopy receiveCountCopy : ℕ) : Counters where
  sendCount := subTime c.sendCount sendCountCopy
  receiveCount := subTime c.receiveCount receiveCountCopy

def resetCounters : Counters := ⟨0, 0⟩

end AbsCommManager

namespace GracePeriodCommManager

/-- `broadcast(..) - 1` as an `int`. -/
def scount (globalObjectCount : ℕ) : ℤ := Int.bmod (globalObjectCount - 1) uintSize

/-- What one turn of the loop in `sendAll` counts. -/
def countSend (globalObjectCount : ℕ) (c : Counters) (m : Message) : Counters :=
  if m.isBroadCast then { c with sendCount := ((c.sendCount + scount globalObjectCount) % ulongSize).toNat }
  else { c with sendCount := (c.sendCount + 1) % ulongSize }

end GracePeriodCommManager

namespace CommunicationComManager

/-- The tokens of an arrival: the objects but the sender for a broadcast. -/
def addMessageTimeout (interfaces : List String) (packets : OrdMap TIME ℕ) (msgTime : TIME) (isbroadcast : Bool) :
    OrdMap TIME ℕ :=
  let val := (packets.lookup msgTime).getD 0
  packets.insert msgTime ((val + if isbroadcast then interfaces.length + (uintSize - 1) else 1) % uintSize)

/-- `false` when nothing of that time is held any more. -/
def removeMessageTimeout (packets : OrdMap TIME ℕ) (msgTime : TIME) : Bool × OrdMap TIME ℕ :=
  match packets.lookup msgTime with
  | none => (false, packets)
  | some val => (true, if val ≤ 1 then packets.erase msgTime else packets.insert msgTime (val - 1))

def messageReceived (interfaces : List String) (packetLostPeriod currentTime : TIME) (packets : OrdMap TIME ℕ)
    (m : Message) : Except Thrown (OrdMap TIME ℕ) :=
  if tooOld packetLostPeriod currentTime m then .ok packets
  else if m.msgFrom ∉ interfaces then .error .objectInterfaceRegistration
  else .ok (addMessageTimeout interfaces packets m.timeStamp m.isBroadCast)

/-- The entries that are lost at `leastTime`. -/
def lost (leastTime : TIME) (packets : OrdMap TIME ℕ) : OrdMap TIME ℕ := packets.filter fun t _ => t < leastTime

/-- What is lost counts as received. -/
def packetLostCalculator (packetLostPeriod currentTime : TIME) (c : Counters) (packets : OrdMap TIME ℕ) :
    Counters × OrdMap TIME ℕ :=
  let leastTime := graceTime currentTime packetLostPeriod
  ({ c with receiveCount := (c.receiveCount + (lost leastTime packets).total id) % ulongSize },
    packets.filter fun t _ => !decide (t < leastTime))

end CommunicationComManager

/-! ## The network -/

/-- The control words of the asynchronous sockets. -/
inductive Control
  | route
  | delay
  deriving DecidableEq, Repr

/-- A message on its way from the simulator that sent it to `dest`. -/
structure Packet (ι : Type) where
  dest : ι
  control : Control
  message : Message
  deriving DecidableEq, Repr

/-- A group with its objects and the packet lost period of every member. -/
structure Network (ι : Type) [LinearOrder ι] where
  group : HelloGroup ι
  objs : List (ι × String)
  packetLostPeriod : ι → TIME

namespace Network

variable {ι : Type} [LinearOrder ι]

/-- The members of the group, as a set. -/
def members (n : Network ι) : Finset ι := n.group.members.toFinset

/-- The names the manager of `i` has registered. -/
def interfaces (n : Network ι) (i : ι) : List String := Broker.objectsOf n.objs i

/-- What FINALIZE_REGISTRATIONS answers: how many objects the net sim has. -/
def globalObjectCount (n : Network ι) : ℕ := (n.interfaces n.group.netSim).length

/-- How many messages `m` stands for: a broadcast is one for every object but the sender. -/
def copies (n : Network ι) (m : Message) : ℕ := if m.isBroadCast then n.globalObjectCount - 1 else 1

end Network

/-- `ZmqNetworkInterface::send`, and the broker's forwarding: nobody gets a
delayed message when there is no net sim. -/
def ZmqNetworkInterface.send {ι : Type} [LinearOrder ι] (b : Broker ι) (iAmNetSim : Bool) (m : Message) :
    Except Stop (List (Packet ι)) :=
  if iAmNetSim || !m.delayThroughComm then
    (b.routeHandler 0 m.msgTo).map fun i => [⟨i, .route, m⟩]
  else (b.delayHandler 0).map fun i => i.toList.map fun i => ⟨i, .delay, m⟩

/-- The broker and its simulators. `asked` is the collective a simulator is
blocked in, with the copies of its counters that it reports; `sentEver` is how
many messages have been sent. -/
structure Traffic (ι : Type) [LinearOrder ι] where
  session : Session ι
  asked : ι → Option (Request ι)
  counters : ι → Counters
  packets : OrdMap TIME ℕ
  inFlight : List (Packet ι)
  sentEver : ℕ

namespace Traffic

variable {ι : Type} [LinearOrder ι]

inductive Event (ι : Type)
  /-- One message of `sendAll`. -/
  | send (i : ι) (m : Message)
  /-- The copies are taken and the request is sent. -/
  | reduceTotalSendReceive (i : ι)
  /-- A request of another collective. -/
  | request (i : ι) (r : Request ι)
  /-- `i`'s request reaches the broker. -/
  | arrive (i : ι)
  /-- The `k`-th message in flight reaches its addressee, whose clock shows `currentTime`. -/
  | deliver (k : ℕ) (currentTime : TIME)
  | packetLostCalculator (currentTime : TIME)
  | resetCounters (i : ι)
  deriving DecidableEq, Repr

/-- Why a traffic does not take a step. -/
inductive Halt
  | notAllowed
  | stopped (why : Stop)
  | threw (what : Thrown)
  deriving DecidableEq, Repr

/-- Nothing sent yet. -/
def start (b : Broker ι) : Traffic ι where
  session := .start b
  asked := fun _ => none
  counters := fun _ => ⟨0, 0⟩
  packets := ∅
  inFlight := []
  sentEver := 0

/-- A request other than REDUCE_SEND_RECV that a member may make. -/
def otherCollective (n : Network ι) (i : ι) (r : Request ι) : Bool :=
  r.isCollective && r.fits && r.asSent.isNone && !(decide (i = n.group.netSim) && r.notOfNetSim)

/-- The counters once the broker has answered `out`: who reported subtracts the copies. -/
def settled (s : Traffic ι) (out : Replies ι) (i : ι) : Counters :=
  match System.replyTo out i, s.asked i with
  | some (.diff _), some (.reduceSendRecv sent recv) => AbsCommManager.subtractCopies (s.counters i) sent recv
  | _, _ => s.counters i

/-- The traffic once the broker has answered `i`'s request `r` with `out`. -/
def after (s : Traffic ι) (i : ι) (r : Request ι) (b : Broker ι) (out : Replies ι) : Traffic ι :=
  { s with
    session := s.session.after ⟨i, 0, r⟩ b out
    asked := Pending.answer s.asked (out.map Prod.fst)
    counters := s.settled out }

/-- One message of `sendAll`: the net sim's manager sends only what its ledger still holds. -/
def sendOne (n : Network ι) (s : Traffic ι) (i : ι) (m : Message) : Except Halt (Traffic ι) :=
  if i = n.group.netSim then
    if m.isBroadCast then .error (.threw .operationNotSupported)
    else
      match CommunicationComManager.removeMessageTimeout s.packets m.timeStamp with
      | (false, _) => .ok s
      | (true, packets) =>
        match ZmqNetworkInterface.send s.session.broker true m with
        | .error e => .error (.stopped e)
        | .ok ps => .ok { s with packets := packets, inFlight := s.inFlight ++ ps }
  else
    match ZmqNetworkInterface.send s.session.broker false m with
    | .error e => .error (.stopped e)
    | .ok ps => .ok { s with
        counters := Function.update s.counters i (GracePeriodCommManager.countSend n.globalObjectCount (s.counters i) m)
        inFlight := s.inFlight ++ ps
        sentEver := s.sentEver + n.copies m }

/-- A message has reached its addressee; the control word is checked first. -/
def receive (n : Network ι) (s : Traffic ι) (currentTime : TIME) (p : Packet ι) : Except Halt (Traffic ι) :=
  if p.dest = n.group.netSim then
    if p.control ≠ .delay then .error (.stopped (.gracefulDeath .die))
    else
      match CommunicationComManager.messageReceived (n.interfaces p.dest) (n.packetLostPeriod p.dest) currentTime
          s.packets p.message with
      | .error e => .error (.threw e)
      | .ok packets => .ok { s with packets := packets }
  else if p.control ≠ .route then .error (.stopped (.gracefulDeath .die))
  else
    match AbsCommManager.messageReceived (n.interfaces p.dest) (n.packetLostPeriod p.dest) currentTime
        (s.counters p.dest) p.message with
    | .error e => .error (.threw e)
    | .ok c => .ok { s with counters := Function.update s.counters p.dest c }

/-- One step. Nothing is asked, sent or reset in a blocking call; messages
arrive in every one but SLEEP. -/
def step (n : Network ι) (s : Traffic ι) : Event ι → Except Halt (Traffic ι)
  | .send i m => if i ∈ n.group.members ∧ s.asked i = none then s.sendOne n i m else .error .notAllowed
  | .reduceTotalSendReceive i =>
    if i ∈ n.group.members ∧ s.asked i = none then
      .ok { s with
        asked := Pending.post s.asked i (.reduceSendRecv (s.counters i).sendCount (s.counters i).receiveCount) }
    else .error .notAllowed
  | .request i r =>
    if i ∈ n.group.members ∧ s.asked i = none ∧ otherCollective n i r = true then
      .ok { s with asked := Pending.post s.asked i r }
    else .error .notAllowed
  | .arrive i =>
    match s.asked i with
    | none => .error .notAllowed
    | some r =>
      if s.session.pending i ≠ none then .error .notAllowed
      else
        match s.session.broker.step i 0 r with
        | .error e => .error (.stopped e)
        | .ok (b, out, _) => .ok (s.after i r b out)
  | .deliver k currentTime =>
    match s.inFlight[k]? with
    | none => .error .notAllowed
    | some p =>
      if p.dest ∉ n.group.members ∨ s.asked p.dest = some .sleep then .error .notAllowed
      else receive n { s with inFlight := s.inFlight.eraseIdx k } currentTime p
  | .packetLostCalculator currentTime =>
    if s.asked n.group.netSim = none then
      let (c, packets) := CommunicationComManager.packetLostCalculator (n.packetLostPeriod n.group.netSim) currentTime
        (s.counters n.group.netSim) s.packets
      .ok { s with counters := Function.update s.counters n.group.netSim c, packets := packets }
    else .error .notAllowed
  | .resetCounters i =>
    if i ∈ n.group.members ∧ s.asked i = none then
      .ok { s with counters := Function.update s.counters i AbsCommManager.resetCounters }
    else .error .notAllowed

end Traffic

end Fncs

/-
The way of a message from the simulation that sends it to the manager of the
simulator it is for: the outbox of an object's interface, the loop of `sendAll`
(`graceperiodcommmanager.cpp`, `communicationcommanager.cpp`), the asynchronous
sockets (`zmqnetworkinterface.cpp`), and `route_handler` and `delay_handler` of
the broker. A `Traffic` routes a message when it is sent and lets messages
arrive in any order; here the broker routes it when it takes it from the
sender's socket, and a socket keeps the order of what is sent on it.

The sockets are taken to lose nothing and to keep the order of each pair of
ends; a ROUTER socket drops what is sent past its high-water mark, and no run
here does.

So messages from one simulator to another arrive in the order in which
`sendAll` passed them on, none twice, none made up, and none anywhere but at
the owner of the object it is addressed to or at the net sim (`delivered_in_order`).
-/
import Fncs.Broker.Underway
import Fncs.Inbox.Outbox
import Fncs.Lib.Relay
import Fncs.Sync.Difference

namespace Fncs

open Broker (Request Reply Replies HelloGroup Stop)

/-- The frames of a message on an asynchronous socket. -/
structure Outgoing where
  control : Control
  message : Message
  deriving DecidableEq, Repr

/-- A message that the broker has handed on. -/
def Outgoing.packet {ι : Type} (o : Outgoing) (dest : ι) : Packet ι := ⟨dest, o.control, o.message⟩

/-- The control word `ZmqNetworkInterface::send` puts before a message. -/
def ZmqNetworkInterface.outgoing (iAmNetSim : Bool) (m : Message) : Outgoing :=
  ⟨if iAmNetSim || !m.delayThroughComm then .route else .delay, m⟩

/-- Who the broker hands a message of its asynchronous socket on to. -/
def Broker.forward {ι : Type} [LinearOrder ι] (b : Broker ι) (o : Outgoing) : Except Stop (Option ι) :=
  match o.control with
  | .route => (b.routeHandler 0 o.message.msgTo).map some
  | .delay => b.delayHandler 0

/-- A `Traffic` routes as the broker does. -/
theorem ZmqNetworkInterface.send_eq {ι : Type} [LinearOrder ι] (b : Broker ι) (iAmNetSim : Bool) (m : Message) :
    send b iAmNetSim m =
      (b.forward (outgoing iAmNetSim m)).map fun dest => dest.toList.map (outgoing iAmNetSim m).packet := by
  cases h : iAmNetSim || !m.delayThroughComm with
  | true =>
    simp only [send, Broker.forward, outgoing, h, if_true]
    cases b.routeHandler 0 m.msgTo <;> rfl
  | false =>
    simp only [send, Broker.forward, outgoing, h]
    rfl

namespace Network

variable {ι : Type} [LinearOrder ι]

/-- The simulator that has registered object `name`; the net sim's objects stand for those of the others. -/
def owner (n : Network ι) (name : String) : Option ι :=
  (n.objs.find? fun e => decide (e.1 ≠ n.group.netSim) && e.2 == name).map Prod.fst

/-- Who a message on its way is for. -/
def address (n : Network ι) (o : Outgoing) : Option ι :=
  match o.control with
  | .route => n.owner o.message.msgTo
  | .delay => some n.group.netSim

/-- The broker hands on what is addressed to a member, and stops at anything else. -/
structure Routed (n : Network ι) (b : Broker ι) : Prop where
  valid : ∃ c, b.ctxs[0]? = some c ∧ c.validContexts = true
  forward : ∀ o dest, b.forward o = .ok dest ↔ ∃ j, n.address o = some j ∧ dest = some j

section Routing

variable {n : Network ι} {b b' : Broker ι} {c c' : Broker.Context ι} {o : Outgoing} {r : Request ι} {i : ι}

/-- Only objects of simulators other than the net sim are recorded. -/
theorem mem_of_registered (h : Trace.run Broker.advance (Broker.init n.group.size)
    (n.group.frames ++ n.objs.map Broker.registerFrame) = .ok b) :
    ∀ name ∈ b.objToID.dom, ∃ e ∈ n.objs, e.1 ≠ n.group.netSim ∧ e.2 = name := by
  obtain ⟨b₀, hform, hreg⟩ := Trace.run_append.mp h
  rw [n.group.run_frames, Except.ok.injEq] at hform
  subst hform
  have hstep : ∀ b f b', ((∃ c, b.ctxs[0]? = some c ∧ c.netSimID = some n.group.netSim) ∧
      ∀ name ∈ b.objToID.dom, ∃ e ∈ n.objs, e.1 ≠ n.group.netSim ∧ e.2 = name) → f ∈ n.objs.map Broker.registerFrame →
      Broker.advance b f = .ok b' → (∃ c, b'.ctxs[0]? = some c ∧ c.netSimID = some n.group.netSim) ∧
      ∀ name ∈ b'.objToID.dom, ∃ e ∈ n.objs, e.1 ≠ n.group.netSim ∧ e.2 = name := by
    intro b f b' ⟨⟨c, hc, hnet⟩, hnames⟩ hf hs
    obtain ⟨⟨i, name⟩, he, rfl⟩ := List.mem_map.mp hf
    obtain ⟨out, pubs, hs⟩ := Broker.advance_ok.mp hs
    have hlt : 0 < b.ctxs.length := (List.getElem?_eq_some_iff.mp hc).1
    have hin : ¬ ((0 : ℤ) < 0 ∨ b.ctxs.length ≤ (0 : ℤ).toNat ∧ b.ctxs ≠ []) := by
      rw [Int.toNat_zero]
      omega
    replace hs : b.registerHandler i 0 name = .ok (b', out, pubs) := by
      rw [Broker.registerFrame, Broker.step, if_neg hin] at hs
      exact hs
    obtain ⟨-, rfl⟩ | ⟨hi, -, l, -, rfl⟩ := Broker.registerHandler_ok hc hs
    · exact ⟨⟨{ c with netSimObjCount := c.netSimObjCount + 1 }, by simp [hlt], hnet⟩, hnames⟩
    · refine ⟨⟨c, hc, hnet⟩, fun other ho => ?_⟩
      rcases by simpa using ho with rfl | ho
      · exact ⟨_, he, fun hin => hi (hnet ▸ congrArg some hin), rfl⟩
      · exact hnames other ho
  have hstart : (∃ c, n.group.formed.ctxs[0]? = some c ∧ c.netSimID = some n.group.netSim) ∧
      ∀ name ∈ n.group.formed.objToID.dom, ∃ e ∈ n.objs, e.1 ≠ n.group.netSim ∧ e.2 = name :=
    ⟨⟨_, rfl, rfl⟩, by simp [HelloGroup.formed, Broker.init]⟩
  exact ((Trace.always_of_guarded hstep hstart (Trace.guarded_of_forall fun f hf => hf)).last hreg).2

/-- An object's owner is the one the broker has recorded. -/
theorem owner_eq (h : Trace.run Broker.advance (Broker.init n.group.size)
    (n.group.frames ++ n.objs.map Broker.registerFrame) = .ok b) {name : String} :
    n.owner name = (b.objToID.lookup name).bind n.group.context.logicalIDToRealID.lookup := by
  have howner := (Broker.registered_of_run h).owner
  unfold owner
  cases hfind : n.objs.find? fun e => decide (e.1 ≠ n.group.netSim) && e.2 == name with
  | none =>
    cases hl : b.objToID.lookup name with
    | none => rfl
    | some l =>
      obtain ⟨e, he, hne, hname⟩ := mem_of_registered h name (OrdMap.mem_dom_of_lookup hl)
      exact absurd (List.find?_eq_none.mp hfind e he) (by simp [hne, hname])
  | some e =>
    obtain ⟨hne, rfl⟩ : e.1 ≠ n.group.netSim ∧ e.2 = name := by simpa using List.find?_some hfind
    obtain ⟨l, hl, hlogical⟩ := howner e (List.mem_of_find?_eq_some hfind) hne
    simp [hl, hlogical]

/-- The registered group routes by the owners of the objects. -/
theorem Routed.start (h : Trace.run Broker.advance (Broker.init n.group.size)
    (n.group.frames ++ n.objs.map Broker.registerFrame) = .ok b) : Routed n b := by
  have hb := (Broker.registered_of_run h).broker
  have hctx : b.ctxs[0]? = some { n.group.context with netSimObjCount := (Broker.objectsOf n.objs n.group.netSim).length } := by
    rw [hb]
    rfl
  refine ⟨⟨_, hctx, rfl⟩, fun o dest => ?_⟩
  obtain ⟨control, message⟩ := o
  cases control with
  | delay =>
    simp only [Broker.forward, Broker.delayHandler, Broker.context_ok.mpr hctx, bind, Except.bind, address]
    simp [HelloGroup.context, Broker.Context.fresh, Broker.Context.number, eq_comm]
  | route =>
    simp only [Broker.forward, Broker.routeHandler, Broker.context_ok.mpr hctx, bind, Except.bind, address, owner_eq h]
    cases b.objToID.lookup message.msgTo with
    | none => simp [Except.map, Broker.death]
    | some l =>
      cases hl : n.group.context.logicalIDToRealID.lookup l with
      | none => simp [Except.map, Broker.death, hl]
      | some j => simp [Except.map, hl, eq_comm]

theorem forward_setContext (hc : b.ctxs[0]? = some c) (hp : c'.processes = c.processes) (o : Outgoing) :
    (b.setContext 0 c').forward o = b.forward o := by
  have hlt : 0 < b.ctxs.length := (List.getElem?_eq_some_iff.mp hc).1
  have hc' : (b.setContext 0 c').ctxs[0]? = some c' := by simp [hlt]
  simp only [Broker.Context.processes, Prod.mk.injEq] at hp
  obtain ⟨-, hnet, hlogical, -, -⟩ := hp
  have hobj : (b.setContext 0 c').objToID = b.objToID := rfl
  simp only [Broker.forward, Broker.routeHandler, Broker.delayHandler, Broker.context_ok.mpr hc, Broker.context_ok.mpr hc',
    bind, Except.bind, hnet, hlogical, hobj]

/-- Collectives do not change where messages go. -/
theorem Routed.step (h : Routed n b) (hr : r.isCollective = true) {out : Replies ι} {pubs : List Broker.Publication}
    (hs : b.step i 0 r = .ok (b', out, pubs)) : Routed n b' := by
  obtain ⟨⟨c, hc, hv⟩, hforward⟩ := h
  obtain ⟨e, hx, -⟩ | ⟨c', out', pubs', hx, hy⟩ := Broker.step_own (k := 0) (Broker.isCollective_ownContext hr) hc i
  · cases hx.symm.trans hs
  obtain ⟨rfl, rfl, rfl⟩ : b.setContext 0 c' = b' ∧ out' = out ∧ pubs' = pubs := by
    simpa only [Except.ok.injEq, Prod.mk.injEq] using hx.symm.trans hs
  have hp := (Broker.collective_processes hr hv hy).1
  have hlt : 0 < b.ctxs.length := (List.getElem?_eq_some_iff.mp hc).1
  refine ⟨⟨c', by simp [hlt], ?_⟩, fun o dest => ?_⟩
  · exact (congrArg Prod.fst hp).trans hv
  · rw [forward_setContext hc hp]
    exact hforward o dest

end Routing

end Network

namespace Traffic

variable {ι : Type} [LinearOrder ι]

/-- One turn of the loop in `sendAll`: what is counted, and what goes out. The
net sim's manager lets out only what its ledger still holds. -/
def sendTurn (n : Network ι) (s : Traffic ι) (i : ι) (m : Message) : Except Thrown (Traffic ι × Option Outgoing) :=
  if i = n.group.netSim then
    if m.isBroadCast then .error .operationNotSupported
    else
      match CommunicationComManager.removeMessageTimeout s.packets m.timeStamp with
      | (false, _) => .ok (s, none)
      | (true, packets) => .ok ({ s with packets := packets }, some (ZmqNetworkInterface.outgoing true m))
  else
    .ok ({ s with
        counters := Function.update s.counters i (GracePeriodCommManager.countSend n.globalObjectCount (s.counters i) m)
        sentEver := s.sentEver + n.copies m },
      some (ZmqNetworkInterface.outgoing false m))

/-- A turn of `sendAll` and the forwarding at once. -/
theorem sendOne_eq (n : Network ι) (s : Traffic ι) (i : ι) (m : Message) :
    s.sendOne n i m =
      match s.sendTurn n i m with
      | .error e => .error (.threw e)
      | .ok (t, none) => .ok t
      | .ok (t, some o) =>
        match s.session.broker.forward o with
        | .error e => .error (.stopped e)
        | .ok dest => .ok { t with inFlight := s.inFlight ++ dest.toList.map o.packet } := by
  unfold sendOne sendTurn
  split
  · split
    · rfl
    · cases CommunicationComManager.removeMessageTimeout s.packets m.timeStamp with
      | mk sent packets =>
        cases sent with
        | false => rfl
        | true =>
          cases hf : s.session.broker.forward (ZmqNetworkInterface.outgoing true m) <;>
            simp [ZmqNetworkInterface.send_eq, hf, Except.map]
  · cases hf : s.session.broker.forward (ZmqNetworkInterface.outgoing false m) <;>
      simp [ZmqNetworkInterface.send_eq, hf, Except.map]

/-- Who makes a call; messages and requests on their way are nobody's. -/
def Event.caller (n : Network ι) : Event ι → Option ι
  | .reduceTotalSendReceive i | .request i _ | .resetCounters i => some i
  | .packetLostCalculator _ => some n.group.netSim
  | .send .. | .arrive _ | .deliver .. => none

end Traffic

/-- The broker with its simulators, whose messages are in the outboxes and on
the sockets. The rest keeps track: `wentOut` is what a manager has let out,
`reached` what has arrived and from whom, and `dropped` how much of it was too old. -/
structure Delivery (ι : Type) [LinearOrder ι] where
  traffic : Traffic ι
  mail : ι → Mailing Message
  network : Relay ι ι Outgoing
  wentOut : ι → List Outgoing
  reached : ι → List (ι × Outgoing)
  dropped : ℕ

namespace Delivery

variable {ι : Type} [LinearOrder ι]

inductive Event (ι : Type)
  /-- The simulation, or a notifier, sends `m` through the interface `name`. -/
  | post (i : ι) (name : String) (m : Message)
  | sendAll (i : ι)
  /-- A turn of the inner loop of `sendAll`. -/
  | pass (i : ι)
  /-- A turn of the outer loop ends. -/
  | clear (i : ι)
  /-- The broker takes the next message of `i`. -/
  | forward (i : ι)
  /-- `j`, whose clock shows `currentTime`, takes the next message handed on to it. -/
  | deliver (j : ι) (currentTime : TIME)
  /-- Any other step of the traffic. -/
  | act (e : Traffic.Event ι)
  deriving DecidableEq, Repr

/-- Nothing sent yet. -/
def start (n : Network ι) (b : Broker ι) : Delivery ι where
  traffic := .start b
  mail i := .start (n.interfaces i)
  network := .empty
  wentOut _ := []
  reached _ := []
  dropped := 0

/-- A call of `i`'s simulation on its interfaces or of its manager on the outboxes. -/
def call (s : Delivery ι) (i : ι) (c : Mailing.Call Message) : Except Traffic.Halt (Delivery ι) :=
  match (s.mail i).step c with
  | .error _ => .error .notAllowed
  | .ok mailing => .ok { s with mail := Function.update s.mail i mailing }

/-- The next message of the copy, through the manager onto the socket. -/
def pass (n : Network ι) (s : Delivery ι) (i : ι) : Except Traffic.Halt (Delivery ι) :=
  match (s.mail i).boxes.flush with
  | some (_, m :: _) =>
    match s.traffic.sendTurn n i m with
    | .error e => .error (.threw e)
    | .ok (traffic, o) =>
      { s with
        traffic := traffic
        network := o.elim s.network (s.network.send i)
        wentOut := Function.update s.wentOut i (s.wentOut i ++ o.toList) }.call i .next
  | _ => .error .notAllowed

/-- A turn of the broker at its asynchronous socket. -/
def forward (s : Delivery ι) (i : ι) : Except Traffic.Halt (Delivery ι) :=
  match s.network.up i with
  | [] => .error .notAllowed
  | o :: rest =>
    match s.traffic.session.broker.forward o with
    | .error e => .error (.stopped e)
    | .ok dest => .ok { s with network := s.network.handDown i o rest dest }

/-- `processAsyncMessage`. -/
def deliver (n : Network ι) (s : Delivery ι) (j : ι) (currentTime : TIME) : Except Traffic.Halt (Delivery ι) :=
  match s.network.down j with
  | [] => .error .notAllowed
  | (i, o) :: rest =>
    (s.traffic.receive n currentTime (o.packet j)).map fun traffic => { s with
      traffic := traffic
      network := s.network.take j rest
      reached := Function.update s.reached j (s.reached j ++ [(i, o)])
      dropped := s.dropped + if tooOld (n.packetLostPeriod j) currentTime o.message then 1 else 0 }

/-- `sendAll` is over when its caller goes on, and is not called in a blocking call. -/
def step (n : Network ι) (s : Delivery ι) : Event ι → Except Traffic.Halt (Delivery ι)
  | .post i name m => s.call i (.send name m)
  | .sendAll i => if i ∈ n.group.members ∧ s.traffic.asked i = none then s.call i .sendAll else .error .notAllowed
  | .pass i => if i ∈ n.group.members ∧ s.traffic.asked i = none then s.pass n i else .error .notAllowed
  | .clear i => if i ∈ n.group.members ∧ s.traffic.asked i = none then s.call i .clear else .error .notAllowed
  | .forward i => if i ∈ n.group.members then s.forward i else .error .notAllowed
  | .deliver j currentTime =>
    if j ∈ n.group.members ∧ s.traffic.asked j ≠ some .sleep then s.deliver n j currentTime else .error .notAllowed
  | .act e =>
    match e with
    | .send .. | .deliver .. => .error .notAllowed
    | e =>
      if (e.caller n).all fun i => (s.mail i).boxes.flush.isNone then
        (s.traffic.step n e).map fun traffic => { s with traffic := traffic }
      else .error .notAllowed

/-! ## What a step does -/

section Steps

variable {n : Network ι} {s s' : Delivery ι} {i j : ι} {m : Message}

theorem sendTurn_ok {s t : Traffic ι} {o : Option Outgoing} (h : s.sendTurn n i m = .ok (t, o)) :
    (i = n.group.netSim ∧ m.isBroadCast = false ∧ ((t = s ∧ o = none) ∨
      ∃ packets, CommunicationComManager.removeMessageTimeout s.packets m.timeStamp = (true, packets) ∧
        t = { s with packets := packets } ∧ o = some (ZmqNetworkInterface.outgoing true m))) ∨
    (i ≠ n.group.netSim ∧ o = some (ZmqNetworkInterface.outgoing false m) ∧ t = { s with
      counters := Function.update s.counters i (GracePeriodCommManager.countSend n.globalObjectCount (s.counters i) m)
      sentEver := s.sentEver + n.copies m }) := by
  unfold Traffic.sendTurn at h
  split at h
  · next hi =>
    split at h
    · cases h
    next hb =>
    refine .inl ⟨hi, by simpa using hb, ?_⟩
    split at h
    · cases h
      exact .inl ⟨rfl, rfl⟩
    next packets hr =>
    cases h
    exact .inr ⟨packets, hr, rfl, rfl⟩
  · next hi =>
    cases h
    exact .inr ⟨hi, rfl, rfl⟩

theorem call_ok {c : Mailing.Call Message} : s.call i c = .ok s' ↔
    ∃ mailing, (s.mail i).step c = .ok mailing ∧ s' = { s with mail := Function.update s.mail i mailing } := by
  unfold call
  cases (s.mail i).step c <;> simp [eq_comm]

theorem pass_ok (h : s.pass n i = .ok s') : ∃ name m rest traffic o mailing,
    (s.mail i).boxes.flush = some (name, m :: rest) ∧ s.traffic.sendTurn n i m = .ok (traffic, o) ∧
    (s.mail i).step .next = .ok mailing ∧ s' = { s with
      traffic := traffic
      mail := Function.update s.mail i mailing
      network := o.elim s.network (s.network.send i)
      wentOut := Function.update s.wentOut i (s.wentOut i ++ o.toList) } := by
  unfold pass at h
  split at h
  · next name m rest hflush =>
    split at h
    · cases h
    next traffic o hturn =>
    obtain ⟨mailing, hnext, rfl⟩ := call_ok.mp h
    exact ⟨name, m, rest, traffic, o, mailing, hflush, hturn, hnext, rfl⟩
  · cases h

theorem forward_ok (h : s.forward i = .ok s') : ∃ o rest dest, s.network.up i = o :: rest ∧
    s.traffic.session.broker.forward o = .ok dest ∧ s' = { s with network := s.network.handDown i o rest dest } := by
  unfold forward at h
  split at h
  · cases h
  next o rest hup =>
  split at h
  · cases h
  next dest hdest =>
  cases h
  exact ⟨o, rest, dest, hup, hdest, rfl⟩

theorem deliver_ok {currentTime : TIME} (h : s.deliver n j currentTime = .ok s') : ∃ i o rest traffic,
    s.network.down j = (i, o) :: rest ∧ s.traffic.receive n currentTime (o.packet j) = .ok traffic ∧ s' = { s with
      traffic := traffic
      network := s.network.take j rest
      reached := Function.update s.reached j (s.reached j ++ [(i, o)])
      dropped := s.dropped + if tooOld (n.packetLostPeriod j) currentTime o.message then 1 else 0 } := by
  unfold deliver at h
  split at h
  · cases h
  next i o rest hdown =>
  cases hr : s.traffic.receive n currentTime (o.packet j) with
  | error e => rw [hr] at h; cases h
  | ok traffic =>
    rw [hr] at h
    cases h
    exact ⟨i, o, rest, traffic, hdown, hr, rfl⟩

/-- Neither the counters nor the ledger tell what is on its way. -/
theorem receive_withInFlight (s : Traffic ι) (l : List (Packet ι)) (currentTime : TIME) (p : Packet ι) :
    ({ s with inFlight := l } : Traffic ι).receive n currentTime p =
      (s.receive n currentTime p).map fun t => { t with inFlight := l } := by
  unfold Traffic.receive
  by_cases hnet : p.dest = n.group.netSim
  · by_cases hc : p.control ≠ .delay
    · simp [hnet, hc, Except.map]
    · simp only [hnet, hc, if_true, if_false]
      cases CommunicationComManager.messageReceived (n.interfaces n.group.netSim) (n.packetLostPeriod n.group.netSim)
        currentTime s.packets p.message <;> rfl
  · by_cases hc : p.control ≠ .route
    · simp [hnet, hc, Except.map]
    · simp only [hnet, hc, if_false]
      cases AbsCommManager.messageReceived (n.interfaces p.dest) (n.packetLostPeriod p.dest) currentTime
        (s.counters p.dest) p.message <;> rfl

/-- An arrival changes the counters and the ledger only. -/
theorem receive_ok {s t : Traffic ι} {currentTime : TIME} {p : Packet ι} (h : s.receive n currentTime p = .ok t) :
    t = { s with counters := t.counters, packets := t.packets } := by
  unfold Traffic.receive at h
  split at h
  · split at h
    · cases h
    split at h
    · cases h
    · cases h
      rfl
  · split at h
    · cases h
    split at h
    · cases h
    · cases h
      rfl

/-- A collective call or arrival does not touch the messages. -/
theorem step_withInFlight (s : Traffic ι) (l : List (Packet ι)) {e : Traffic.Event ι} (hsend : ∀ i m, e ≠ .send i m)
    (hdeliver : ∀ k currentTime, e ≠ .deliver k currentTime) :
    ({ s with inFlight := l } : Traffic ι).step n e = (s.step n e).map fun t => { t with inFlight := l } := by
  cases e with
  | send i m => exact absurd rfl (hsend i m)
  | deliver k currentTime => exact absurd rfl (hdeliver k currentTime)
  | arrive i =>
    simp only [Traffic.step]
    cases s.asked i with
    | none => rfl
    | some r =>
      by_cases hp : s.session.pending i ≠ none
      · simp [hp, Except.map]
      · simp only [hp, if_false]
        cases s.session.broker.step i 0 r <;> rfl
  | _ =>
    simp only [Traffic.step]
    split <;> rfl

theorem act_ok {e : Traffic.Event ι} (h : s.step n (.act e) = .ok s') : (∀ i m, e ≠ .send i m) ∧
    (∀ k currentTime, e ≠ .deliver k currentTime) ∧ (∀ i ∈ e.caller n, (s.mail i).boxes.flush = none) ∧
    ∃ traffic, s.traffic.step n e = .ok traffic ∧ s' = { s with traffic := traffic } := by
  have key (h : (if (e.caller n).all fun i => (s.mail i).boxes.flush.isNone then
      (s.traffic.step n e).map fun traffic => { s with traffic := traffic } else .error .notAllowed) = .ok s') :
      (∀ i ∈ e.caller n, (s.mail i).boxes.flush = none) ∧
        ∃ traffic, s.traffic.step n e = .ok traffic ∧ s' = { s with traffic := traffic } := by
    split at h
    · next hidle =>
      refine ⟨fun i hi => ?_, ?_⟩
      · rw [Option.mem_def.mp hi] at hidle
        exact Option.isNone_iff_eq_none.mp hidle
      · cases ht : s.traffic.step n e with
        | error e => rw [ht] at h; cases h
        | ok traffic => rw [ht] at h; exact ⟨traffic, rfl, (Except.ok.inj h).symm⟩
    · cases h
  cases e with
  | send i m => cases h
  | deliver k currentTime => cases h
  | _ => exact ⟨nofun, nofun, key h⟩

end Steps

/-! ## Order -/

section Order

variable {n : Network ι} {s s' : Delivery ι} {i j : ι} {m : Message}

/-- Messages go to the owners of their objects, and only collectives are asked for. -/
structure Steady (n : Network ι) (s : Traffic ι) : Prop where
  routed : n.Routed s.session.broker
  collectives : ∀ i r, s.asked i = some r → r.isCollective = true
  inFlight : s.inFlight = []

theorem Steady.step {s t : Traffic ι} (h : Steady n s) {e : Traffic.Event ι} (hsend : ∀ i m, e ≠ .send i m)
    (hdeliver : ∀ k currentTime, e ≠ .deliver k currentTime) (hs : s.step n e = .ok t) : Steady n t := by
  obtain ⟨hrouted, hcoll, hflight⟩ := h
  cases e with
  | send i m => exact absurd rfl (hsend i m)
  | deliver k currentTime => exact absurd rfl (hdeliver k currentTime)
  | reduceTotalSendReceive i =>
    simp only [Traffic.step] at hs
    split at hs <;> cases hs
    refine ⟨hrouted, fun j r hj => ?_, hflight⟩
    obtain ⟨-, rfl⟩ | ⟨-, hj⟩ := Pending.post_eq_some.mp hj
    · rfl
    · exact hcoll j r hj
  | request i q =>
    simp only [Traffic.step] at hs
    split at hs
    · next hreq =>
      cases hs
      refine ⟨hrouted, fun j r hj => ?_, hflight⟩
      obtain ⟨-, rfl⟩ | ⟨-, hj⟩ := Pending.post_eq_some.mp hj
      · have hother := hreq.2.2
        simp only [Traffic.otherCollective, Bool.and_eq_true] at hother
        exact hother.1.1.1
      · exact hcoll j r hj
    · cases hs
  | arrive i =>
    obtain ⟨r, b, out, pubs, hr, -, hb, rfl⟩ := Traffic.arrive_ok hs
    exact ⟨hrouted.step (hcoll i r hr) hb, fun j q hj => hcoll j q (Pending.answer_eq_some.mp hj).2, hflight⟩
  | packetLostCalculator currentTime =>
    simp only [Traffic.step] at hs
    split at hs <;> cases hs
    exact ⟨hrouted, hcoll, hflight⟩
  | resetCounters i =>
    simp only [Traffic.step] at hs
    split at hs <;> cases hs
    exact ⟨hrouted, hcoll, hflight⟩

/-- What has reached `j` from `i`. -/
def reachedFrom (s : Delivery ι) (i j : ι) : List Outgoing := ((s.reached j).filter fun e => e.1 = i).map Prod.snd

/-- What is on its way from `i` to `j`. -/
def onWay (n : Network ι) (s : Delivery ι) (i j : ι) : List Outgoing := s.network.between (fun _ o => n.address o) i j

/-- What `i`'s manager has come to, as it goes out. -/
def passedOn (n : Network ι) (s : Delivery ι) (i : ι) : List Outgoing :=
  (s.mail i).passed.map fun e => ZmqNetworkInterface.outgoing (decide (i = n.group.netSim)) e.2

/-- Nothing is lost, made up or overtaken between two managers, and nothing gets astray. -/
structure Ordered (n : Network ι) (s : Delivery ι) : Prop where
  accounted : ∀ i, (s.mail i).Accounted
  letOut : ∀ i, (s.wentOut i).Sublist (s.passedOn n i) ∧ (i ≠ n.group.netSim → s.wentOut i = s.passedOn n i)
  path : ∀ i j, (s.wentOut i).filter (fun o => n.address o = some j) = s.reachedFrom i j ++ s.onWay n i j
  addressed : ∀ j, ∀ e ∈ s.reached j, n.address e.2 = some j
  down : s.network.Addressed fun _ o => n.address o
  steady : Steady n s.traffic

theorem Ordered.start {b : Broker ι} (h : n.Routed b) : Ordered n (start n b) where
  accounted i := .start
  letOut i := ⟨List.Sublist.refl [], fun _ => rfl⟩
  path i j := rfl
  addressed j e he := by cases he
  down := .empty
  steady := ⟨h, nofun, rfl⟩

/-- The interfaces of `i` and what `sendAll` has come to keep step. -/
theorem Accounted.update (h : ∀ i, (s.mail i).Accounted) {c : Mailing.Call Message} {mailing : Mailing Message}
    (hs : (s.mail i).step c = .ok mailing) (j : ι) : (Function.update s.mail i mailing j).Accounted := by
  by_cases hj : j = i
  · subst hj
    rw [Function.update_self]
    exact (h j).step hs
  · rw [Function.update_of_ne hj]
    exact h j

/-- A call that passes nothing on. -/
theorem Ordered.call (h : Ordered n s) {c : Mailing.Call Message} (hs : s.call i c = .ok s')
    (hpassed : ∀ mailing, (s.mail i).step c = .ok mailing → mailing.passed = (s.mail i).passed) : Ordered n s' := by
  obtain ⟨mailing, hm, rfl⟩ := call_ok.mp hs
  refine ⟨Accounted.update h.accounted hm, fun j => ?_, h.path, h.addressed, h.down, h.steady⟩
  have hsame : (Function.update s.mail i mailing j).passed = (s.mail j).passed := by
    by_cases hj : j = i
    · subst hj
      rw [Function.update_self, hpassed mailing hm]
    · rw [Function.update_of_ne hj]
  simp only [passedOn, hsame]
  exact h.letOut j

/-- What a manager lets out next. -/
theorem Ordered.pass (h : Ordered n s) (hs : s.pass n i = .ok s') : Ordered n s' := by
  obtain ⟨name, m, rest, traffic, o, mailing, hflush, hturn, hnext, rfl⟩ := pass_ok hs
  have hpassed : mailing.passed = (s.mail i).passed ++ [(name, m)] := by
    obtain ⟨_, _, _, hf, rfl⟩ := Mailing.next_ok.mp hnext
    obtain ⟨rfl, rfl, rfl⟩ := by simpa using hflush.symm.trans hf
    rfl
  obtain ⟨hsession, hasked, hflight⟩ : traffic.session = s.traffic.session ∧ traffic.asked = s.traffic.asked ∧
      traffic.inFlight = s.traffic.inFlight := by
    obtain ⟨-, -, ⟨rfl, -⟩ | ⟨_, -, rfl, -⟩⟩ | ⟨-, -, rfl⟩ := sendTurn_ok hturn <;> exact ⟨rfl, rfl, rfl⟩
  have ho : (o = none ∧ i = n.group.netSim) ∨
      o = some (ZmqNetworkInterface.outgoing (decide (i = n.group.netSim)) m) := by
    obtain ⟨hi, -, ⟨-, rfl⟩ | ⟨_, -, -, rfl⟩⟩ | ⟨hi, rfl, -⟩ := sendTurn_ok hturn
    · exact .inl ⟨rfl, hi⟩
    · exact .inr (by simp [hi])
    · exact .inr (by simp [hi])
  refine ⟨Accounted.update h.accounted hnext, fun j => ?_, fun j k => ?_, h.addressed, ?_, ?_⟩
  · by_cases hj : j = i
    · subst hj
      obtain ⟨hsub, heq⟩ := h.letOut j
      simp only [passedOn, Function.update_self, hpassed, List.map_append, List.map_cons, List.map_nil]
      obtain ⟨rfl, hnet⟩ | rfl := ho
      · rw [Option.toList_none, List.append_nil]
        exact ⟨hsub.trans (List.sublist_append_left _ _), fun hne => absurd hnet hne⟩
      · exact ⟨hsub.append (.refl _), fun hne => congrArg (· ++ _) (heq hne)⟩
    · simp only [passedOn, Function.update_of_ne hj]
      exact h.letOut j
  · have hpath := h.path j k
    obtain ⟨rfl, -⟩ | rfl := ho
    · show (Function.update s.wentOut i (s.wentOut i ++ []) j).filter _ = s.reachedFrom j k ++ s.onWay n j k
      rwa [List.append_nil, Function.update_eq_self]
    · simp only [onWay, Option.elim_some, Relay.between_send, Option.toList_some, ← List.append_assoc]
      show _ = s.reachedFrom j k ++ s.onWay n j k ++ _
      rw [← hpath]
      by_cases hj : j = i
      · subst hj
        simp [List.filter_append, List.filter_singleton]
      · simp [hj]
  · obtain ⟨rfl, -⟩ | rfl := ho
    · exact h.down
    · exact h.down.send
  · exact ⟨hsession ▸ h.steady.routed, hasked ▸ h.steady.collectives, hflight.trans h.steady.inFlight⟩

/-- The broker hands a message on to its addressee. -/
theorem Ordered.forward (h : Ordered n s) (hs : s.forward i = .ok s') : Ordered n s' := by
  obtain ⟨o, rest, dest, hup, hdest, rfl⟩ := forward_ok hs
  obtain ⟨j, hj, rfl⟩ := (h.steady.routed.forward o dest).mp hdest
  have hdown := h.down.handDown (a := i) (x := o) rest
  rw [hj] at hdown
  refine ⟨h.accounted, h.letOut, fun a b => ?_, h.addressed, hdown, h.steady⟩
  have hkeep : (s.network.handDown i o rest (n.address o)).between (fun _ o => n.address o) a b = s.onWay n a b :=
    Relay.between_handDown hup
  rw [hj] at hkeep
  rw [onWay, hkeep]
  exact h.path a b

/-- What arrives has gone out before what is still on its way. -/
theorem Ordered.deliver (h : Ordered n s) {currentTime : TIME} (hs : s.deliver n j currentTime = .ok s') : Ordered n s' := by
  obtain ⟨i, o, rest, traffic, hdown, hr, rfl⟩ := deliver_ok hs
  have haddress : n.address o = some j := h.down j _ (hdown ▸ List.mem_cons_self)
  refine ⟨h.accounted, h.letOut, fun a b => ?_, fun b e he => ?_, h.down.take hdown, ?_⟩
  · have hpath := h.path a b
    rw [onWay, Relay.between_take hdown, ← List.append_assoc] at hpath
    refine hpath.trans (congrArg (· ++ _) ?_)
    by_cases hb : b = j
    · subst hb
      by_cases ha : a = i
      · subst ha
        simp [reachedFrom]
      · simp [reachedFrom, ha, Ne.symm ha]
    · simp [reachedFrom, hb]
  · by_cases hb : b = j
    · subst hb
      dsimp only at he
      rw [Function.update_self] at he
      rcases List.mem_append.mp he with he | he
      · exact h.addressed b e he
      · rw [List.mem_singleton.mp he]
        exact haddress
    · dsimp only at he
      rw [Function.update_of_ne hb] at he
      exact h.addressed b e he
  · rw [receive_ok hr]
    exact ⟨h.steady.routed, h.steady.collectives, h.steady.inFlight⟩

theorem Ordered.step (h : Ordered n s) {e : Event ι} (hs : s.step n e = .ok s') : Ordered n s' := by
  cases e with
  | post i name m =>
    refine h.call hs fun mailing hm => ?_
    obtain ⟨-, rfl⟩ := Mailing.send_ok.mp hm
    rfl
  | sendAll i =>
    simp only [Delivery.step] at hs
    split at hs
    · refine h.call hs fun mailing hm => ?_
      obtain ⟨-, rfl⟩ := Mailing.sendAll_ok.mp hm
      rfl
    · cases hs
  | pass i =>
    simp only [Delivery.step] at hs
    split at hs
    · exact h.pass hs
    · cases hs
  | clear i =>
    simp only [Delivery.step] at hs
    split at hs
    · refine h.call hs fun mailing hm => ?_
      obtain ⟨_, -, rfl⟩ := Mailing.clear_ok.mp hm
      rfl
    · cases hs
  | forward i =>
    simp only [Delivery.step] at hs
    split at hs
    · exact h.forward hs
    · cases hs
  | deliver j currentTime =>
    simp only [Delivery.step] at hs
    split at hs
    · exact h.deliver hs
    · cases hs
  | act e =>
    obtain ⟨hsend, hdeliver, -, traffic, ht, rfl⟩ := act_ok hs
    exact ⟨h.accounted, h.letOut, h.path, h.addressed, h.down, h.steady.step hsend hdeliver ht⟩

/-- Of every two simulators: what the one's manager has let out for the other, in the order in which it did, has
reached the other's manager or is on its way there. A simulator's manager lets out all that `sendAll` comes to, the
net sim's a part of it, and `sendAll` comes to everything that was sent on time. What reaches a simulator is
addressed to an object it has registered, and what reaches the net sim is to be delayed. -/
structure InOrder (n : Network ι) (s : Delivery ι) : Prop where
  sent : ∀ i name, Mailing.onTime ((s.mail i).sent name) = (s.mail i).passedOf name ++ (s.mail i).boxes.willSend name
  letOut : ∀ i, i ≠ n.group.netSim → s.wentOut i = s.passedOn n i
  heldBack : (s.wentOut n.group.netSim).Sublist (s.passedOn n n.group.netSim)
  path : ∀ i j, (s.wentOut i).filter (fun o => n.address o = some j) = s.reachedFrom i j ++ s.onWay n i j
  owner : ∀ j, j ≠ n.group.netSim → ∀ e ∈ s.reached j, e.2.control = .route ∧ (j, e.2.message.msgTo) ∈ n.objs
  netSim : ∀ e ∈ s.reached n.group.netSim, e.2.control = .delay

theorem owner_mem {name : String} (h : n.owner name = some j) : (j, name) ∈ n.objs ∧ j ≠ n.group.netSim := by
  obtain ⟨e, he, rfl⟩ := Option.map_eq_some_iff.mp h
  obtain ⟨hne, rfl⟩ : e.1 ≠ n.group.netSim ∧ e.2 = name := by simpa using List.find?_some he
  exact ⟨List.mem_of_find?_eq_some he, hne⟩

theorem Ordered.inOrder (h : Ordered n s) : InOrder n s where
  sent i := (h.accounted i).equation
  letOut i := (h.letOut i).2
  heldBack := (h.letOut _).1
  path := h.path
  owner j hj e he := by
    have haddress := h.addressed j e he
    obtain ⟨i, control, message⟩ := e
    cases control with
    | route => exact ⟨rfl, (owner_mem haddress).1⟩
    | delay => exact absurd (Option.some.inj haddress).symm hj
  netSim e he := by
    have haddress := h.addressed _ e he
    obtain ⟨i, control, message⟩ := e
    cases control with
    | route => exact absurd rfl (owner_mem haddress).2
    | delay => rfl

/-- Messages arrive in order, none is lost between two managers and none is made up, in every state of every run
of a registered group: whatever is sent and when, in a notifier too, whichever socket the broker or a simulator
reads next, and whichever collectives go on. -/
theorem delivered_in_order (n : Network ι) {b : Broker ι} {es : List (Event ι)}
    (hstart : Trace.run Broker.advance (Broker.init n.group.size)
      (n.group.frames ++ n.objs.map Broker.registerFrame) = .ok b)
    (hrun : Trace.run (step n) (start n b) es = .ok s) : InOrder n s := by
  have hordered : Ordered n s :=
    Trace.run_invariant (I := Ordered n) (fun _ _ _ h hs => h.step hs) (.start (.start hstart)) hrun
  exact hordered.inOrder

end Order

/-- While simulator 0's messages are being sent a notifier sends one more, which nobody gets. One message takes the
way through the net sim, and another overtakes it. -/
def mixedDelivery : List (Event ℕ) :=
  List.flatten [
    [.post 0 "a" ⟨"a", "b", 1, true⟩, .post 0 "a" ⟨"a", "b", 1, false⟩, .post 0 "a" ⟨"a", "c", 1, false⟩],
    [.sendAll 0, .pass 0, .forward 0, .pass 0, .post 0 "a" ⟨"a", "c", 2, false⟩, .pass 0, .clear 0],
    [.act (.reduceTotalSendReceive 0), .forward 0, .deliver 1 1, .act (.arrive 0)],
    [.deliver 3 1, .post 3 "a" ⟨"a", "b", 1, true⟩, .sendAll 3, .pass 3, .clear 3, .clear 3, .clear 3],
    [.forward 3, .deliver 1 2]]

theorem delivered_in_order_mixed : ∃ b s,
    Trace.run Broker.advance (Broker.init 4) (Broker.fourMembers.frames ++
      Traffic.fourObjects.objs.map Broker.registerFrame) = .ok b ∧
    Trace.run (step Traffic.fourObjects) (start Traffic.fourObjects b) mixedDelivery = .ok s ∧
    s.reached 1 = [(0, ⟨.route, ⟨"a", "b", 1, false⟩⟩), (3, ⟨.route, ⟨"a", "b", 1, true⟩⟩)] ∧
    s.onWay Traffic.fourObjects 0 2 = [⟨.route, ⟨"a", "c", 1, false⟩⟩] ∧ InOrder Traffic.fourObjects s := by
  obtain ⟨b, hb, hcheck⟩ := Trace.exists_run_of_check Broker.advance (Broker.init 4)
    (Broker.fourMembers.frames ++ Traffic.fourObjects.objs.map Broker.registerFrame)
    (fun b => Trace.endsIn (fun s => s.reached 1 == [(0, ⟨.route, ⟨"a", "b", 1, false⟩⟩), (3, ⟨.route, ⟨"a", "b", 1, true⟩⟩)] &&
      s.onWay Traffic.fourObjects 0 2 == [⟨.route, ⟨"a", "c", 1, false⟩⟩])
      (Trace.run (step Traffic.fourObjects) (start Traffic.fourObjects b) mixedDelivery)) (by decide +kernel)
  obtain ⟨s, hs, hreached⟩ := Trace.exists_run_of_check (step Traffic.fourObjects) (start Traffic.fourObjects b)
    mixedDelivery _ hcheck
  simp only [Bool.and_eq_true, beq_iff_eq] at hreached
  exact ⟨b, s, hb, hs, hreached.1, hreached.2, delivered_in_order Traffic.fourObjects hb hs⟩

end Delivery

end Fncs

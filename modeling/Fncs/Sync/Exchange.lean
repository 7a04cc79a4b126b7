/-
Messages between simulators of the sleeping algorithm: the traffic, the
simulators of which some may sleep, and the net sim with
`ConservativeSleepingCommAlgo` (`conservativesleepingcommalgo.cpp`).

A simulator sends in `sendAll`, outside the algorithm, and reports its counters
once in every turn. After a difference of 0 it resets them: the net sim at
once, any other simulator when the network delay is known.
-/
import Fncs.Sync.Difference
import Fncs.Sync.Phases

namespace Fncs

open Broker (Request Reply Replies HelloGroup Stop Frame Session Publication)
open Sleepers (Tick)

namespace Exchange

/-- A call that is due before the next request. -/
inductive Due
  | resetCounters
  | packetLostCalculator (currentTime : TIME)
  deriving DecidableEq, Repr

/-! ## The net sim -/

/-- Where the net sim is. Each place but the first is one blocking request. -/
inductive Place
  | running
  | timeStepStart
  | sendRecv (currentTime : TIME)
  | networkDelay
  | minTime
  deriving DecidableEq, Repr

/-- The members of `ConservativeSleepingCommAlgo`. -/
structure NetSim where
  grantedTime : TIME
  diff : ℕ
  finished : Bool
  place : Place
  deriving DecidableEq, Repr

namespace NetSim

/-- The net sim waits for the others at the start of a step. -/
def timeStepStart (currentTime : TIME) (x : NetSim) : NetSim :=
  if currentTime < x.grantedTime then x else { x with place := .timeStepStart }

/-- `GetNextTime` is called. -/
def getNextTime (currentTime nextTime : TIME) (x : NetSim) : NetSim :=
  if nextTime < x.grantedTime then x else { x with place := .sendRecv currentTime }

/-- The request it blocks in. It proposes no time of its own. -/
def request {ι : Type} (sent recv : ℕ) (delay : TIME) (x : NetSim) : Option (Request ι) :=
  match x.place with
  | .running => none
  | .timeStepStart => some .barrier
  | .sendRecv _ => some (.reduceSendRecv sent recv)
  | .networkDelay => some (.reduceMinTime delay)
  | .minTime => some (.reduceMinTime Infinity)

/-- The reply arrives. -/
def resume (x : NetSim) (r : Reply) : NetSim :=
  match x.place, r with
  | .timeStepStart, .ack => { x with place := .running }
  | .sendRecv _, .diff d => { x with diff := d, place := .networkDelay }
  | .networkDelay, .time _ => { x with place := .minTime }
  | .minTime, .time t =>
    if t = Infinity then { x with finished := true, place := .running }
    else { x with grantedTime := t, place := .running }
  | _, _ => x

/-- What the reply makes due. -/
def owes (x : NetSim) (r : Reply) : Option Due :=
  match x.place, r with
  | .sendRecv currentTime, .diff d => some (if d = 0 then .resetCounters else .packetLostCalculator currentTime)
  | _, _ => none

end NetSim

/-- What a reply makes due for another simulator. -/
def owes (x : Tick) (r : Reply) : Option Due :=
  match x.place, r with
  | .networkDelay _, .time _ => if x.algo.diff = 0 then some .resetCounters else none
  | _, _ => none

end Exchange

/-- The traffic and the simulators. The net sim has no use for its entry of `ticks`. -/
structure Exchange (ι : Type) [LinearOrder ι] where
  traffic : Traffic ι
  ticks : ι → Tick
  netSim : Exchange.NetSim
  due : ι → Option Exchange.Due

namespace Exchange

variable {ι : Type} [LinearOrder ι]

/-- What happens next. `woken` is what the calls of `sleep` that are answered return. -/
inductive Event (ι : Type)
  | timeStepStart (i : ι) (currentTime : TIME)
  | getNextTime (i : ι) (currentTime nextTime : TIME)
  /-- One message of `sendAll`. -/
  | send (i : ι) (m : Message)
  /-- The call that is due for `i` is made. -/
  | settle (i : ι)
  /-- `i` sends the request it blocks in. -/
  | ask (i : ι) (delay : TIME)
  /-- `i`'s request reaches the broker. -/
  | arrive (i : ι) (woken : ι → Bool)
  /-- The `k`-th message in flight reaches its addressee, whose clock shows `currentTime`. -/
  | deliver (k : ℕ) (currentTime : TIME)

/-- The group is connected, and every simulator has called its constructor. -/
def start (n : Network ι) (integrator : ι → Integrator) (fresh : ι → ℕ → TIME) (b : Broker ι) : Exchange ι where
  traffic := .start b
  ticks := (Sleepers.State.start n.group integrator fresh b).ticks
  netSim := ⟨0, 0, false, .running⟩
  due := fun _ => none

/-- The simulators and the broker. -/
def system (s : Exchange ι) : Sleepers.State ι := ⟨s.traffic.session, s.ticks⟩

/-- Outside the algorithm. -/
def Outside (n : Network ι) (s : Exchange ι) (i : ι) : Prop :=
  if i = n.group.netSim then s.netSim.place = .running else (s.ticks i).place = .running ∧ (s.ticks i).fault = none

instance (n : Network ι) (s : Exchange ι) (i : ι) : Decidable (s.Outside n i) :=
  inferInstanceAs (Decidable (if i = n.group.netSim then s.netSim.place = .running else
    (s.ticks i).place = .running ∧ (s.ticks i).fault = none))

/-- The request `i` blocks in. -/
def request (n : Network ι) (s : Exchange ι) (i : ι) (sent recv : ℕ) (delay : TIME) : Option (Request ι) :=
  if i = n.group.netSim then s.netSim.request sent recv delay else (s.ticks i).request sent recv delay

/-- What the traffic sees of a request. -/
def asEvent (i : ι) : Request ι → Traffic.Event ι
  | .reduceSendRecv _ _ => .reduceTotalSendReceive i
  | r => .request i r

/-- A step of the traffic. -/
def lift (s : Exchange ι) (x : Except Traffic.Halt (Traffic ι)) : Except Traffic.Halt (Exchange ι) :=
  x.map fun t => { s with traffic := t }

/-- A simulator outside the algorithm makes a call. -/
def call (n : Network ι) (s : Exchange ι) (i : ι) (f : Tick → Tick) (g : NetSim → NetSim) :
    Except Traffic.Halt (Exchange ι) :=
  if i ∈ n.group.members ∧ s.Outside n i then
    if i = n.group.netSim then .ok { s with netSim := g s.netSim }
    else .ok { s with ticks := Function.update s.ticks i (f (s.ticks i)) }
  else .error .notAllowed

/-- The exchange once the broker has answered `i`'s request `r` with `out`. -/
def after (n : Network ι) (s : Exchange ι) (i : ι) (r : Request ι) (b : Broker ι) (out : Replies ι) (woken : ι → Bool) :
    Exchange ι where
  traffic := s.traffic.after i r b out
  ticks := s.system.resumed out woken
  netSim :=
    match System.replyTo out n.group.netSim with
    | none => s.netSim
    | some r => s.netSim.resume r
  due := fun j =>
    match System.replyTo out j with
    | none => s.due j
    | some r => if j = n.group.netSim then s.netSim.owes r else owes (s.ticks j) r

def step (n : Network ι) (s : Exchange ι) : Event ι → Except Traffic.Halt (Exchange ι)
  | .timeStepStart i currentTime =>
    s.call n i (Tick.timeStepStart currentTime) (NetSim.timeStepStart currentTime)
  | .getNextTime i currentTime nextTime =>
    s.call n i (Tick.getNextTime currentTime nextTime) (NetSim.getNextTime currentTime nextTime)
  | .send i m => if s.Outside n i then s.lift (s.traffic.step n (.send i m)) else .error .notAllowed
  | .settle i =>
    match s.due i with
    | none => .error .notAllowed
    | some .resetCounters => { s with due := Function.update s.due i none }.lift (s.traffic.step n (.resetCounters i))
    | some (.packetLostCalculator currentTime) =>
      { s with due := Function.update s.due i none }.lift (s.traffic.step n (.packetLostCalculator currentTime))
  | .ask i delay =>
    match s.request n i (s.traffic.counters i).sendCount (s.traffic.counters i).receiveCount delay with
    | none => .error .notAllowed
    | some r => if s.due i = none then s.lift (s.traffic.step n (asEvent i r)) else .error .notAllowed
  | .arrive i woken =>
    match s.traffic.asked i with
    | none => .error .notAllowed
    | some r =>
      if s.traffic.session.pending i ≠ none then .error .notAllowed
      else
        match s.traffic.session.broker.step i 0 r with
        | .error e => .error (.stopped e)
        | .ok (b, out, _) => .ok (s.after n i r b out woken)
  | .deliver k currentTime => s.lift (s.traffic.step n (.deliver k currentTime))

/-! ## What a step does -/

variable {n : Network ι} {s s' : Exchange ι} {i j : ι} {r : Request ι} {b : Broker ι} {out : Replies ι}
  {pubs : List Publication} {woken : ι → Bool} {sent recv : ℕ} {delay : TIME}

theorem lift_ok {x : Except Traffic.Halt (Traffic ι)} : s.lift x = .ok s' ↔ ∃ t, x = .ok t ∧ s' = { s with traffic := t } := by
  unfold lift
  cases x with
  | error e => simp [Except.map]
  | ok t => simp [Except.map, eq_comm]

/-- A call is that of the net sim or of another simulator. -/
theorem call_ok {f : Tick → Tick} {g : NetSim → NetSim} (hs : s.call n i f g = .ok s') :
    (i = n.group.netSim ∧ s.netSim.place = .running ∧ s' = { s with netSim := g s.netSim }) ∨
      (i ∈ Sleepers.powerSims n.group ∧ s.system.call n.group i f = .ok s'.system ∧
        s' = { s with ticks := Function.update s.ticks i (f (s.ticks i)) }) := by
  unfold call at hs
  split at hs
  · next hi =>
    obtain ⟨hm, ho⟩ := hi
    unfold Outside at ho
    split at hs
    · next hin =>
      rw [if_pos hin] at ho
      exact .inl ⟨hin, ho, (Except.ok.inj hs).symm⟩
    · next hin =>
      rw [if_neg hin] at ho
      obtain rfl := Except.ok.inj hs
      have hp : i ∈ Sleepers.powerSims n.group := Finset.mem_erase.mpr ⟨hin, List.mem_toFinset.mpr hm⟩
      exact .inr ⟨hp, Sleepers.call_ok.mpr ⟨⟨hp, ho.1, ho.2⟩, rfl⟩, rfl⟩
  · cases hs

theorem arrive_ok (hs : s.step n (.arrive i woken) = .ok s') : ∃ r b out pubs, s.traffic.asked i = some r ∧
    s.traffic.session.pending i = none ∧ s.traffic.session.broker.step i 0 r = .ok (b, out, pubs) ∧
    s' = s.after n i r b out woken := by
  simp only [step] at hs
  split at hs
  · cases hs
  next r hr =>
  split at hs
  · cases hs
  next hp =>
  split at hs
  · cases hs
  next b out pubs hb =>
  cases hs
  exact ⟨r, b, out, pubs, hr, not_not.mp hp, hb, rfl⟩

/-- A request that reaches the broker is a step of the traffic and one of the simulators. -/
theorem traffic_arrive (hr : s.traffic.asked i = some r) (hp : s.traffic.session.pending i = none)
    (hb : s.traffic.session.broker.step i 0 r = .ok (b, out, pubs)) :
    s.traffic.step n (.arrive i) = .ok (s.after n i r b out woken).traffic := by
  simp [Traffic.step, hr, hp, hb, after]

theorem system_send (ha : Broker.collectivesOnly n.group.netSim s.traffic.session ⟨i, 0, r⟩ = true)
    (hb : s.traffic.session.broker.step i 0 r = .ok (b, out, pubs)) :
    s.system.send n.group ⟨i, 0, r⟩ woken = .ok (s.after n i r b out woken).system :=
  Sleepers.send_ok.mpr ⟨ha, b, out, pubs, hb, rfl⟩

/-- The copies in a report are those of the counters. -/
theorem request_copies {a c : ℕ} (h : s.request n i sent recv delay = some (.reduceSendRecv a c)) : a = sent ∧ c = recv := by
  unfold request NetSim.request Tick.request at h
  split at h
  · split at h <;> simp_all
  · split at h
    · cases h
    · split at h <;> simp_all [ite_eq_iff]

/-- A request is posted with the counters it was made from. -/
theorem ask_ok {t : Traffic ι} (hr : s.request n i (s.traffic.counters i).sendCount (s.traffic.counters i).receiveCount
    delay = some r) (hs : s.traffic.step n (asEvent i r) = .ok t) :
    t = { s.traffic with asked := Pending.post s.traffic.asked i r } := by
  cases r with
  | reduceSendRecv a c =>
    obtain ⟨rfl, rfl⟩ := request_copies hr
    simp only [asEvent, Traffic.step] at hs
    split at hs
    · exact (Except.ok.inj hs).symm
    · cases hs
  | _ =>
    simp only [asEvent, Traffic.step] at hs
    split at hs
    · exact (Except.ok.inj hs).symm
    · cases hs

section Answered

variable {who : Finset ι} {reply : ι → Reply} (ha : Broker.Answered out who reply)

include ha

theorem after_ticks : (s.after n i r b out woken).ticks j =
    if j ∈ who then (s.ticks j).resume (woken j) (reply j) else s.ticks j := by
  simp only [after, Sleepers.State.resumed, System.replyTo_eq ha]
  split
  · next h =>
    split at h
    · cases h
    · next hj => rw [if_neg hj]; rfl
  · next h =>
    split at h
    · next hj =>
      cases h
      rw [if_pos hj]
      rfl
    · cases h

theorem after_netSim : (s.after n i r b out woken).netSim =
    if n.group.netSim ∈ who then s.netSim.resume (reply n.group.netSim) else s.netSim := by
  simp only [after, System.replyTo_eq ha]
  split
  · next h =>
    split at h
    · cases h
    · next hj => rw [if_neg hj]
  · next h =>
    split at h
    · next hj =>
      cases h
      rw [if_pos hj]
    · cases h

end Answered

end Exchange

end Fncs

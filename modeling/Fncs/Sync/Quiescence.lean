/-
Ordered sockets against messages in flight. A delivery does what a `Traffic`
can do that routes each message when `sendAll` comes to it and lets the
messages in flight arrive in the order of the sockets (`delivery_refines`), so
what the simulators count is what the message difference is about.

With the lockstep algorithms, a difference of 0 then finds the sockets empty:
whatever `sendAll` has come to has reached the manager it is for, and none of
it was dropped there (`zero_quiescent`).
-/
import Fncs.Sync.Delivery

namespace Fncs

open Broker (Request Reply Replies HelloGroup Stop)

/-! ## What is dropped -/

namespace Traffic

variable {ι : Type} [LinearOrder ι] {n : Network ι} {s s' : Traffic ι}

/-- How many messages a step drops on arrival. -/
def drops (n : Network ι) (s : Traffic ι) : Event ι → ℕ
  | .deliver k currentTime =>
    match s.inFlight[k]? with
    | some p => if tooOld (n.packetLostPeriod p.dest) currentTime p.message then 1 else 0
    | none => 0
  | _ => 0

/-- Unicast messages become at most what they were: on their way, dropped, held or received. -/
theorem Sound.flow_drops (h : Sound n s) (hfit : s.sentEver < ulongSize) {e : Event ι} (hs : s.step n e = .ok s')
    (he : e.lockstep = true) : s'.received n + s'.outstanding (fun _ => 1) (max 1) + s.drops n e + s.sentEver ≤
      s.received n + s.outstanding (fun _ => 1) (max 1) + s'.sentEver := by
  have hroom := h.room
  cases e with
  | send i m =>
    have hb : m.isBroadCast = false := by simpa [Event.lockstep] using he
    have h1 : n.copies m = 1 := by simp [Network.copies, hb]
    rcases send_flow h.reporting (fun _ => 1) (max 1) hs with rfl | ⟨hrec, ⟨-, -, hk, hr, hout⟩ | ⟨-, hk, hout⟩⟩
    · exact le_rfl
    · have := CommunicationComManager.total_removeMessageTimeout (f := max 1) (fun v _ => by split <;> omega) hr
      simp only [drops]
      omega
    · simp only [drops]
      omega
  | arrive i =>
    obtain ⟨r, b, out, pubs, hr, hp, hb, rfl⟩ := arrive_ok hs
    rw [(h.reporting.after hfit (by omega) hr hp hb).2.1]
    exact le_rfl
  | deliver k currentTime =>
    obtain ⟨p, hp, hk, hout, ⟨hold, hrec, hpk⟩ | ⟨hnew, -, -, hrec, hpk⟩ | ⟨hnew, -, -, hpk, hrec⟩⟩ :=
      deliver_flow (fun _ => 1) (max 1) hs
    · rw [hpk] at hout
      simp only [drops, hp, hold, if_true]
      omega
    · rw [h.unicast p (List.mem_of_getElem? hp)] at hpk
      have := CommunicationComManager.total_addMessageTimeout_le (n.interfaces p.dest) s.packets p.message.timeStamp
      rw [← hpk] at this
      simp only [drops, hp, hnew, Bool.false_eq_true, if_false]
      omega
    · rw [hpk] at hout
      have hmod := Nat.mod_le ((s.counters p.dest).receiveCount + 1) ulongSize
      simp only [drops, hp, hnew, Bool.false_eq_true, if_false]
      omega
  | packetLostCalculator currentTime =>
    obtain ⟨leastTime, hk, hout, hrec⟩ := lost_flow (fun _ => 1) (max 1) hs
    have hmod := Nat.mod_le ((s.counters n.group.netSim).receiveCount +
      (CommunicationComManager.lost leastTime s.packets).total id) ulongSize
    have hle : (CommunicationComManager.lost leastTime s.packets).total id ≤
        (CommunicationComManager.lost leastTime s.packets).total (max 1) := OrdMap.total_le (fun v => by simp) _
    simp only [drops]
    omega
  | resetCounters i => cases he
  | _ =>
    simp only [Traffic.step] at hs
    split at hs <;> cases hs
    exact le_rfl

/-- A round that finds no difference leaves no room for a message that was dropped. -/
theorem Sound.quiet_of_zero (h : Sound n s) (hfit : s.sentEver < ulongSize) {i : ι} {r : Request ι} {b : Broker ι}
    {out : Replies ι} {pubs : List Broker.Publication} (hr : s.asked i = some r) (hp : s.session.pending i = none)
    (hb : s.session.broker.step i 0 r = .ok (b, out, pubs)) (hz : ∃ j, (j, .diff 0) ∈ out) (hsleep : s.NobodySleeps) :
    Quiet n (s.after i r b out) ∧ (s.after i r b out).sentEver ≤ (s.after i r b out).received n := by
  have hroom := h.room
  have hs : s.step n (.arrive i) = .ok (s.after i r b out) := by simp [Traffic.step, hr, hp, hb]
  have hsound := h.step hs hfit (by intro _ _ he; cases he) (by intro _ he; cases he)
  obtain ⟨j, hj⟩ := hz
  obtain ⟨-, -, ⟨hne, -⟩ | ⟨awake, d, ha, hround⟩⟩ := h.reporting.after hfit (by omega) hr hp hb
  · exact absurd rfl (hne _ hj 0)
  obtain rfl : d = 0 := by simpa using (ha.value _ hj).symm
  have hquiet := hsound.quiet hround fun i hi hia => absurd (hround.asleep i hi hia) (hsleep i)
  refine ⟨hquiet, ?_⟩
  have hsent := hsound.reporting.sent
  have hdiff := hround.diff
  have hunreported : (s.after i r b out).unreportedSends n = 0 :=
    Finset.sum_eq_zero fun i hi => by rw [hquiet.counters i hi]
  simp only [received]
  omega

end Traffic

namespace Delivery

variable {ι : Type} [LinearOrder ι] {n : Network ι} {s s' : Delivery ι} {t : Traffic ι} {i j : ι} {m : Message}
  {o : Outgoing} {e : Event ι}

/-! ## What is in flight -/

omit [LinearOrder ι] in
/-- One summand changes. -/
theorem sum_update_fun [DecidableEq ι] {α M : Type*} [AddCommMonoid M] {A : Finset ι} (hi : i ∈ A) (c : ι → α) (x : α)
    (g : ι → α → M) : ∑ j ∈ A, g j (Function.update c i x j) + g i (c i) = ∑ j ∈ A, g j (c j) + g i x := by
  rw [← Finset.sum_erase_add _ _ hi, ← Finset.sum_erase_add _ (fun j => g j (c j)) hi]
  have hrest : ∑ j ∈ A.erase i, g j (Function.update c i x j) = ∑ j ∈ A.erase i, g j (c j) :=
    Finset.sum_congr rfl fun j hj => by rw [Function.update_of_ne (Finset.ne_of_mem_erase hj)]
  rw [hrest, Function.update_self, add_right_comm]

/-- What the broker has yet to take of `l`, as it will hand it on. -/
def upward (n : Network ι) (l : List Outgoing) : Multiset (Packet ι) := ↑(l.filterMap fun o => (n.address o).map o.packet)

/-- What `j` has yet to take. -/
def downward (j : ι) (l : List (ι × Outgoing)) : Multiset (Packet ι) := ↑(l.map fun e => e.2.packet j)

/-- The messages on the sockets. -/
def packets (n : Network ι) (r : Relay ι ι Outgoing) : Multiset (Packet ι) :=
  ∑ i ∈ n.members, upward n (r.up i) + ∑ j ∈ n.members, downward j (r.down j)

/-- The traffic whose messages in flight are `l`. -/
def flat (s : Delivery ι) (l : List (Packet ι)) : Traffic ι := { s.traffic with inFlight := l }

/-- The messages on the sockets are in flight, and everything else is the same. -/
def Flattens (n : Network ι) (s : Delivery ι) (t : Traffic ι) : Prop :=
  ∃ l : List (Packet ι), t = s.flat l ∧ (l : Multiset (Packet ι)) = packets n s.network

/-- What a traffic does in the place of a step of a delivery. -/
inductive Shows : Event ι → List (Traffic.Event ι) → Prop
  | post (i : ι) (name : String) (m : Message) : Shows (.post i name m) []
  | sendAll (i : ι) : Shows (.sendAll i) []
  | pass (i : ι) (m : Message) : Shows (.pass i) [.send i m]
  | clear (i : ι) : Shows (.clear i) []
  | forward (i : ι) : Shows (.forward i) []
  | deliver (j : ι) (k : ℕ) (currentTime : TIME) : Shows (.deliver j currentTime) [.deliver k currentTime]
  | act (e : Traffic.Event ι) : Shows (.act e) [e]

/-- Two steps of the same kind: the traffic goes from `t` to `t'` by `ls` as the delivery does from `s` to `s'`. It
sends what was sent through the interfaces and drops what the delivery drops. -/
structure Matched (n : Network ι) (s s' : Delivery ι) (t t' : Traffic ι) (ls : List (Traffic.Event ι)) : Prop where
  run : Trace.run (Traffic.step n) t ls = .ok t'
  flattens : Flattens n s' t'
  sends : ∀ i m, .send i m ∈ ls → ∃ name, ∃ e ∈ (s.mail i).sent name, e.1 = m
  dropped : s'.dropped = s.dropped + (ls.map (t.drops n)).sum

section Packets

variable {r : Relay ι ι Outgoing}

theorem packets_empty : packets n (.empty : Relay ι ι Outgoing) = 0 := by
  have hup : ∀ i, upward n ((.empty : Relay ι ι Outgoing).up i) = 0 := fun i => rfl
  have hdown : ∀ j, downward j ((.empty : Relay ι ι Outgoing).down j) = 0 := fun j => rfl
  simp [packets, hup, hdown]

theorem upward_cons {l : List Outgoing} (ho : n.address o = some j) : upward n (o :: l) = {o.packet j} + upward n l := by
  simp [upward, ho]

theorem upward_append {l : List Outgoing} (ho : n.address o = some j) :
    upward n (l ++ [o]) = upward n l + {o.packet j} := by
  simp [upward, ho, ← Multiset.coe_add]

omit [LinearOrder ι] in
theorem downward_cons {l : List (ι × Outgoing)} : downward j ((i, o) :: l) = {o.packet j} + downward j l := by
  simp [downward]

omit [LinearOrder ι] in
theorem downward_append {l : List (ι × Outgoing)} : downward j (l ++ [(i, o)]) = downward j l + {o.packet j} := by
  simp [downward, ← Multiset.coe_add]

theorem packets_send (hi : i ∈ n.members) (ho : n.address o = some j) :
    packets n (r.send i o) = packets n r + {o.packet j} := by
  have hsum := sum_update_fun hi r.up (r.up i ++ [o]) fun _ => upward n
  rw [upward_append ho, ← add_assoc, add_right_comm] at hsum
  have hup : ∑ k ∈ n.members, upward n ((r.send i o).up k) = ∑ k ∈ n.members, upward n (r.up k) + {o.packet j} :=
    add_right_cancel hsum
  have hdown : (r.send i o).down = r.down := rfl
  rw [packets, hup, hdown, packets, add_right_comm]

theorem packets_handDown {rest : List Outgoing} (hi : i ∈ n.members) (hj : j ∈ n.members) (hup : r.up i = o :: rest)
    (ho : n.address o = some j) : packets n (r.handDown i o rest (some j)) = packets n r := by
  have hsum := sum_update_fun hi r.up rest fun _ => upward n
  have hsum' := sum_update_fun hj r.down (r.down j ++ [(i, o)]) downward
  rw [hup, upward_cons ho, ← add_assoc] at hsum
  rw [downward_append, ← add_assoc, add_right_comm] at hsum'
  have h₁ : ∑ k ∈ n.members, upward n ((r.handDown i o rest (some j)).up k) + {o.packet j} =
      ∑ k ∈ n.members, upward n (r.up k) := add_right_cancel hsum
  have h₂ : ∑ k ∈ n.members, downward k ((r.handDown i o rest (some j)).down k) =
      ∑ k ∈ n.members, downward k (r.down k) + {o.packet j} := add_right_cancel hsum'
  rw [packets, h₂, packets, ← h₁, add_assoc, add_comm {o.packet j}]

theorem packets_take {rest : List (ι × Outgoing)} (hj : j ∈ n.members) (hdown : r.down j = (i, o) :: rest) :
    packets n (r.take j rest) + {o.packet j} = packets n r := by
  have hsum := sum_update_fun hj r.down rest downward
  rw [hdown, downward_cons, ← add_assoc] at hsum
  have h : ∑ k ∈ n.members, downward k ((r.take j rest).down k) + {o.packet j} =
      ∑ k ∈ n.members, downward k (r.down k) := add_right_cancel hsum
  have hup : (r.take j rest).up = r.up := rfl
  rw [packets, add_assoc, h, hup, packets]

end Packets

/-! ## Refinement -/

section Refinement

/-- Somebody is there for a message of `i`: the owner of an object, or the net sim. -/
def addressed (n : Network ι) (i : ι) (m : Message) : Bool :=
  (n.address (ZmqNetworkInterface.outgoing (decide (i = n.group.netSim)) m)).isSome

/-- What is sent through an interface is addressed to somebody. -/
def Event.addressed (n : Network ι) : Event ι → Bool
  | .post i _ m => Delivery.addressed n i m
  | _ => true

/-- `P` of everything sent through the interfaces, by its sender. -/
def Posted (P : ι → Message → Bool) (s : Delivery ι) : Prop := ∀ i name, ∀ e ∈ (s.mail i).sent name, P i e.1 = true

/-- The registered objects are those of members. -/
theorem address_mem {b : Broker ι} (h : Trace.run Broker.advance (Broker.init n.group.size)
    (n.group.frames ++ n.objs.map Broker.registerFrame) = .ok b) (ho : n.address o = some j) : j ∈ n.members := by
  obtain ⟨control, message⟩ := o
  cases control with
  | delay =>
    obtain rfl : n.group.netSim = j := Option.some.inj ho
    exact Traffic.mem_members.mpr n.group.netSim_mem
  | route =>
    rw [Network.address, Network.owner_eq h] at ho
    obtain ⟨l, -, hl⟩ := Option.bind_eq_some_iff.mp ho
    rw [HelloGroup.lookup_logical] at hl
    have hmem : j ∈ (OrdSet.ofList n.group.members).dom := List.mem_toFinset.mpr (List.mem_of_getElem? hl)
    simpa [Network.members] using hmem

theorem mem_sent {mailing : Mailing Message} (h : mailing.Accounted) {name : String} {rest : List Message}
    (hflush : mailing.boxes.flush = some (name, m :: rest)) : ∃ e ∈ mailing.sent name, e.1 = m := by
  have hwait : m ∈ mailing.boxes.willSend name := by simp [Outboxes.willSend, hflush]
  have hmem : m ∈ Mailing.onTime (mailing.sent name) := by
    rw [h.equation name]
    exact List.mem_append_right _ hwait
  obtain ⟨e, he, hm⟩ := List.mem_map.mp hmem
  exact ⟨e, (List.mem_filter.mp he).1, hm⟩

/-- A call on the interfaces of `i`. -/
theorem Posted.call {P : ι → Message → Bool} (h : Posted P s) {c : Mailing.Call Message} {mailing : Mailing Message}
    (hm : (s.mail i).step c = .ok mailing) (hc : ∀ name m, c = .send name m → P i m = true)
    (hs : s'.mail = Function.update s.mail i mailing) : Posted P s' := by
  intro j name e he
  rw [hs] at he
  by_cases hj : j = i
  · subst hj
    rw [Function.update_self] at he
    cases c with
    | send name' m =>
      obtain ⟨-, rfl⟩ := Mailing.send_ok.mp hm
      by_cases hn : name = name'
      · subst hn
        simp only [Function.update_self] at he
        rcases List.mem_append.mp he with he | he
        · exact h j name e he
        · rw [List.mem_singleton.mp he]
          exact hc name m rfl
      · simp only [Function.update_of_ne hn] at he
        exact h j name e he
    | sendAll =>
      obtain ⟨-, rfl⟩ := Mailing.sendAll_ok.mp hm
      exact h j name e he
    | next =>
      obtain ⟨_, _, _, -, rfl⟩ := Mailing.next_ok.mp hm
      exact h j name e he
    | clear =>
      obtain ⟨_, -, rfl⟩ := Mailing.clear_ok.mp hm
      exact h j name e he
  · rw [Function.update_of_ne hj] at he
    exact h j name e he

/-- A turn of `sendAll` does not depend on what is on its way. -/
theorem sendTurn_flat (l : List (Packet ι)) : (s.flat l).sendTurn n i m =
    (s.traffic.sendTurn n i m).map fun x => ({ x.1 with inFlight := l }, x.2) := by
  unfold Traffic.sendTurn flat
  by_cases hi : i = n.group.netSim
  · by_cases hb : m.isBroadCast = true
    · simp [hi, hb, Except.map]
    · simp only [hi, hb, if_true]
      cases CommunicationComManager.removeMessageTimeout s.traffic.packets m.timeStamp with
      | mk sent packets => cases sent <;> rfl
  · simp only [hi, if_false]
    rfl

/-- A turn of `sendAll` with the forwarding to come is a send. -/
theorem Flattens.pass (h : Flattens n s t) (hordered : Ordered n s) (hp : Posted (addressed n) s)
    (hi : i ∈ n.group.members) (hasked : s.traffic.asked i = none) (hs : s.pass n i = .ok s') :
    ∃ m t', Matched n s s' t t' [.send i m] := by
  obtain ⟨l, rfl, hl⟩ := h
  obtain ⟨name, m, rest, traffic, o, mailing, hflush, hturn, hnext, rfl⟩ := pass_ok hs
  obtain ⟨e, he, rfl⟩ := mem_sent (hordered.accounted i) hflush
  have haddressed := hp i name e he
  have hstep : (s.flat l).step n (.send i e.1) = (s.flat l).sendOne n i e.1 := if_pos ⟨hi, hasked⟩
  rw [Traffic.sendOne_eq, sendTurn_flat, hturn] at hstep
  have hsends : ∀ j m, Traffic.Event.send j m ∈ [Traffic.Event.send i e.1] → ∃ name, ∃ e ∈ (s.mail j).sent name, e.1 = m := by
    intro j m hm
    obtain ⟨rfl, rfl⟩ := by simpa using hm
    exact ⟨name, e, he, rfl⟩
  have ho : o = none ∨ o = some (ZmqNetworkInterface.outgoing (decide (i = n.group.netSim)) e.1) := by
    obtain ⟨hnet, -, ⟨-, rfl⟩ | ⟨_, -, -, rfl⟩⟩ | ⟨hnet, rfl, -⟩ := sendTurn_ok hturn
    · exact .inl rfl
    · exact .inr (by simp [hnet])
    · exact .inr (by simp [hnet])
  refine ⟨e.1, ?_⟩
  obtain hnone | hsome := ho
  · subst hnone
    exact ⟨_, Trace.run_cons.mpr ⟨_, hstep, rfl⟩, ⟨l, rfl, hl⟩, hsends, rfl⟩
  · subst hsome
    obtain ⟨j, hj⟩ := Option.isSome_iff_exists.mp haddressed
    have hforward : (s.flat l).session.broker.forward (ZmqNetworkInterface.outgoing (decide (i = n.group.netSim)) e.1) =
        .ok (some j) := (hordered.steady.routed.forward _ _).mpr ⟨j, hj, rfl⟩
    simp only [Except.map, hforward] at hstep
    refine ⟨_, Trace.run_cons.mpr ⟨_, hstep, rfl⟩, ⟨_, rfl, ?_⟩, hsends, rfl⟩
    have hsend := packets_send (r := s.network) (Traffic.mem_members.mpr hi) hj
    simp only [Option.elim_some]
    rw [hsend, ← hl]
    rfl

/-- An arrival takes its message out of those in flight. -/
theorem Flattens.deliver (h : Flattens n s t) (hj : j ∈ n.group.members)
    {currentTime : TIME} (hasked : s.traffic.asked j ≠ some .sleep) (hs : s.deliver n j currentTime = .ok s') :
    ∃ k t', Matched n s s' t t' [.deliver k currentTime] := by
  obtain ⟨l, rfl, hl⟩ := h
  obtain ⟨i, o, rest, traffic, hdown, hr, rfl⟩ := deliver_ok hs
  have htake := packets_take (Traffic.mem_members.mpr hj) hdown
  have hmem : o.packet j ∈ l := by
    rw [← Multiset.mem_coe, hl, ← htake]
    simp
  obtain ⟨k, hk⟩ := List.mem_iff_getElem?.mp hmem
  have hstep : (s.flat l).step n (.deliver k currentTime) =
      ({ s.flat l with inFlight := l.eraseIdx k } : Traffic ι).receive n currentTime (o.packet j) := by
    have hdest : ¬ ((o.packet j).dest ∉ n.group.members ∨ (s.flat l).asked (o.packet j).dest = some .sleep) :=
      not_or.mpr ⟨not_not.mpr hj, hasked⟩
    simp only [Traffic.step]
    have hk' : (s.flat l).inFlight[k]? = some (o.packet j) := hk
    rw [hk']
    exact if_neg hdest
  have hflat : ({ s.flat l with inFlight := l.eraseIdx k } : Traffic ι) = { s.traffic with inFlight := l.eraseIdx k } := rfl
  rw [hflat, receive_withInFlight, hr] at hstep
  have hdrops : (s.flat l).drops n (.deliver k currentTime) =
      if tooOld (n.packetLostPeriod j) currentTime o.message then 1 else 0 := by
    have hk' : (s.flat l).inFlight[k]? = some (o.packet j) := hk
    simp only [Traffic.drops, hk']
    rfl
  refine ⟨k, _, Trace.run_cons.mpr ⟨_, hstep, rfl⟩, ⟨l.eraseIdx k, rfl, ?_⟩, by simp, by simp [hdrops]⟩
  obtain ⟨hlt, hget⟩ := List.getElem?_eq_some_iff.mp hk
  have hperm : (↑l : Multiset (Packet ι)) = ↑(l.eraseIdx k) + {o.packet j} := by
    rw [← hget, add_comm, Multiset.singleton_add]
    exact (Multiset.coe_eq_coe.mpr (List.getElem_cons_eraseIdx_perm hlt)).symm
  exact add_right_cancel (hperm.symm.trans (hl.trans htake.symm))

/-- The broker may take a message from a socket at any time. -/
theorem Flattens.forward (h : Flattens n s t) (ho : Ordered n s) (hmem : ∀ o j, n.address o = some j → j ∈ n.members)
    (hi : i ∈ n.members) (hs : s.forward i = .ok s') : Flattens n s' t := by
  obtain ⟨l, rfl, hl⟩ := h
  obtain ⟨o, rest, dest, hup, hdest, rfl⟩ := forward_ok hs
  obtain ⟨j, hj, rfl⟩ := (ho.steady.routed.forward o dest).mp hdest
  exact ⟨l, rfl, hl.trans (packets_handDown hi (hmem o j hj) hup hj).symm⟩

/-- What each step of a delivery is in the traffic. -/
theorem Flattens.step (h : Flattens n s t) (ho : Ordered n s) (hp : Posted (addressed n) s)
    (hmem : ∀ o j, n.address o = some j → j ∈ n.members) (hs : s.step n e = .ok s') :
    ∃ ls t', Shows e ls ∧ Matched n s s' t t' ls := by
  have hstay (hflat : Flattens n s' t) (hdropped : s'.dropped = s.dropped) : Matched n s s' t t [] :=
    ⟨rfl, hflat, nofun, hdropped⟩
  have hcall {c : Mailing.Call Message} {i : ι} (hs : s.call i c = .ok s') : Matched n s s' t t [] := by
    obtain ⟨mailing, -, rfl⟩ := call_ok.mp hs
    exact hstay h rfl
  cases e with
  | post i name m => exact ⟨[], t, .post .., hcall hs⟩
  | sendAll i =>
    simp only [Delivery.step] at hs
    split at hs
    · exact ⟨[], t, .sendAll i, hcall hs⟩
    · cases hs
  | pass i =>
    simp only [Delivery.step] at hs
    split at hs
    · next hi =>
      obtain ⟨m, t', hmatched⟩ := h.pass ho hp hi.1 hi.2 hs
      exact ⟨_, t', .pass i m, hmatched⟩
    · cases hs
  | clear i =>
    simp only [Delivery.step] at hs
    split at hs
    · exact ⟨[], t, .clear i, hcall hs⟩
    · cases hs
  | forward i =>
    simp only [Delivery.step] at hs
    split at hs
    · next hi =>
      have hflat := h.forward ho hmem (Traffic.mem_members.mpr hi) hs
      obtain ⟨_, _, _, -, -, rfl⟩ := forward_ok hs
      exact ⟨[], t, .forward i, hstay hflat rfl⟩
    · cases hs
  | deliver j currentTime =>
    simp only [Delivery.step] at hs
    split at hs
    · next hj =>
      obtain ⟨k, t', hmatched⟩ := h.deliver hj.1 hj.2 hs
      exact ⟨_, t', .deliver j k currentTime, hmatched⟩
    · cases hs
  | act e =>
    obtain ⟨hsend, hdeliver, -, traffic, ht, rfl⟩ := act_ok hs
    obtain ⟨l, rfl, hl⟩ := h
    have hstep : (s.flat l).step n e = .ok { traffic with inFlight := l } := by
      rw [flat, step_withInFlight s.traffic l hsend hdeliver, ht]
      rfl
    have hdrops : (s.flat l).drops n e = 0 := by
      cases e with
      | deliver k currentTime => exact absurd rfl (hdeliver k currentTime)
      | _ => rfl
    refine ⟨[e], _, .act e, Trace.run_cons.mpr ⟨_, hstep, rfl⟩, ⟨l, rfl, hl⟩, fun i m hm => ?_, by simp [hdrops]⟩
    exact absurd (List.mem_singleton.mp hm).symm (hsend i m)

theorem Posted.step {P : ι → Message → Bool} (h : Posted P s) (he : ∀ i name m, e = .post i name m → P i m = true)
    (hs : s.step n e = .ok s') : Posted P s' := by
  have hcall {c : Mailing.Call Message} {i : ι} (hs : s.call i c = .ok s')
      (hc : ∀ name m, c = .send name m → P i m = true) : Posted P s' := by
    obtain ⟨mailing, hm, rfl⟩ := call_ok.mp hs
    exact h.call hm hc rfl
  cases e with
  | post i name m =>
    refine hcall hs ?_
    intro name' m' hc
    cases hc
    exact he i name m rfl
  | sendAll i =>
    simp only [Delivery.step] at hs
    split at hs
    · exact hcall hs (by intro _ _ hc; cases hc)
    · cases hs
  | pass i =>
    simp only [Delivery.step] at hs
    split at hs
    · obtain ⟨_, _, _, _, _, mailing, -, -, hnext, rfl⟩ := pass_ok hs
      exact h.call hnext (by intro _ _ hc; cases hc) rfl
    · cases hs
  | clear i =>
    simp only [Delivery.step] at hs
    split at hs
    · exact hcall hs (by intro _ _ hc; cases hc)
    · cases hs
  | forward i =>
    simp only [Delivery.step] at hs
    split at hs
    · obtain ⟨_, _, _, -, -, rfl⟩ := forward_ok hs
      exact h
    · cases hs
  | deliver j currentTime =>
    simp only [Delivery.step] at hs
    split at hs
    · obtain ⟨_, _, _, _, -, -, rfl⟩ := deliver_ok hs
      exact h
    · cases hs
  | act e =>
    obtain ⟨-, -, -, _, -, rfl⟩ := act_ok hs
    exact h

/-- Every run of a delivery, whose messages are addressed to objects there are, is one of the traffic: with a send for
each turn of `sendAll` and an arrival for each arrival, the same calls in the same order, and the same counters, ledger
and broker at the end. -/
theorem delivery_refines (n : Network ι) {b : Broker ι} {es : List (Event ι)}
    (hstart : Trace.run Broker.advance (Broker.init n.group.size)
      (n.group.frames ++ n.objs.map Broker.registerFrame) = .ok b)
    (haddressed : ∀ e ∈ es, e.addressed n = true) (hrun : Trace.run (step n) (start n b) es = .ok s) :
    ∃ ess t, List.Forall₂ Shows es ess ∧ Trace.run (Traffic.step n) (.start b) ess.flatten = .ok t ∧ Flattens n s t := by
  have hmem : ∀ o j, n.address o = some j → j ∈ n.members := fun o j ho => address_mem hstart ho
  have hstep : ∀ (s : Delivery ι) e s' (t : Traffic ι), (Ordered n s ∧ Posted (addressed n) s ∧ Flattens n s t) →
      e.addressed n = true → s.step n e = .ok s' → ∃ ls t', Shows e ls ∧ Trace.run (Traffic.step n) t ls = .ok t' ∧
        Ordered n s' ∧ Posted (addressed n) s' ∧ Flattens n s' t' := by
    intro s e s' t ⟨ho, hp, hflat⟩ he hs
    obtain ⟨ls, t', hshows, hmatched⟩ := hflat.step ho hp hmem hs
    refine ⟨ls, t', hshows, hmatched.run, ho.step hs, hp.step ?_ hs, hmatched.flattens⟩
    intro i name m h
    subst h
    exact he
  have hinit : Ordered n (start n b) ∧ Posted (addressed n) (start n b) ∧ Flattens n (start n b) (.start b) :=
    ⟨.start (.start hstart), fun i name e he => by (cases he), [], rfl, packets_empty.symm⟩
  obtain ⟨ess, t, hshows, ht, -, -, hflat⟩ :=
    Trace.run_refines hstep hinit (Trace.guarded_of_forall haddressed) hrun
  exact ⟨ess, t, hshows, ht, hflat⟩

theorem delivery_refines_mixed : ∃ b s ess t,
    Trace.run Broker.advance (Broker.init 4) (Broker.fourMembers.frames ++
      Traffic.fourObjects.objs.map Broker.registerFrame) = .ok b ∧
    Trace.run (step Traffic.fourObjects) (start Traffic.fourObjects b) mixedDelivery = .ok s ∧
    List.Forall₂ Shows mixedDelivery ess ∧ Trace.run (Traffic.step Traffic.fourObjects) (.start b) ess.flatten = .ok t ∧
    Flattens Traffic.fourObjects s t := by
  obtain ⟨b, hb, hcheck⟩ := Trace.exists_run_of_check Broker.advance (Broker.init 4)
    (Broker.fourMembers.frames ++ Traffic.fourObjects.objs.map Broker.registerFrame)
    (fun b => Trace.endsIn (fun _ => true) (Trace.run (step Traffic.fourObjects) (start Traffic.fourObjects b)
      mixedDelivery)) (by decide +kernel)
  obtain ⟨s, hs, -⟩ := Trace.exists_run_of_check (step Traffic.fourObjects) (start Traffic.fourObjects b)
    mixedDelivery _ hcheck
  obtain ⟨ess, t, h⟩ := delivery_refines Traffic.fourObjects hb (by decide) hs
  exact ⟨b, s, ess, t, hb, hs, h⟩

end Refinement

/-! ## A difference of 0 -/

section Quiescence

/-- What the simulators of the lockstep algorithms do, with unicast messages to objects there are. -/
def Event.lockstep (n : Network ι) : Event ι → Bool
  | .post i _ m => !m.isBroadCast && Delivery.addressed n i m
  | .act e => e.lockstep
  | _ => true

/-- A delivery of the lockstep algorithms, as a traffic. -/
structure InLockstep (n : Network ι) (s : Delivery ι) (t : Traffic ι) : Prop where
  ordered : Ordered n s
  posted : Posted (fun i m => !m.isBroadCast && addressed n i m) s
  flattens : Flattens n s t
  sound : t.Sound n
  awake : t.NobodySleeps
  flow : t.received n + t.outstanding (fun _ => 1) (max 1) + s.dropped ≤ t.sentEver

theorem Posted.mono {P Q : ι → Message → Bool} (h : Posted P s) (hpq : ∀ i m, P i m = true → Q i m = true) : Posted Q s :=
  fun i name e he => hpq i e.1 (h i name e he)

theorem InLockstep.step (h : InLockstep n s t) (hmem : ∀ o j, n.address o = some j → j ∈ n.members)
    (he : e.lockstep n = true) (hs : s.step n e = .ok s') (hfit : s'.traffic.sentEver < ulongSize) :
    ∃ t', InLockstep n s' t' := by
  have haddressed : Posted (addressed n) s := h.posted.mono fun i m hm => (Bool.and_eq_true_iff.mp hm).2
  obtain ⟨ls, t', hshows, hrun, hflat, hsends, hdropped⟩ := h.flattens.step h.ordered haddressed hmem hs
  have hposted := h.posted.step (fun i name m hpost => by subst hpost; exact he) hs
  have hfit' : t'.sentEver < ulongSize := by
    obtain ⟨l, rfl, -⟩ := hflat
    exact hfit
  have hstay (ht : t' = t) (hd : s'.dropped = s.dropped) : ∃ t', InLockstep n s' t' :=
    ⟨t, h.ordered.step hs, hposted, ht ▸ hflat, h.sound, h.awake, hd ▸ h.flow⟩
  have hmove {l : Traffic.Event ι} (ht : t.step n l = .ok t') (hl : l.lockstep = true)
      (hd : s'.dropped = s.dropped + t.drops n l) : ∃ t', InLockstep n s' t' := by
    have hfit₀ : t.sentEver < ulongSize := (Traffic.sentEver_le ht).trans_lt hfit'
    refine ⟨t', h.ordered.step hs, hposted, hflat, h.sound.step ht hfit' ?_ ?_, h.awake.step hl ht, ?_⟩
    · intro i m hm
      subst hm
      simpa [Traffic.Event.lockstep] using hl
    · intro i hi
      subst hi
      cases hl
    · have hflow := h.flow
      have hdrops := h.sound.flow_drops hfit₀ ht hl
      omega
  cases hshows with
  | post | sendAll | clear | forward => exact hstay (Except.ok.inj hrun).symm hdropped
  | pass i m =>
    obtain ⟨_, ht, hr⟩ := Trace.run_cons.mp hrun
    obtain rfl := Except.ok.inj hr
    obtain ⟨name, x, hx, rfl⟩ := hsends i m List.mem_cons_self
    refine hmove ht ?_ (by simpa using hdropped)
    exact (Bool.and_eq_true_iff.mp (h.posted i name x hx)).1
  | deliver j k currentTime =>
    obtain ⟨_, ht, hr⟩ := Trace.run_cons.mp hrun
    obtain rfl := Except.ok.inj hr
    exact hmove ht rfl (by simpa using hdropped)
  | act e =>
    obtain ⟨_, ht, hr⟩ := Trace.run_cons.mp hrun
    obtain rfl := Except.ok.inj hr
    exact hmove ht he (by simpa using hdropped)

/-- Everything `sendAll` has come to is where it is to go: with the manager of its addressee, in the order in which
it was passed on. None of it was dropped, and nothing is held or to be reported. -/
structure Quiescent (n : Network ι) (s : Delivery ι) : Prop where
  reached : ∀ i ∈ n.members, i ≠ n.group.netSim → ∀ j,
    (s.passedOn n i).filter (fun o => n.address o = some j) = s.reachedFrom i j
  forwarded : ∀ j, (s.wentOut n.group.netSim).filter (fun o => n.address o = some j) = s.reachedFrom n.group.netSim j
  dropped : s.dropped = 0
  packets : s.traffic.packets = ∅
  counters : ∀ i ∈ n.members, s.traffic.counters i = ⟨0, 0⟩

/-- Nothing is on its way when the sockets are empty. -/
theorem onWay_nil (hpackets : packets n s.network = 0) (hi : i ∈ n.members) (hj : j ∈ n.members) :
    s.onWay n i j = [] := by
  obtain ⟨hups, hdowns⟩ := add_eq_zero.mp hpackets
  have hup : (s.network.up i).filterMap (fun o => (n.address o).map o.packet) = [] :=
    Multiset.coe_eq_zero _ |>.mp (Finset.sum_eq_zero_iff.mp hups i hi)
  have hdown : s.network.down j = [] :=
    List.map_eq_nil_iff.mp (Multiset.coe_eq_zero _ |>.mp (Finset.sum_eq_zero_iff.mp hdowns j hj))
  have hfilter : (s.network.up i).filter (fun o => n.address o = some j) = [] := by
    refine List.filter_eq_nil_iff.mpr fun o ho haddress => ?_
    have hnone := List.filterMap_eq_nil_iff.mp hup o ho
    simp [of_decide_eq_true haddress] at hnone
  rw [onWay, Relay.between, hdown, hfilter]
  rfl

/-- What has gone out is where it is to go when the sockets are empty. -/
theorem Ordered.reached (h : Ordered n s) (hmem : ∀ o j, n.address o = some j → j ∈ n.members)
    (hpackets : packets n s.network = 0) (hi : i ∈ n.members) (j : ι) :
    (s.wentOut i).filter (fun o => n.address o = some j) = s.reachedFrom i j := by
  have hpath := h.path i j
  by_cases hj : j ∈ n.members
  · rwa [onWay_nil hpackets hi hj, List.append_nil] at hpath
  · have hnone : (s.wentOut i).filter (fun o => n.address o = some j) = [] :=
      List.filter_eq_nil_iff.mpr fun o _ ho => hj (hmem o j (of_decide_eq_true ho))
    rw [hnone] at hpath ⊢
    exact (List.append_eq_nil_iff.mp hpath.symm).1.symm

theorem InLockstep.start {b : Broker ι} (hstart : Trace.run Broker.advance (Broker.init n.group.size)
    (n.group.frames ++ n.objs.map Broker.registerFrame) = .ok b) : InLockstep n (start n b) (.start b) where
  ordered := .start (.start hstart)
  posted i name e he := by cases he
  flattens := ⟨[], rfl, packets_empty.symm⟩
  sound := .start (Broker.registered_of_run hstart)
  awake := nofun
  flow := by
    rw [Traffic.received_start]
    simp [Traffic.outstanding, Traffic.start, Delivery.start]

theorem sentEver_le (hs : s.step n e = .ok s') : s.traffic.sentEver ≤ s'.traffic.sentEver := by
  have hcall {c : Mailing.Call Message} {i : ι} (hs : s.call i c = .ok s') :
      s.traffic.sentEver ≤ s'.traffic.sentEver := by
    obtain ⟨_, -, rfl⟩ := call_ok.mp hs
    exact le_rfl
  cases e with
  | post i name m => exact hcall hs
  | sendAll i =>
    simp only [Delivery.step] at hs
    split at hs
    · exact hcall hs
    · cases hs
  | pass i =>
    simp only [Delivery.step] at hs
    split at hs
    · obtain ⟨_, _, _, _, _, _, -, hturn, -, rfl⟩ := pass_ok hs
      obtain ⟨-, -, ⟨rfl, -⟩ | ⟨_, -, rfl, -⟩⟩ | ⟨-, -, rfl⟩ := sendTurn_ok hturn
      · exact le_rfl
      · exact le_rfl
      · exact Nat.le_add_right _ _
    · cases hs
  | clear i =>
    simp only [Delivery.step] at hs
    split at hs
    · exact hcall hs
    · cases hs
  | forward i =>
    simp only [Delivery.step] at hs
    split at hs
    · obtain ⟨_, _, _, -, -, rfl⟩ := forward_ok hs
      exact le_rfl
    · cases hs
  | deliver j currentTime =>
    simp only [Delivery.step] at hs
    split at hs
    · obtain ⟨_, _, _, _, -, hr, rfl⟩ := deliver_ok hs
      exact (congrArg Traffic.sentEver (receive_ok hr)).ge
    · cases hs
  | act e =>
    obtain ⟨-, -, -, _, ht, rfl⟩ := act_ok hs
    exact Traffic.sentEver_le ht

/-- With the lockstep algorithms, when the broker answers REDUCE_SEND_RECV with 0, whatever `sendAll` has come to
until then has reached the manager it is for, however the sockets are read, as long as fewer than 2^64 messages
have been sent, all of them unicast messages to objects there are. -/
theorem zero_quiescent (n : Network ι) {b : Broker ι} {es : List (Event ι)}
    (hstart : Trace.run Broker.advance (Broker.init n.group.size)
      (n.group.frames ++ n.objs.map Broker.registerFrame) = .ok b)
    (hlock : ∀ e ∈ es, e.lockstep n = true) (hrun : Trace.run (step n) (start n b) es = .ok s)
    (hfit : s.traffic.sentEver < ulongSize) {r : Request ι} {b' : Broker ι} {out : Replies ι}
    {pubs : List Broker.Publication} (hr : s.traffic.asked i = some r) (hp : s.traffic.session.pending i = none)
    (hb : s.traffic.session.broker.step i 0 r = .ok (b', out, pubs)) (hz : ∃ j, (j, .diff 0) ∈ out) :
    Quiescent n { s with traffic := s.traffic.after i r b' out } := by
  have hmem : ∀ o j, n.address o = some j → j ∈ n.members := fun o j ho => address_mem hstart ho
  have key : ∀ (es : List (Event ι)) (s₀ : Delivery ι), (∀ e ∈ es, e.lockstep n = true) → (∃ t, InLockstep n s₀ t) →
      Trace.run (step n) s₀ es = .ok s → ∃ t, InLockstep n s t := by
    intro es
    induction es with
    | nil =>
      intro s₀ _ h hr
      cases hr
      exact h
    | cons e es ih =>
      intro s₀ hes ⟨t, h⟩ hr
      obtain ⟨s₁, hs, hr⟩ := Trace.run_cons.mp hr
      have hfit₁ : s₁.traffic.sentEver < ulongSize :=
        (Trace.run_invariant (I := fun s => s₁.traffic.sentEver ≤ s.traffic.sentEver)
          (fun _ _ _ h hs => h.trans (sentEver_le hs)) le_rfl hr).trans_lt hfit
      exact ih s₁ (fun e he => hes e (List.mem_cons_of_mem _ he)) (h.step hmem (hes e List.mem_cons_self) hs hfit₁) hr
  obtain ⟨t, h⟩ := key es (start n b) hlock ⟨_, .start hstart⟩ hrun
  obtain ⟨l, rfl, hl⟩ := h.flattens
  obtain ⟨⟨hflight, hpackets, hcounters⟩, hsent⟩ := h.sound.quiet_of_zero hfit hr hp hb hz h.awake
  have hsockets : packets n s.network = 0 := by
    rw [← hl, show l = [] from hflight]
    rfl
  have hreached := fun i hi j => h.ordered.reached hmem hsockets (i := i) hi j
  have hdropped : s.dropped = 0 := by
    have hstep : (s.flat l).step n (.arrive i) = .ok ((s.flat l).after i r b' out) := by
      simp only [Traffic.step]
      rw [show (s.flat l).asked i = some r from hr]
      simp only [show (s.flat l).session.pending i = none from hp]
      rw [show (s.flat l).session.broker.step i 0 r = .ok (b', out, pubs) from hb]
      rfl
    have hflow := h.flow
    have hdrops := h.sound.flow_drops hfit hstep rfl
    omega
  refine ⟨fun i hi hne j => ?_, fun j => hreached _ (Traffic.mem_members.mpr n.group.netSim_mem) j, hdropped, hpackets,
    hcounters⟩
  have := hreached i hi j
  rwa [(h.ordered.letOut i).2 hne] at this

/-- A message through the net sim and one past it, and then everybody reports. -/
def settledDelivery : List (Event ℕ) :=
  List.flatten [
    [.post 0 "a" ⟨"a", "b", 1, true⟩, .post 0 "a" ⟨"a", "c", 1, false⟩, .sendAll 0, .pass 0, .pass 0, .clear 0],
    [.forward 0, .forward 0, .deliver 3 1, .deliver 2 1],
    [.post 3 "a" ⟨"a", "b", 1, true⟩, .sendAll 3, .pass 3, .clear 3, .clear 3, .clear 3, .forward 3, .deliver 1 2],
    [.act (.reduceTotalSendReceive 0), .act (.reduceTotalSendReceive 1), .act (.reduceTotalSendReceive 2)],
    [.act (.reduceTotalSendReceive 3), .act (.arrive 0), .act (.arrive 1), .act (.arrive 2)]]

/-- The answer to the next report is 0. -/
def zeroNext (s : Delivery ℕ) : Bool :=
  s.traffic.asked 3 == some (.reduceSendRecv 0 0) && (s.traffic.session.pending 3).isNone && s.traffic.sentEver == 2 &&
    match s.traffic.session.broker.step 3 0 (.reduceSendRecv 0 0) with
    | .ok (_, out, _) => decide ((3, .diff 0) ∈ out)
    | .error _ => false

theorem zero_quiescent_settled : ∃ b s b' out pubs,
    Trace.run Broker.advance (Broker.init 4) (Broker.fourMembers.frames ++
      Traffic.fourObjects.objs.map Broker.registerFrame) = .ok b ∧
    Trace.run (step Traffic.fourObjects) (start Traffic.fourObjects b) settledDelivery = .ok s ∧
    s.traffic.session.broker.step 3 0 (.reduceSendRecv 0 0) = .ok (b', out, pubs) ∧
    Quiescent Traffic.fourObjects { s with traffic := s.traffic.after 3 (.reduceSendRecv 0 0) b' out } := by
  obtain ⟨b, hb, hcheck⟩ := Trace.exists_run_of_check Broker.advance (Broker.init 4)
    (Broker.fourMembers.frames ++ Traffic.fourObjects.objs.map Broker.registerFrame)
    (fun b => Trace.endsIn zeroNext (Trace.run (step Traffic.fourObjects) (start Traffic.fourObjects b) settledDelivery))
    (by decide +kernel)
  obtain ⟨s, hs, hzero⟩ := Trace.exists_run_of_check (step Traffic.fourObjects) (start Traffic.fourObjects b)
    settledDelivery _ hcheck
  simp only [zeroNext, Bool.and_eq_true, beq_iff_eq, Option.isNone_iff_eq_none] at hzero
  obtain ⟨⟨⟨hr, hp⟩, hsent⟩, hout⟩ := hzero
  cases hstep : s.traffic.session.broker.step 3 0 (.reduceSendRecv 0 0) with
  | error e =>
    rw [hstep] at hout
    cases hout
  | ok x =>
    obtain ⟨b', out, pubs⟩ := x
    rw [hstep] at hout
    exact ⟨b, s, b', out, pubs, hb, hs, hstep, zero_quiescent Traffic.fourObjects hb (by decide) hs
      (by rw [hsent]; decide) hr hp hstep ⟨3, of_decide_eq_true hout⟩⟩

end Quiescence

end Delivery

end Fncs

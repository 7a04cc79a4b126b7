/-
Completeness of the message difference: as long as no message is discarded on
arrival, everything ever sent is received or outstanding, each exactly once.
A discarded message is neither, and stays in the difference for ever.
-/
import Fncs.Sync.Difference

namespace Fncs.Traffic

open Broker Pending

variable {ι : Type} [LinearOrder ι] {n : Network ι} {s s' : Traffic ι} {i : ι}

/-- Nothing is lost track of: a message is not too old when it arrives, what is
counted fits the counters' types, what is forwarded has a token, and what is
reset is 0. -/
def Conserving (n : Network ι) (s : Traffic ι) : Event ι → Prop
  | .send i m =>
    if i = n.group.netSim then s.packets.lookup m.timeStamp ≠ some 0
    else s.sentEver + n.copies m < ulongSize ∧
      (m.isBroadCast = true → 0 < n.globalObjectCount ∧ n.globalObjectCount ≤ 2 ^ 31)
  | .deliver k currentTime => ∀ p ∈ s.inFlight[k]?,
    tooOld (n.packetLostPeriod p.dest) currentTime p.message = false ∧
      (p.dest = n.group.netSim → (s.packets.lookup p.message.timeStamp).getD 0 + n.copies p.message < uintSize)
  | .resetCounters i => s.counters i = ⟨0, 0⟩
  | _ => True

instance (n : Network ι) (s : Traffic ι) : (e : Event ι) → Decidable (Conserving n s e)
  | .send i m => inferInstanceAs (Decidable (if i = n.group.netSim then s.packets.lookup m.timeStamp ≠ some 0
    else s.sentEver + n.copies m < ulongSize ∧
      (m.isBroadCast = true → 0 < n.globalObjectCount ∧ n.globalObjectCount ≤ 2 ^ 31)))
  | .deliver k currentTime => inferInstanceAs (Decidable (∀ p ∈ s.inFlight[k]?,
    tooOld (n.packetLostPeriod p.dest) currentTime p.message = false ∧
      (p.dest = n.group.netSim → (s.packets.lookup p.message.timeStamp).getD 0 + n.copies p.message < uintSize)))
  | .resetCounters i => inferInstanceAs (Decidable (s.counters i = ⟨0, 0⟩))
  | .reduceTotalSendReceive _ | .request _ _ | .arrive _ | .packetLostCalculator _ => isTrue trivial

/-- Everything ever sent is received or outstanding, each exactly once. -/
structure Balanced (n : Network ι) (s : Traffic ι) : Prop where
  reporting : Reporting n s
  flow : s.received n + s.outstanding n.copies id = s.sentEver
  fits : s.sentEver < ulongSize

/-- The broker's difference, corrected by what is not reported, is the number
of messages in flight and of tokens held. -/
structure Accounted (n : Network ι) (s : Traffic ι) : Prop where
  equation : ∀ c ∈ s.session.broker.ctxs, (c.reduceSentTotal : ℤ) - c.reduceRecvTotal +
    s.unreportedSends n - s.unreportedReceipts n = s.outstanding n.copies id
  settled : s.inFlight = [] → s.packets = ∅ → (∀ i ∈ n.members, s.counters i = ⟨0, 0⟩) →
    ∀ c ∈ s.session.broker.ctxs, c.reduceSentTotal = c.reduceRecvTotal

section Balanced

variable {e : Event ι}

theorem Balanced.room (h : Balanced n s) : s.received n + s.outstanding single id ≤ s.sentEver := by
  have hw : (s.inFlight.map fun p => single p.message).sum ≤ (s.inFlight.map fun p => n.copies p.message).sum :=
    List.sum_le_sum fun p _ => by unfold single Network.copies; split <;> omega
  have := h.flow
  simp only [outstanding] at this ⊢
  omega

theorem Balanced.flow_step (h : Balanced n s) (hs : s.step n e = .ok s') (hc : s.Conserving n e) :
    s'.received n + s'.outstanding n.copies id = s'.sentEver := by
  have hflow := h.flow
  have hroom := h.room
  have hfit := h.fits
  cases e with
  | send i m =>
    rcases send_flow h.reporting n.copies id hs with rfl | ⟨hrec, ⟨hin, hb, hk, hr, hout⟩ | ⟨-, hk, hout⟩⟩
    · exact hflow
    · have hpos : s.packets.lookup m.timeStamp ≠ some 0 := by simpa [Conserving, hin] using hc
      have := CommunicationComManager.total_removeMessageTimeout (f := id) (fun v hv => by
        have hv0 : v ≠ 0 := fun h0 => hpos (h0 ▸ hv)
        simp only [id_eq]
        split <;> omega) hr
      have h1 : n.copies m = 1 := by simp [Network.copies, hb]
      omega
    · omega
  | arrive i =>
    obtain ⟨r, b, out, pubs, hr, hp, hb, rfl⟩ := arrive_ok hs
    rw [(h.reporting.after hfit (by omega) hr hp hb).2.1]
    exact hflow
  | deliver k currentTime =>
    obtain ⟨p, hp, hk, hout, hcase⟩ := deliver_flow n.copies id hs
    obtain ⟨hnew, hfits⟩ := hc p hp
    obtain ⟨hold, -⟩ | ⟨-, hin, hfrom, hrec, hpk⟩ | ⟨-, hm, hb, hpk, hrec⟩ := hcase
    · cases hold.symm.trans hnew
    · have hlen : (n.interfaces p.dest).length = n.globalObjectCount := by rw [hin, Network.globalObjectCount]
      have htotal := CommunicationComManager.total_addMessageTimeout (t := p.message.timeStamp)
        (b := p.message.isBroadCast) (fun _ => List.length_pos_of_mem hfrom) (by rw [hlen]; exact hfits hin)
      rw [← hpk, hlen, ← Network.copies] at htotal
      omega
    · have hrl := receiveCount_room (s := s) hm (by omega)
      have hw := mem_weight single (List.mem_of_getElem? hp)
      rw [single, if_neg (by simp [hb])] at hw
      rw [hpk] at hout
      have hmod : ((s.counters p.dest).receiveCount + 1) % ulongSize = (s.counters p.dest).receiveCount + 1 :=
        Nat.mod_eq_of_lt (by omega)
      have h1 : n.copies p.message = 1 := by simp [Network.copies, hb]
      omega
  | packetLostCalculator currentTime =>
    obtain ⟨leastTime, hk, hout, hrec⟩ := lost_flow n.copies id hs
    have hrl := receiveCount_room (s := s) n.group.netSim_mem (by omega)
    have hlost := total_lost id leastTime s.packets
    have hmod : ((s.counters n.group.netSim).receiveCount +
        (CommunicationComManager.lost leastTime s.packets).total id) % ulongSize =
        (s.counters n.group.netSim).receiveCount + (CommunicationComManager.lost leastTime s.packets).total id :=
      Nat.mod_eq_of_lt (by omega)
    omega
  | resetCounters i =>
    obtain ⟨hk, hout, hrec⟩ := reset_flow n.copies id hs
    rw [show s.counters i = ⟨0, 0⟩ from hc] at hrec
    simp only at hrec
    omega
  | _ =>
    simp only [Traffic.step] at hs
    split at hs <;> cases hs
    exact hflow

theorem Balanced.step (h : Balanced n s) (hc : s.Conserving n e) (hs : s.step n e = .ok s') : Balanced n s' := by
  have hfit : s'.sentEver < ulongSize := by
    cases e with
    | send i m =>
      obtain ⟨-, -, ⟨-, -, rfl⟩ | ⟨_, _, -, -, -, -, rfl⟩ | ⟨_, hin, -, rfl⟩⟩ := send_ok hs
      · exact h.fits
      · exact h.fits
      · simp only [Conserving, if_neg hin] at hc
        exact hc.1
    | arrive i =>
      obtain ⟨r, b, out, pubs, -, -, -, rfl⟩ := arrive_ok hs
      exact h.fits
    | deliver k currentTime =>
      obtain ⟨p, -, -, -, ⟨-, rfl⟩ | ⟨-, -, -, rfl⟩ | ⟨-, -, -, rfl⟩⟩ := deliver_ok hs <;> exact h.fits
    | _ =>
      simp only [Traffic.step] at hs
      split at hs <;> cases hs
      exact h.fits
  refine ⟨h.reporting.step h.fits (h.room.trans_lt h.fits) hs hfit ?_, h.flow_step hs hc, hfit⟩
  cases e with
  | send i m =>
    intro hin hb
    simp only [Conserving, if_neg hin] at hc
    exact hc.2 hb
  | resetCounters i => exact hc
  | _ => trivial

theorem Balanced.accounted (h : Balanced n s) : Accounted n s := by
  have heq : ∀ c ∈ s.session.broker.ctxs, (c.reduceSentTotal : ℤ) - c.reduceRecvTotal +
      s.unreportedSends n - s.unreportedReceipts n = s.outstanding n.copies id := by
    intro c hc
    obtain ⟨-, c', hctx, hag⟩ := h.reporting.agrees
    obtain rfl : c = c' := by simpa [hctx] using hc
    have hsent := h.reporting.sent
    have hflow := h.flow
    have hfit := h.fits
    simp only [received] at hflow
    rw [hag.sentTotal, hag.recvTotal, Nat.mod_eq_of_lt (by omega), Nat.mod_eq_of_lt (by omega)]
    omega
  refine ⟨heq, fun hin hpk hcount c hc => ?_⟩
  have h1 : s.unreportedSends n = 0 := Finset.sum_eq_zero fun i hi => by rw [hcount i hi]
  have h2 : s.unreportedReceipts n = 0 := Finset.sum_eq_zero fun i hi => by rw [hcount i hi]
  have := heq c hc
  simp only [h1, h2, outstanding, hin, hpk, List.map_nil, List.sum_nil, OrdMap.total_empty] at this
  omega

theorem Balanced.start {b : Broker ι} (h : Registered n.group n.objs b) : Balanced n (start b) where
  reporting := .start h
  flow := by rw [received_start]; simp [outstanding, Traffic.start]
  fits := (by decide : 0 < ulongSize)

end Balanced

/-- The difference is complete in every state of a run that loses track of nothing. -/
theorem message_difference_complete (n : Network ι) {b : Broker ι} (es : List (Event ι))
    (hstart : Trace.run advance (init n.group.size) (n.group.frames ++ n.objs.map registerFrame) = .ok b)
    (hg : Trace.Guarded (step n) (Conserving n) (start b) es) :
    Trace.Always (step n) (Accounted n) (start b) es :=
  (Trace.always_of_guarded (I := Balanced n) (fun _ _ _ h hc hs => h.step hc hs)
    (.start (registered_of_run hstart)) hg).imp fun _ h => h.accounted

/-- A broadcast to the two other simulators, of which the net sim loses one copy,
and a message that bypasses the net sim. -/
def conservingRun : List (Event ℕ) :=
  [.send 0 ⟨"a", "*", 1, true⟩, .send 2 ⟨"c", "a", 1, false⟩, .deliver 0 1, .deliver 0 1, .send 3 ⟨"a", "b", 1, true⟩,
    .packetLostCalculator 102, .deliver 0 3].append everybodyReports

theorem message_difference_complete_four : ∃ b s,
    Trace.run advance (init 4) (fourMembers.frames ++ fourObjects.objs.map registerFrame) = .ok b ∧
    Trace.run (step fourObjects) (start b) conservingRun = .ok s ∧ s.session.sentSum = 3 ∧ s.session.recvSum = 3 ∧
    Trace.Always (step fourObjects) (Accounted fourObjects) (start b) conservingRun := by
  obtain ⟨b, hb, hcheck⟩ := Trace.exists_run_of_check advance (init 4)
    (fourMembers.frames ++ fourObjects.objs.map registerFrame)
    (fun b => Trace.endsIn (fun s => s.session.sentSum == 3 && s.session.recvSum == 3)
      (Trace.run (step fourObjects) (start b) conservingRun) &&
      decide (Trace.Guarded (step fourObjects) (Conserving fourObjects) (start b) conservingRun)) (by decide +kernel)
  simp only [Bool.and_eq_true, decide_eq_true_eq] at hcheck
  obtain ⟨s, hs, hsum⟩ := Trace.exists_run_of_check (step fourObjects) (start b) conservingRun
    (fun s => s.session.sentSum == 3 && s.session.recvSum == 3) hcheck.1
  simp only [Bool.and_eq_true, beq_iff_eq] at hsum
  exact ⟨b, s, hb, hs, hsum.1, hsum.2, message_difference_complete fourObjects conservingRun hb hcheck.2⟩

/-- The net sim forwards a message of time 1 to simulator 1, whose clock shows 10 and which keeps
messages for 5. -/
def discardingRun : List (Event ℕ) :=
  [[.send 0 ⟨"a", "b", 1, true⟩, .deliver 0 1], everybodyReports,
    [.send 3 ⟨"a", "b", 1, true⟩, .deliver 0 10], everybodyReports].flatten

/-- Nothing is outstanding and nothing unreported, but the totals of the broker differ. -/
def differs (s : Traffic ℕ) : Bool :=
  decide (s.inFlight = []) && decide (s.packets = ∅) && decide (∀ i ∈ fourObjects.members, s.counters i = ⟨0, 0⟩) &&
    decide (∃ c ∈ s.session.broker.ctxs, c.reduceSentTotal ≠ c.reduceRecvTotal)

/-- A discarded message stays counted as sent. -/
theorem discarded_message_unaccounted : ¬ ∀ (n : Network ℕ) (b : Broker ℕ) (es : List (Event ℕ)) (s : Traffic ℕ),
    Trace.run advance (init n.group.size) (n.group.frames ++ n.objs.map registerFrame) = .ok b →
    (∀ e ∈ es, e.lockstep = true) → Trace.run (step n) (start b) es = .ok s → Accounted n s := by
  intro hall
  obtain ⟨b, hb, hcheck⟩ := Trace.exists_run_of_check advance (init 4)
    (fourMembers.frames ++ fourObjects.objs.map registerFrame)
    (fun b => Trace.endsIn differs (Trace.run (step fourObjects) (start b) discardingRun)) (by decide +kernel)
  obtain ⟨s, hs, hlost⟩ := Trace.exists_run_of_check (step fourObjects) (start b) discardingRun differs hcheck
  simp only [differs, Bool.and_eq_true, decide_eq_true_eq] at hlost
  obtain ⟨⟨⟨hin, hpk⟩, hcount⟩, c, hc, hne⟩ := hlost
  exact hne ((hall fourObjects b discardingRun s hb (by decide) hs).settled hin hpk hcount c hc)

end Fncs.Traffic

/-
Soundness of the message difference: a receipt is never reported in an earlier
round than its send, so the broker's received total never exceeds its sent
total, and a difference of 0 means that nothing is outstanding.
-/
import Fncs.Sync.Reporting
import Fncs.Broker.Collect

namespace Fncs.Traffic

open Broker Pending

variable {ι : Type} [LinearOrder ι] {n : Network ι} {s s' : Traffic ι} {i : ι}

/-- No receipt without a send: unicast messages only, each of which counts once
until it is received. An entry of the ledger counts for one message at least. -/
structure Sound (n : Network ι) (s : Traffic ι) : Prop where
  reporting : Reporting n s
  unicast : ∀ p ∈ s.inFlight, p.message.isBroadCast = false
  flow : s.received n + s.outstanding (fun _ => 1) (max 1) ≤ s.sentEver
  totals : s.session.recvSum ≤ s.session.sentSum

/-- Nothing in flight, nothing held, nothing to report. -/
structure Quiet (n : Network ι) (s : Traffic ι) : Prop where
  inFlight : s.inFlight = []
  packets : s.packets = ∅
  counters : ∀ i ∈ n.members, s.counters i = ⟨0, 0⟩

section Sound

variable {e : Event ι} {r : Request ι} {b : Broker ι} {out : Replies ι} {pubs : List Publication}

theorem Sound.room (h : Sound n s) : s.received n + s.outstanding single id ≤ s.sentEver := by
  have hw : (s.inFlight.map fun p => single p.message).sum ≤ (s.inFlight.map fun _ => 1).sum :=
    List.sum_le_sum fun p _ => by unfold single; split <;> omega
  have hf : s.packets.total id ≤ s.packets.total (max 1) := OrdMap.total_le (fun v => by simp) _
  have := h.flow
  simp only [outstanding] at this ⊢
  omega

/-- What is sent, held or delivered stays outstanding or is received. -/
theorem Sound.flow_step (h : Sound n s) (hfit : s.sentEver < ulongSize) (hs : s.step n e = .ok s')
    (hu : ∀ i m, e = .send i m → m.isBroadCast = false) (hreset : ∀ i, e = .resetCounters i → s.counters i = ⟨0, 0⟩) :
    s'.received n + s'.outstanding (fun _ => 1) (max 1) ≤ s'.sentEver := by
  have hflow := h.flow
  have hroom := h.room
  cases e with
  | send i m =>
    have h1 : n.copies m = 1 := by simp [Network.copies, hu i m rfl]
    rcases send_flow h.reporting (fun _ => 1) (max 1) hs with rfl | ⟨hrec, ⟨-, -, hk, hr, hout⟩ | ⟨-, hk, hout⟩⟩
    · exact hflow
    · have := CommunicationComManager.total_removeMessageTimeout (f := max 1) (fun v _ => by split <;> omega) hr
      omega
    · omega
  | arrive i =>
    obtain ⟨r, b, out, pubs, hr, hp, hb, rfl⟩ := arrive_ok hs
    rw [(h.reporting.after hfit (by omega) hr hp hb).2.1]
    exact hflow
  | deliver k currentTime =>
    obtain ⟨p, hp, hk, hout, ⟨-, hrec, hpk⟩ | ⟨-, -, -, hrec, hpk⟩ | ⟨-, -, -, hpk, hrec⟩⟩ :=
      deliver_flow (fun _ => 1) (max 1) hs
    · rw [hpk] at hout
      omega
    · rw [h.unicast p (List.mem_of_getElem? hp)] at hpk
      have := CommunicationComManager.total_addMessageTimeout_le (n.interfaces p.dest) s.packets p.message.timeStamp
      rw [← hpk] at this
      omega
    · rw [hpk] at hout
      have hmod := Nat.mod_le ((s.counters p.dest).receiveCount + 1) ulongSize
      omega
  | packetLostCalculator currentTime =>
    obtain ⟨leastTime, hk, hout, hrec⟩ := lost_flow (fun _ => 1) (max 1) hs
    have hmod := Nat.mod_le ((s.counters n.group.netSim).receiveCount +
      (CommunicationComManager.lost leastTime s.packets).total id) ulongSize
    have hle : (CommunicationComManager.lost leastTime s.packets).total id ≤
        (CommunicationComManager.lost leastTime s.packets).total (max 1) := OrdMap.total_le (fun v => by simp) _
    omega
  | resetCounters i =>
    obtain ⟨hk, hout, hrec⟩ := reset_flow (fun _ => 1) (max 1) hs
    rw [hreset i rfl] at hrec
    omega
  | _ =>
    simp only [Traffic.step] at hs
    split at hs <;> cases hs
    exact hflow

/-- Only unicast messages are on their way. -/
theorem Sound.unicast_step (h : Sound n s) (hs : s.step n e = .ok s')
    (hu : ∀ i m, e = .send i m → m.isBroadCast = false) : ∀ p ∈ s'.inFlight, p.message.isBroadCast = false := by
  cases e with
  | send i m =>
    obtain ⟨_, c, hctx, hag⟩ := h.reporting.agrees
    have happ {iAmNetSim : Bool} {ps : List (Packet ι)}
        (hps : ZmqNetworkInterface.send s.session.broker iAmNetSim m = .ok ps) :
        ∀ p ∈ s.inFlight ++ ps, p.message.isBroadCast = false := by
      obtain ⟨q, rfl, hq⟩ := ZmqNetworkInterface.send_ok hctx hag.roster.netSimID hps
      intro p hp
      rcases List.mem_append.mp hp with hp | hp
      · exact h.unicast p hp
      · rw [List.mem_singleton.mp hp, hq]
        exact hu i m rfl
    obtain ⟨-, -, ⟨-, -, rfl⟩ | ⟨_, _, -, -, -, hps, rfl⟩ | ⟨_, -, hps, rfl⟩⟩ := send_ok hs
    · exact h.unicast
    · exact happ hps
    · exact happ hps
  | arrive i =>
    obtain ⟨r, b, out, pubs, -, -, -, rfl⟩ := arrive_ok hs
    exact h.unicast
  | deliver k currentTime =>
    obtain ⟨p, -, -, -, ⟨-, rfl⟩ | ⟨-, -, -, rfl⟩ | ⟨-, -, -, rfl⟩⟩ := deliver_ok hs <;>
      exact fun p hp => h.unicast p (List.mem_of_mem_eraseIdx hp)
  | _ =>
    simp only [Traffic.step] at hs
    split at hs <;> cases hs
    exact h.unicast

/-- The rounds so far have reported no more receipts than sends. -/
theorem Sound.totals_step (h : Sound n s) (hfit : s.sentEver < ulongSize) (hs : s.step n e = .ok s') :
    s'.session.recvSum ≤ s'.session.sentSum := by
  have hroom := h.room
  cases e with
  | send i m =>
    obtain ⟨-, -, ⟨-, -, rfl⟩ | ⟨_, _, -, -, -, -, rfl⟩ | ⟨_, -, -, rfl⟩⟩ := send_ok hs <;> exact h.totals
  | arrive i =>
    obtain ⟨r, b, out, pubs, hr, hp, hb, rfl⟩ := arrive_ok hs
    obtain ⟨hrep, hrec, ⟨-, hc⟩ | ⟨awake, d, -, hround⟩⟩ := h.reporting.after hfit (by omega) hr hp hb
    · -- no report: both sums are as they were
      have hsent := hrep.sent
      have hsent₀ := h.reporting.sent
      have htot := h.totals
      simp only [received, unreportedReceipts, unreportedSends, hc] at hrec hsent hsent₀
      have : (s.after i r b out).sentEver = s.sentEver := rfl
      omega
    · exact le_of_add_le_right hround.diff.le
  | deliver k currentTime =>
    obtain ⟨p, -, -, -, ⟨-, rfl⟩ | ⟨-, -, -, rfl⟩ | ⟨-, -, -, rfl⟩⟩ := deliver_ok hs <;> exact h.totals
  | _ =>
    simp only [Traffic.step] at hs
    split at hs <;> cases hs
    exact h.totals

theorem Sound.step (h : Sound n s) (hs : s.step n e = .ok s') (hfit : s'.sentEver < ulongSize)
    (hu : ∀ i m, e = .send i m → m.isBroadCast = false) (hreset : ∀ i, e = .resetCounters i → s.counters i = ⟨0, 0⟩) :
    Sound n s' := by
  have hfit₀ := (sentEver_le hs).trans_lt hfit
  have hroom := h.room
  refine ⟨h.reporting.step hfit₀ (by omega) hs hfit ?_, h.unicast_step hs hu, h.flow_step hfit₀ hs hu hreset,
    h.totals_step hfit₀ hs⟩
  cases e with
  | send i m => exact fun _ hb => absurd hb (by simp [hu i m rfl])
  | resetCounters i => exact hreset i rfl
  | _ => trivial

/-- A completed round that finds no difference finds nothing outstanding, if
who takes no part has sent nothing. -/
theorem Sound.quiet (h : Sound n s) {awake : Finset ι} {s₀ : Traffic ι} (hround : Round n s₀ s awake 0)
    (hasleep : ∀ i ∈ n.members, i ∉ awake → (s₀.counters i).sendCount = 0) : Quiet n s := by
  have hzero : s.unreportedSends n = 0 := by
    refine Finset.sum_eq_zero fun i hi => ?_
    by_cases ha : i ∈ awake
    · exact hround.reported i ha
    · rw [hround.others i ha]
      exact hasleep i hi ha
  have hsent := h.reporting.sent
  have hdiff := hround.diff
  have hflow := h.flow
  have hreceived : s.received n = s.session.recvSum + s.unreportedReceipts n := rfl
  have hout : s.outstanding (fun _ => 1) (max 1) = 0 := by omega
  have hrec : s.unreportedReceipts n = 0 := by omega
  simp only [outstanding, List.map_const', List.sum_replicate, smul_eq_mul, mul_one, Nat.add_eq_zero_iff,
    List.length_eq_zero_iff] at hout
  refine ⟨hout.1, OrdMap.eq_empty_of_total (f := max 1) (fun v => by simp) hout.2, fun i hi => ?_⟩
  have h1 := sendCount_le (s := s) hi
  have h2 := receiveCount_le (s := s) hi
  have h3 : (s.counters i).sendCount = 0 := by omega
  have h4 : (s.counters i).receiveCount = 0 := by omega
  rw [show s.counters i = ⟨(s.counters i).sendCount, (s.counters i).receiveCount⟩ from rfl, h3, h4]

/-- The reports of a round add up, if who takes no part in it has sent nothing. -/
theorem Sound.roundFits (h : Sound n s) (hfit : s.sentEver < ulongSize) (hr : s.asked i = some r) {c : Context ι}
    (hag : Agrees n.group s.session.pending s.session.sentSum s.session.recvSum c) {awake : Finset ι}
    (hsub : awake ⊆ n.members)
    (hasleep : (∀ j ∈ awake, ∃ sent recv, s.session.posted ⟨i, 0, r⟩ j = some (.reduceSendRecv sent recv)) →
      ∀ j ∈ n.members, j ∉ awake → (s.counters j).sendCount = 0) :
    RoundFits (s.session.posted ⟨i, 0, r⟩) c awake := by
  intro val hpart
  have hval (j : ι) (hj : j ∈ awake) := h.reporting.copies j (val j).1 (val j).2
    (h.reporting.posted hr ((hpart j (val j)).mpr ⟨hj, rfl⟩))
  have hrest : ∑ j ∈ n.members \ awake, (s.counters j).sendCount = 0 := by
    refine Finset.sum_eq_zero fun j hj => ?_
    obtain ⟨hj, hja⟩ := Finset.mem_sdiff.mp hj
    exact hasleep (fun k hk => ⟨_, _, (hpart k (val k)).mpr ⟨hk, rfl⟩⟩) j hj hja
  have hsend : ∑ j ∈ awake, (val j).1 = s.unreportedSends n := by
    rw [unreportedSends, ← Finset.sum_sdiff hsub, hrest, Nat.zero_add]
    exact Finset.sum_congr rfl fun j hj => (hval j hj).1
  have hrecv : ∑ j ∈ awake, (val j).2 ≤ s.unreportedReceipts n :=
    (Finset.sum_le_sum fun j hj => (hval j hj).2).trans
      (Finset.sum_le_sum_of_subset (f := fun j => (s.counters j).receiveCount) hsub)
  have hsent := h.reporting.sent
  have hroom := h.room
  have hreceived : s.received n = s.session.recvSum + s.unreportedReceipts n := rfl
  have hS : c.reduceSentTotal = s.session.sentSum := hag.sentTotal.trans (Nat.mod_eq_of_lt (by omega))
  have hR : c.reduceRecvTotal = s.session.recvSum := hag.recvTotal.trans (Nat.mod_eq_of_lt (by omega))
  omega

/-- A report that reaches the broker is taken, if who sleeps has sent nothing. -/
theorem Sound.accepted (h : Sound n s) (hfit : s.sentEver < ulongSize) {sent recv : ℕ}
    (hr : s.asked i = some (.reduceSendRecv sent recv)) (hp : s.session.pending i = none)
    (hasleep : ∀ j ∈ n.members, s.asked j = some .sleep → (s.counters j).sendCount = 0) :
    ∃ s', s.step n (.arrive i) = .ok s' := by
  obtain ⟨hm, hc, hf, hn⟩ := h.reporting.proper i _ hr
  obtain ⟨hw, c, hctx, hag⟩ := h.reporting.agrees
  have he := hag.enter hp hm hc hf hn
  have hsub : c.contexts.dom ⊆ n.members := by
    have := hag.awakeFor_subset (f := ⟨i, 0, .barrier⟩)
    simpa [awakeFor, Network.members] using this
  have hround : RoundFits (s.session.posted ⟨i, 0, .reduceSendRecv sent recv⟩) c c.contexts.dom := by
    refine h.roundFits hfit hr hag hsub fun _ j hj hja => ?_
    refine hasleep j hj (h.reporting.posted hr (hag.asleep_of_notMem hp hj ?_))
    simpa [awakeFor] using hja
  obtain ⟨x, hx⟩ := he.reduceSendRecvChecker_ok hround
  have hhandle : c.handle s.session.broker.worldSize i (.reduceSendRecv sent recv) = .ok (x.1, x.2) := by
    show reduceSendRecvHandler c i sent recv = _
    rw [reduceSendRecvHandler_eq hag.roster.valid (hag.tables.reduceSent.not_mem_dom hp), hx]
  have hstep := step_handle hctx hhandle
  exact ⟨s.after i (.reduceSendRecv sent recv) { s.session.broker with ctxs := [x.1] } x.2, by simp [Traffic.step, hr, hp, hstep]⟩

/-- The broker's totals are those of the rounds. -/
theorem Sound.totals_le (h : Sound n s) (hfit : s.sentEver < ulongSize) :
    ∀ c ∈ s.session.broker.ctxs, c.reduceRecvTotal ≤ c.reduceSentTotal := by
  intro c hc
  obtain ⟨-, c', hctx, hag⟩ := h.reporting.agrees
  obtain rfl : c = c' := by simpa [hctx] using hc
  have hsent := h.reporting.sent
  have htot := h.totals
  rw [hag.sentTotal, hag.recvTotal, Nat.mod_eq_of_lt (by omega), Nat.mod_eq_of_lt (by omega)]
  exact htot

end Sound

/-! ## Runs of the lockstep algorithms -/

/-- What a GracePeriodSyncAlgo simulator or the lockstep net sim does, with unicast messages. -/
def Event.lockstep : Event ι → Bool
  | .send _ m => !m.isBroadCast
  | .request _ (.reduceMinTime _) | .request _ .barrier => true
  | .request _ _ | .resetCounters _ => false
  | _ => true

/-- The registered group, before anything is sent. -/
theorem Reporting.start {b : Broker ι} (h : Registered n.group n.objs b) : Reporting n (start b) where
  agrees := by
    have hf := Agrees.formed n.group
    refine ⟨(congrArg Broker.worldSize h.broker).trans rfl, _, (congrArg Broker.ctxs h.broker).trans rfl, ?_⟩
    obtain ⟨⟨h1, h2, h3, h4, h5, h6⟩, ⟨k1, k2, k3, k4, k5, k6, k7⟩, hp, hs, hr⟩ := hf
    exact ⟨⟨h1, h2, h3, h4, h5, h6⟩, ⟨k1, k2, k3, k4, k5, k6, k7⟩, hp, hs, hr⟩
  waits := nofun
  proper := nofun
  copies := nofun
  sent := by simp [Traffic.start, Session.start, unreportedSends]

theorem received_start {b : Broker ι} : (start b).received n = 0 := by
  simp [received, Traffic.start, Session.start, unreportedReceipts]

theorem Sound.start {b : Broker ι} (h : Registered n.group n.objs b) : Sound n (start b) where
  reporting := .start h
  unicast := nofun
  flow := by rw [received_start]; simp [outstanding, Traffic.start]
  totals := le_rfl

/-- Nobody sleeps in a run of the lockstep algorithms. -/
def NobodySleeps (s : Traffic ι) : Prop := ∀ i, s.asked i ≠ some .sleep

theorem NobodySleeps.step (h : s.NobodySleeps) {e : Event ι} (he : e.lockstep = true) (hs : s.step n e = .ok s') :
    s'.NobodySleeps := by
  intro j hj
  cases e with
  | send i m =>
    obtain ⟨-, -, ⟨-, -, rfl⟩ | ⟨_, _, -, -, -, -, rfl⟩ | ⟨_, -, -, rfl⟩⟩ := send_ok hs <;> exact h j hj
  | arrive i =>
    obtain ⟨r, b, out, pubs, -, -, -, rfl⟩ := arrive_ok hs
    exact h j (answer_eq_some.mp hj).2
  | deliver k currentTime =>
    obtain ⟨p, -, -, -, ⟨-, rfl⟩ | ⟨-, -, -, rfl⟩ | ⟨-, -, -, rfl⟩⟩ := deliver_ok hs <;> exact h j hj
  | request i r =>
    simp only [Traffic.step] at hs
    split at hs <;> cases hs
    rcases post_eq_some.mp hj with ⟨-, rfl⟩ | ⟨-, hj⟩
    · cases he
    · exact h j hj
  | reduceTotalSendReceive i =>
    simp only [Traffic.step] at hs
    split at hs <;> cases hs
    rcases post_eq_some.mp hj with ⟨-, hr⟩ | ⟨-, hj⟩
    · cases hr
    · exact h j hj
  | _ =>
    simp only [Traffic.step] at hs
    split at hs <;> cases hs
    exact h j hj

/-- The broker takes whatever report comes next, its sent total is at least its
received total, and a round that returns 0 finds nothing in flight, nothing
held and nothing to report. -/
structure DifferenceSound (n : Network ι) (s : Traffic ι) : Prop where
  accepted : ∀ i sent recv, s.asked i = some (.reduceSendRecv sent recv) → s.session.pending i = none →
    ∃ s', s.step n (.arrive i) = .ok s'
  totals : ∀ c ∈ s.session.broker.ctxs, c.reduceRecvTotal ≤ c.reduceSentTotal
  zero : ∀ i r b out pubs, s.asked i = some r → s.session.pending i = none →
    s.session.broker.step i 0 r = .ok (b, out, pubs) → (∃ j, (j, .diff 0) ∈ out) → Quiet n (s.after i r b out)

theorem Sound.difference (h : Sound n s) (hfit : s.sentEver < ulongSize) (hsleep : s.NobodySleeps) :
    DifferenceSound n s where
  accepted i sent recv hr hp := h.accepted hfit hr hp fun j _ hj => absurd hj (hsleep j)
  totals := h.totals_le hfit
  zero i r b out pubs hr hp hb hz := by
    have hroom := h.room
    obtain ⟨j, hj⟩ := hz
    obtain ⟨-, -, ⟨hne, -⟩ | ⟨awake, d, ha, hround⟩⟩ := h.reporting.after hfit (by omega) hr hp hb
    · exact absurd rfl (hne _ hj 0)
    · have hd : d = 0 := by simpa using (ha.value _ hj).symm
      subst hd
      have hs : s.step n (.arrive i) = .ok (s.after i r b out) := by simp [Traffic.step, hr, hp, hb]
      have hsend : ∀ j m, Event.arrive i = .send j m → m.isBroadCast = false := by
        intro _ _ he
        cases he
      have hreset : ∀ j, Event.arrive i = .resetCounters j → s.counters j = ⟨0, 0⟩ := by
        intro _ he
        cases he
      exact (h.step hs hfit hsend hreset).quiet hround fun i hi hia => absurd (hround.asleep i hi hia) (hsleep i)

/-- Soundness of the message difference in every state of every run of the
lockstep algorithms, as long as fewer than 2^64 messages have been sent. -/
theorem message_difference_sound (n : Network ι) {b : Broker ι} {es : List (Event ι)}
    (hstart : Trace.run advance (init n.group.size) (n.group.frames ++ n.objs.map registerFrame) = .ok b)
    (hlock : ∀ e ∈ es, e.lockstep = true) (hrun : Trace.run (step n) (start b) es = .ok s)
    (hfit : s.sentEver < ulongSize) : DifferenceSound n s := by
  have key : ∀ (es : List (Event ι)) (s₀ : Traffic ι), (∀ e ∈ es, e.lockstep = true) → Sound n s₀ → s₀.NobodySleeps →
      Trace.run (step n) s₀ es = .ok s → Sound n s ∧ s.NobodySleeps := by
    intro es
    induction es with
    | nil =>
      intro s₀ _ h hsl hr
      cases hr
      exact ⟨h, hsl⟩
    | cons e es ih =>
      intro s₀ hes h hsl hr
      obtain ⟨s₁, hs, hr⟩ := Trace.run_cons.mp hr
      have he := hes e List.mem_cons_self
      have hfit₁ : s₁.sentEver < ulongSize :=
        (Trace.run_invariant (I := fun t => s₁.sentEver ≤ t.sentEver)
          (fun t _ _ h hs => h.trans (sentEver_le hs)) le_rfl hr).trans_lt hfit
      refine ih s₁ (fun e he => hes e (List.mem_cons_of_mem _ he)) (h.step hs hfit₁ ?_ ?_) (hsl.step he hs) hr
      · rintro i m rfl
        simpa [Event.lockstep] using he
      · rintro i rfl
        cases he
  obtain ⟨h, hsl⟩ := key es (start b) hlock (.start (registered_of_run hstart)) nofun hrun
  exact h.difference hfit hsl

/-- Four members, each object of a simulator known to the net sim; simulator 1
keeps messages for 5 time units only. -/
def fourObjects : Network ℕ where
  group := fourMembers
  objs := [(0, "a"), (1, "b"), (2, "c"), (3, "a"), (3, "b"), (3, "c")]
  packetLostPeriod := fun i => if i = 1 then 5 else 100

/-- Everybody reports. -/
def everybodyReports : List (Event ℕ) :=
  [.reduceTotalSendReceive 0, .reduceTotalSendReceive 1, .reduceTotalSendReceive 2, .reduceTotalSendReceive 3,
    .arrive 0, .arrive 1, .arrive 2, .arrive 3]

/-- A message through the net sim and one that bypasses it, which arrives while
its addressee is blocked; then a round that finds no difference. -/
def soundRun : List (Event ℕ) :=
  [.send 0 ⟨"a", "b", 1, true⟩, .send 2 ⟨"c", "a", 1, false⟩, .deliver 0 1, .reduceTotalSendReceive 0, .deliver 0 1,
    .reduceTotalSendReceive 1, .reduceTotalSendReceive 2, .reduceTotalSendReceive 3, .arrive 0, .arrive 1, .arrive 2,
    .arrive 3, .request 0 .barrier, .arrive 0, .send 3 ⟨"a", "b", 1, true⟩, .deliver 0 3, .request 1 .barrier,
    .request 2 .barrier, .request 3 .barrier, .arrive 1, .arrive 2, .arrive 3].append everybodyReports

theorem message_difference_sound_four : ∃ b s,
    Trace.run advance (init 4) (fourMembers.frames ++ fourObjects.objs.map registerFrame) = .ok b ∧
    Trace.run (step fourObjects) (start b) soundRun = .ok s ∧ s.session.sentSum = 2 ∧ s.session.recvSum = 2 ∧
    DifferenceSound fourObjects s := by
  obtain ⟨b, hb, hcheck⟩ := Trace.exists_run_of_check advance (init 4)
    (fourMembers.frames ++ fourObjects.objs.map registerFrame)
    (fun b => Trace.endsIn (fun s => s.session.sentSum == 2 && s.session.recvSum == 2 && s.sentEver == 2)
      (Trace.run (step fourObjects) (start b) soundRun)) (by decide +kernel)
  obtain ⟨s, hs, hsum⟩ := Trace.exists_run_of_check (step fourObjects) (start b) soundRun
    (fun s => s.session.sentSum == 2 && s.session.recvSum == 2 && s.sentEver == 2) hcheck
  simp only [Bool.and_eq_true, beq_iff_eq] at hsum
  exact ⟨b, s, hb, hs, hsum.1.1, hsum.1.2,
    message_difference_sound fourObjects hb (by decide) hs (by rw [hsum.2]; decide)⟩

end Fncs.Traffic

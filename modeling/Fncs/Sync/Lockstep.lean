/-
Lockstep: in a message-free run the simulators the broker waits for go through
the collectives of a round together. All of them are at one stage; some have
asked already; the others have been left waiting by an earlier round.

A `Conversation` says how the simulators of a client pass through the stages,
whatever algorithm they run; `Lockstep` ties the broker and the simulators to
the stage, and `Lockstep.post` is one more request of a stage before the last.
-/
import Fncs.Sync.Scenario
import Fncs.Broker.Collect
import Fncs.Lib.NextEvent

namespace Fncs

open Broker Pending

/-- The collectives of a round, in order. -/
inductive Stage
  | barrier
  | sendRecv
  | networkDelay
  | minTime
  deriving DecidableEq, Repr

namespace Stage

def next : Stage → Stage
  | barrier => sendRecv
  | sendRecv => networkDelay
  | networkDelay => minTime
  | minTime => barrier

def index : Stage → ℕ
  | barrier => 0
  | sendRecv => 1
  | networkDelay => 2
  | minTime => 3

/-- What everybody is answered at a stage before the last. -/
def reply : Stage → Reply
  | barrier => .ack
  | sendRecv => .diff 0
  | _ => .time Infinity

end Stage

namespace Scenario

variable {ι : Type} [LinearOrder ι] (S : Scenario ι)

/-- The simulators but the net sim. -/
def ticks : Finset ι := S.group.members.toFinset.erase S.group.netSim

/-- Granted framework times, as the simulator's calls return them. -/
def shown (i : ι) (h : List TIME) : List TIME := h.map (S.integrator i).toSimTime

/-- What the simulator proposes after the grants `h`. -/
def proposal (i : ι) (h : List TIME) : TIME :=
  if i = S.group.netSim then Infinity else S.nextTime i (S.shown i h)

/-- The clock stands for the last grant. -/
def Clocked (i : ι) (h : List TIME) : Prop := (S.integrator i).ClockAt (S.clock i (S.shown i h)) (h.headD 0)

variable {S} {i : ι} {h : List TIME} {t : TIME}

theorem mem_ticks : i ∈ S.ticks ↔ i ∈ S.group.members ∧ i ≠ S.group.netSim := by
  simp [ticks, and_comm]

theorem Clocked.nil : S.Clocked i [] := by
  refine ⟨(S.setup i).clock_start.trans (Nat.zero_add _).symm, ?_⟩
  show 0 + convertToFrameworkTime (S.setup i).simTimeStep (S.setup i).initialTime < ulongSize
  rw [Nat.zero_add]
  exact Nat.mod_lt _ (by decide)

theorem Clocked.currentTime (hc : S.Clocked i h) : S.currentTime i (S.shown i h) = h.headD 0 :=
  Integrator.ClockAt.toFramework hc

/-- What a legal call asks for is later than the last grant. -/
theorem Clocked.lt_nextTime (hc : S.Clocked i h) (hl : S.legal i (S.shown i h) = true) :
    h.headD 0 < S.nextTime i (S.shown i h) := by
  simp only [legal, Bool.and_eq_true, decide_eq_true_eq] at hl
  exact (hc.toFramework_next hl.1.1 hl.1.2).1

/-- A granted request leaves the clock right. -/
theorem Clocked.cons (hc : S.Clocked i h) (hl : S.legal i (S.shown i h) = true)
    (ht : t = S.nextTime i (S.shown i h)) : S.Clocked i (t :: h) := by
  simp only [legal, Bool.and_eq_true, decide_eq_true_eq] at hl
  obtain ⟨⟨h1, h2⟩, -⟩ := hl
  obtain ⟨hlt, heq⟩ := hc.toFramework_next h1 h2
  have ho : (S.integrator i).simTimeMetric.scale ∣ (S.integrator i).offset := (S.setup i).scale_dvd_offset
  have ht' : t = S.policy i (S.shown i h) * (S.integrator i).simTimeMetric.scale - (S.integrator i).offset :=
    ht.trans heq
  have hpos : 0 < t := ht ▸ Nat.zero_lt_of_lt hlt
  refine .granted ho ?_ ?_
  · rw [ht']
    exact Nat.dvd_sub (Nat.dvd_mul_left _ _) ho
  · rw [ht', Nat.sub_add_cancel (Nat.le_of_lt (Nat.lt_of_sub_pos (ht' ▸ hpos)))]
    exact h2

/-- Any grant leaves the net sim's clock right. -/
theorem Clocked.cons_netSim (hf : t + (S.integrator S.group.netSim).offset < ulongSize) :
    S.Clocked S.group.netSim (t :: h) := by
  have hone : (S.integrator S.group.netSim).simTimeMetric.scale = 1 := by
    show (S.setup S.group.netSim).simTimeStep.scale = 1
    rw [S.netSim_metric]
    rfl
  exact .granted (by simp [hone]) (by simp [hone]) hf

theorem proposal_of_ne (hi : i ≠ S.group.netSim) : S.proposal i h = S.nextTime i (S.shown i h) := if_neg hi

end Scenario

/-- What is asked for at a stage, `final` being the request of the last. -/
def Scenario.asks {ι : Type} [LinearOrder ι] (S : Scenario ι) (final : TIME → Request ι) (q : Stage) (i : ι)
    (h : List TIME) : Request ι :=
  match q with
  | .barrier => .barrier
  | .sendRecv => .reduceSendRecv 0 0
  | .networkDelay => .reduceMinTime Infinity
  | .minTime => final (S.proposal i h)

/-- How the simulators of client `C` pass through the stages: `At i q h x` when
simulator `i`, granted the times `h` so far, is at stage `q` in state `x`. -/
structure Conversation {ι σ : Type} [LinearOrder ι] (S : Scenario ι) (C : Client ι σ) where
  At : ι → Stage → List TIME → σ → Prop
  final : TIME → Request ι
  legal {i : ι} {q : Stage} {h : List TIME} {x : σ} (hx : At i q h x) (hq : q ≠ .barrier) :
    S.legal i (S.shown i h) = true
  request {i : ι} {q : Stage} {h : List TIME} {x : σ} (hx : At i q h x) :
    C.request i x = if S.legal i (S.shown i h) then some (S.asks final q i h) else none
  resume {i : ι} {q : Stage} {h : List TIME} {x : σ} (hx : At i q h x) (hq : q ≠ .minTime) (hc : S.Clocked i h)
    (hl : S.legal i (S.shown i h) = true) :
    (C.resume i x q.reply).2 = none ∧ At i q.next h (C.resume i x q.reply).1
  /-- The net sim is granted any later time, the others what they proposed. -/
  grant {i : ι} {h : List TIME} {x : σ} {t : TIME} (hx : At i .minTime h x) (hc : S.Clocked i (t :: h))
    (hlt : h.headD 0 < t) (hfin : t < Infinity) (ht : i ≠ S.group.netSim → t = S.proposal i h) :
    (C.resume i x (.time t)).2 = some t ∧ At i .barrier (t :: h) (C.resume i x (.time t)).1

namespace Conversation

variable {ι σ : Type} [LinearOrder ι] {S : Scenario ι} {C : Client ι σ} (V : Conversation S C)

/-- The unanswered requests when `posted` have asked at stage `q`. -/
def waiting (h : ι → List TIME) (awake : Finset ι) (q : Stage) (posted : Finset ι) (i : ι) : Option (Request ι) :=
  if i ∈ posted then some (S.asks V.final q i (h i))
  else if i ∈ S.group.members.toFinset \ awake then some (.reduceMinTimeSleep (S.proposal i (h i)) false)
  else none

variable {V} {h : ι → List TIME} {awake posted : Finset ι} {q : Stage} {i : ι}

theorem waiting_post : post (V.waiting h awake q posted) i (S.asks V.final q i (h i)) =
    V.waiting h awake q (insert i posted) := by
  funext j
  by_cases hj : j = i
  · simp [post, waiting, hj]
  · simp [post, waiting, hj]

theorem waiting_answer {l : List ι} (q' : Stage) (hl : l.toFinset = awake) :
    answer (V.waiting h awake q awake) l = V.waiting h awake q' ∅ := by
  subst hl
  funext j
  by_cases hj : j ∈ l
  · simp [answer, waiting, hj]
  · simp [answer, waiting, hj]

/-- Who has asked takes part, and nobody else. -/
theorem waiting_participants {α : Type} {req : α → Request ι} {val : ι → α}
    (hq : ∀ i a, S.asks V.final q i (h i) = req a ↔ a = val i)
    (hs : ∀ t a, req a ≠ .reduceMinTimeSleep t false) :
    Participants (V.waiting h awake q posted) req posted val := by
  intro i a
  unfold waiting
  split
  · next hi => simp [hi, hq]
  · next hi =>
    simp only [hi, false_and, iff_false]
    split
    · exact fun he => hs _ _ (Option.some.inj he).symm
    · nofun

end Conversation

/-- The entries of a context that the collectives of a round do not touch before the last. -/
structure SameOthers {ι : Type} [LinearOrder ι] (c c' : Context ι) : Prop where
  valid : c'.validContexts = c.validContexts
  netSimID : c'.netSimID = c.netSimID
  contexts : c'.contexts = c.contexts
  worldSizes : c'.worldSizes = c.worldSizes
  sleepingSim : c'.sleepingSim = c.sleepingSim
  sleepState : c'.reduceMinTimeSleepState = c.reduceMinTimeSleepState
  incoming : c'.reduceMinTimeSleepIncoming = c.reduceMinTimeSleepIncoming

theorem SameOthers.trans {ι : Type} [LinearOrder ι] {c c₁ c₂ : Context ι} (h : SameOthers c c₁)
    (h' : SameOthers c₁ c₂) : SameOthers c c₂ := by
  obtain ⟨h1, h2, h3, h4, h5, h6, h7⟩ := h
  obtain ⟨k1, k2, k3, k4, k5, k6, k7⟩ := h'
  exact ⟨k1.trans h1, k2.trans h2, k3.trans h3, k4.trans h4, k5.trans h5, k6.trans h6, k7.trans h7⟩

/-- The system at stage `q`: the broker waits for `awake`, of whom `posted` have
asked. -/
structure Lockstep {ι σ : Type} [LinearOrder ι] {S : Scenario ι} {C : Client ι σ} (V : Conversation S C)
    (s : System ι σ) (h : ι → List TIME) (awake : Finset ι) (q : Stage) (posted : Finset ι) (c : Context ι) :
    Prop where
  worldSize : s.broker.worldSize = S.group.size
  ctxs : s.broker.ctxs = [c]
  valid : c.validContexts = true
  worldSizes : c.worldSizes = awake.card
  sentTotal : c.reduceSentTotal = 0
  recvTotal : c.reduceRecvTotal = 0
  awake_subset : awake ⊆ S.group.members.toFinset
  netSim_awake : S.group.netSim ∈ awake
  posted_subset : posted ⊆ awake
  pending : s.pending = V.waiting h awake q posted
  tables : Tables s.pending c
  awake_at : ∀ i ∈ awake, V.At i q (h i) (s.locals i)
  left_at : ∀ i ∈ S.group.members.toFinset \ awake, V.At i .minTime (h i) (s.locals i)
  posted_legal : ∀ i ∈ posted, S.legal i (S.shown i (h i)) = true
  clocked : ∀ i ∈ S.group.members, S.Clocked i (h i)
  together : q ≠ .barrier → 1 < awake.card
  /-- A stage all have asked at is left at once, but for the barrier of a net sim on its own. -/
  unfinished : posted = awake → awake.card ≤ 1

namespace System

variable {ι σ : Type} [LinearOrder ι] {C : Client ι σ} {s : System ι σ} {i : ι} {r : Request ι} {b : Broker ι}
  {out : Replies ι}

/-- A request that is not answered. -/
theorem after_nil : s.after C i r b [] =
    { s with broker := b, pending := post s.pending i r } := by
  simp [after, resumed]

/-- An answer that ends no call. -/
theorem after_log_quiet (h : ∀ e ∈ out, (s.resumed C out e.1).2 = none) : (s.after C i r b out).log = s.log := by
  refine if_neg ?_
  simp only [List.any_eq_true, not_exists, not_and, Bool.not_eq_true, Option.isSome_eq_false_iff,
    Option.isNone_iff_eq_none]
  exact h

/-- An answer that ends a call. -/
theorem after_log {j : ι} (hj : j ∈ out.map Prod.fst) (h : (s.resumed C out j).2 ≠ none) :
    (s.after C i r b out).log = s.log ++ [fun j => (s.resumed C out j).2] := by
  refine if_pos ?_
  obtain ⟨e, he, rfl⟩ := List.mem_map.mp hj
  exact List.any_eq_true.mpr ⟨e, he, Option.isSome_iff_ne_none.mpr h⟩

variable {who : Finset ι} {reply : ι → Reply}

theorem resumed_of_mem (ha : Answered out who reply) {j : ι} (hj : j ∈ who) :
    s.resumed C out j = C.resume j (s.locals j) (reply j) := by
  simp [resumed, replyTo_eq ha, hj]

theorem resumed_of_not_mem (ha : Answered out who reply) {j : ι} (hj : j ∉ who) :
    s.resumed C out j = (s.locals j, none) := by
  simp [resumed, replyTo_eq ha, hj]

end System

namespace Lockstep

variable {ι σ : Type} [LinearOrder ι] {S : Scenario ι} {C : Client ι σ} {V : Conversation S C} {s : System ι σ}
  {h : ι → List TIME} {awake posted : Finset ι} {q : Stage} {c : Context ι} {i : ι}

/-- Who waits for nothing is awake and has yet to ask. -/
theorem idle_iff (hL : Lockstep V s h awake q posted c) (hi : i ∈ S.group.members) :
    s.pending i = none ↔ i ∈ awake ∧ i ∉ posted := by
  rw [hL.pending, Conversation.waiting]
  by_cases hp : i ∈ posted
  · simp [hp]
  · by_cases ha : i ∈ awake <;> simp [hp, ha, hi]

theorem legal_of_ne (hL : Lockstep V s h awake q posted c) (hq : q ≠ .barrier) (hi : i ∈ awake) :
    S.legal i (S.shown i (h i)) = true := V.legal (hL.awake_at i hi) hq

/-- The tables once `i` has asked. -/
theorem enter (hL : Lockstep V s h awake q posted c) (hi : i ∈ awake) (hp : i ∉ posted)
    (hr : (S.asks V.final q i (h i)).isCollective = true) :
    Tables (V.waiting h awake q (insert i posted)) (c.enter i (S.asks V.final q i (h i))) := by
  have hidle := (hL.idle_iff (List.mem_toFinset.mp (hL.awake_subset hi))).mpr ⟨hi, hp⟩
  have := hL.tables.enter hidle hr
  rwa [hL.pending, Conversation.waiting_post] at this

/-- What a context does with one more request of stage `q`, `posted` having
asked by then: nothing, or it answers everybody and the next stage begins. -/
structure Collected (V : Conversation S C) (h : ι → List TIME) (awake : Finset ι) (q : Stage) (posted : Finset ι)
    (c c' : Context ι) (out : Replies ι) : Prop where
  others : SameOthers c c'
  sentTotal : c'.reduceSentTotal = 0
  recvTotal : c'.reduceRecvTotal = 0
  outcome : ((posted = awake → awake.card ≤ 1 ∧ q = .barrier) ∧ out = [] ∧ Tables (V.waiting h awake q posted) c') ∨
    (posted = awake ∧ 1 < awake.card ∧ Answered out awake (fun _ => q.reply) ∧
      Tables (V.waiting h awake q.next ∅) c')

theorem collect_barrier (hL : Lockstep V s h awake .barrier posted c) (hi : i ∈ awake) (hp : i ∉ posted) :
    ∃ c' out, c.handle S.group.size i .barrier = .ok (c', out) ∧
      Collected V h awake .barrier (insert i posted) c c' out := by
  have ht : Tables (V.waiting h awake .barrier (insert i posted)) (c.enter i .barrier) := hL.enter hi hp rfl
  have hidle := (hL.idle_iff (List.mem_toFinset.mp (hL.awake_subset hi))).mpr ⟨hi, hp⟩
  have hw : (c.enter i .barrier).worldSizes = awake.card := hL.worldSizes
  have hpart : Participants (V.waiting h awake .barrier (insert i posted)) (fun _ : Unit => .barrier)
    (insert i posted) fun _ => () := Conversation.waiting_participants (by simp [Scenario.asks]) (by simp)
  have hh : c.handle S.group.size i .barrier = barrierChecker (c.enter i .barrier) :=
    barrierHandler_eq hL.valid (hL.tables.barrier.not_mem_dom hidle)
  have hwaits (hsub : insert i posted = awake → awake.card ≤ 1)
      (hok : barrierChecker (c.enter i .barrier) = .ok (c.enter i .barrier, [])) :
      ∃ c' out, c.handle S.group.size i .barrier = .ok (c', out) ∧
        Collected V h awake .barrier (insert i posted) c c' out :=
    ⟨_, _, hh.trans hok, ⟨rfl, rfl, rfl, rfl, rfl, rfl, rfl⟩, hL.sentTotal, hL.recvTotal,
      .inl ⟨fun he => ⟨hsub he, rfl⟩, rfl, ht⟩⟩
  by_cases heq : insert i posted = awake
  · rw [heq] at hpart ht
    rcases Nat.lt_or_ge 1 awake.card with h2 | h1
    · obtain ⟨hok, ha⟩ := barrierChecker_releases ht hw hpart h2
      have hr := ht.released_barrier hpart ha.addressees
      rw [Conversation.waiting_answer .sendRecv ha.addressees] at hr
      exact ⟨_, _, hh.trans hok, ⟨rfl, rfl, rfl, rfl, rfl, rfl, rfl⟩, hL.sentTotal, hL.recvTotal,
        .inr ⟨heq, h2, ha, hr⟩⟩
    · exact hwaits (fun _ => h1) (barrierChecker_alone ht hw hpart h1)
  · have hsub := Finset.insert_subset hi hL.posted_subset
    exact hwaits (fun he => absurd he heq) (barrierChecker_waits ht hw hpart (hsub.ssubset_of_ne heq))

theorem collect_sendRecv (hL : Lockstep V s h awake .sendRecv posted c) (hi : i ∈ awake) (hp : i ∉ posted) :
    ∃ c' out, c.handle S.group.size i (.reduceSendRecv 0 0) = .ok (c', out) ∧
      Collected V h awake .sendRecv (insert i posted) c c' out := by
  have ht : Tables (V.waiting h awake .sendRecv (insert i posted)) (c.enter i (.reduceSendRecv 0 0)) := hL.enter hi hp rfl
  have hidle := (hL.idle_iff (List.mem_toFinset.mp (hL.awake_subset hi))).mpr ⟨hi, hp⟩
  have hw : (c.enter i (.reduceSendRecv 0 0)).worldSizes = awake.card := hL.worldSizes
  have hpart : Participants (V.waiting h awake .sendRecv (insert i posted)) (fun v : ℕ × ℕ => .reduceSendRecv v.1 v.2)
    (insert i posted) fun _ => (0, 0) :=
    Conversation.waiting_participants (by simp [Scenario.asks, Prod.ext_iff, eq_comm]) (by simp)
  have hh : c.handle S.group.size i (.reduceSendRecv 0 0) = reduceSendRecvChecker (c.enter i (.reduceSendRecv 0 0)) :=
    reduceSendRecvHandler_eq hL.valid (hL.tables.reduceSent.not_mem_dom hidle)
  by_cases heq : insert i posted = awake
  · rw [heq] at hpart ht
    have hs : (c.enter i (.reduceSendRecv 0 0)).reduceSentTotal = 0 := hL.sentTotal
    have hr : (c.enter i (.reduceSendRecv 0 0)).reduceRecvTotal = 0 := hL.recvTotal
    obtain ⟨hok, ha⟩ := reduceSendRecvChecker_releases ht hw hpart (by simp [hs, ulongSize]) (by simp [hs, hr])
    have hrel := ht.released_sendRecv hpart (ha 0).addressees 0 0
    rw [Conversation.waiting_answer .networkDelay (ha 0).addressees] at hrel
    simp only [hs, hr, Finset.sum_const_zero, Nat.add_zero, Nat.sub_zero] at hok
    exact ⟨_, _, hh.trans hok, ⟨rfl, rfl, rfl, rfl, rfl, rfl, rfl⟩, rfl, rfl,
      .inr ⟨heq, hL.together (by simp), ha 0, hrel⟩⟩
  · have hsub := (Finset.insert_subset hi hL.posted_subset).ssubset_of_ne heq
    exact ⟨_, _, hh.trans (reduceSendRecvChecker_waits ht hw hpart hsub), ⟨rfl, rfl, rfl, rfl, rfl, rfl, rfl⟩,
      hL.sentTotal, hL.recvTotal, .inl ⟨fun he => absurd he heq, rfl, ht⟩⟩

theorem collect_networkDelay (hL : Lockstep V s h awake .networkDelay posted c) (hi : i ∈ awake) (hp : i ∉ posted) :
    ∃ c' out, c.handle S.group.size i (.reduceMinTime Infinity) = .ok (c', out) ∧
      Collected V h awake .networkDelay (insert i posted) c c' out := by
  have ht : Tables (V.waiting h awake .networkDelay (insert i posted)) (c.enter i (.reduceMinTime Infinity)) := hL.enter hi hp rfl
  have hidle := (hL.idle_iff (List.mem_toFinset.mp (hL.awake_subset hi))).mpr ⟨hi, hp⟩
  have hw : (c.enter i (.reduceMinTime Infinity)).worldSizes = awake.card := hL.worldSizes
  have hpart : Participants (V.waiting h awake .networkDelay (insert i posted)) .reduceMinTime
    (insert i posted) fun _ => Infinity :=
    Conversation.waiting_participants (by simp [Scenario.asks, eq_comm]) (by simp)
  have hh : c.handle S.group.size i (.reduceMinTime Infinity) = reduceMinTimeChecker (c.enter i (.reduceMinTime Infinity)) :=
    reduceMinTimeHandler_eq hL.valid (hL.tables.reduceMinTime.not_mem_dom hidle)
  by_cases heq : insert i posted = awake
  · rw [heq] at hpart ht
    obtain ⟨m, ⟨⟨_, -, rfl⟩, -⟩, hok, ha⟩ := reduceMinTimeChecker_releases ht hw hpart ⟨i, hi⟩
    have hrel := ht.released_minTime hpart ha.addressees
    rw [Conversation.waiting_answer .minTime ha.addressees] at hrel
    exact ⟨_, _, hh.trans hok, ⟨rfl, rfl, rfl, rfl, rfl, rfl, rfl⟩, hL.sentTotal, hL.recvTotal,
      .inr ⟨heq, hL.together (by simp), ha, hrel⟩⟩
  · have hsub := (Finset.insert_subset hi hL.posted_subset).ssubset_of_ne heq
    exact ⟨_, _, hh.trans (reduceMinTimeChecker_waits ht hw hpart hsub), ⟨rfl, rfl, rfl, rfl, rfl, rfl, rfl⟩,
      hL.sentTotal, hL.recvTotal, .inl ⟨fun he => absurd he heq, rfl, ht⟩⟩

theorem collect (hL : Lockstep V s h awake q posted c) (hq : q ≠ .minTime) (hi : i ∈ awake) (hp : i ∉ posted) :
    ∃ c' out, c.handle S.group.size i (S.asks V.final q i (h i)) = .ok (c', out) ∧
      Collected V h awake q (insert i posted) c c' out := by
  cases q with
  | barrier => exact hL.collect_barrier hi hp
  | sendRecv => exact hL.collect_sendRecv hi hp
  | networkDelay => exact hL.collect_networkDelay hi hp
  | minTime => exact absurd rfl hq

/-- The step of the system that a handled request is. -/
theorem step_eq (hL : Lockstep V s h awake q posted c) (hi : i ∈ awake) (hp : i ∉ posted)
    (hl : S.legal i (S.shown i (h i)) = true) {c' : Context ι} {out : Replies ι}
    (hh : c.handle S.group.size i (S.asks V.final q i (h i)) = .ok (c', out)) :
    s.step S.group C i =
      .ok (s.after C i (S.asks V.final q i (h i)) { s.broker with ctxs := [c'] } out) := by
  have hm := List.mem_toFinset.mp (hL.awake_subset hi)
  refine System.step_ok.mpr ⟨⟨hm, (hL.idle_iff hm).mpr ⟨hi, hp⟩⟩, _, _, out, [], ?_, ?_, rfl⟩
  · rw [V.request (hL.awake_at i hi), if_pos hl]
  · exact step_handle hL.ctxs (hL.worldSize ▸ hh)

/-- Who can take a step, and why. -/
theorem of_step (hL : Lockstep V s h awake q posted c) {s' : System ι σ} (hs : s.step S.group C i = .ok s') :
    i ∈ awake ∧ i ∉ posted ∧ S.legal i (S.shown i (h i)) = true := by
  obtain ⟨⟨hm, hidle⟩, r, b, out, pubs, hr, -⟩ := System.step_ok.mp hs
  obtain ⟨hi, hp⟩ := (hL.idle_iff hm).mp hidle
  rw [V.request (hL.awake_at i hi)] at hr
  refine ⟨hi, hp, ?_⟩
  by_contra hl
  rw [if_neg hl] at hr
  cases hr

/-- A request that is not answered. -/
theorem waits (hL : Lockstep V s h awake q posted c) (hi : i ∈ awake) (hp : i ∉ posted)
    (hl : S.legal i (S.shown i (h i)) = true) {c' : Context ι}
    (hh : c.handle S.group.size i (S.asks V.final q i (h i)) = .ok (c', [])) (hv : c'.validContexts = true)
    (hw : c'.worldSizes = awake.card) (hsent : c'.reduceSentTotal = 0) (hrecv : c'.reduceRecvTotal = 0)
    (ht : Tables (V.waiting h awake q (insert i posted)) c') (hun : insert i posted = awake → awake.card ≤ 1) :
    ∃ s', s.step S.group C i = .ok s' ∧ Lockstep V s' h awake q (insert i posted) c' ∧ s'.log = s.log := by
  have hstep := hL.step_eq hi hp hl hh
  rw [System.after_nil] at hstep
  have hpend : Pending.post s.pending i (S.asks V.final q i (h i)) = V.waiting h awake q (insert i posted) := by
    rw [hL.pending, Conversation.waiting_post]
  refine ⟨_, hstep, ?_, rfl⟩
  refine ⟨hL.worldSize, rfl, hv, hw, hsent, hrecv, hL.awake_subset, hL.netSim_awake,
    Finset.insert_subset hi hL.posted_subset, hpend, hpend ▸ ht, hL.awake_at, hL.left_at, fun j hj => ?_,
    hL.clocked, hL.together, hun⟩
  rcases Finset.mem_insert.mp hj with rfl | hj
  · exact hl
  · exact hL.posted_legal j hj

/-- One more request of a stage before the last. -/
theorem post (hL : Lockstep V s h awake q posted c) (hq : q ≠ .minTime) (hi : i ∈ awake) (hp : i ∉ posted)
    (hl : S.legal i (S.shown i (h i)) = true) :
    ∃ s' c' q' posted', s.step S.group C i = .ok s' ∧ Lockstep V s' h awake q' posted' c' ∧ s'.log = s.log ∧
      SameOthers c c' ∧ ((q' = q ∧ posted' = insert i posted) ∨
        (q' = q.next ∧ posted' = ∅ ∧ insert i posted = awake)) := by
  obtain ⟨c', out, hh, hcol⟩ := hL.collect hq hi hp
  have hv : c'.validContexts = true := hcol.others.valid ▸ hL.valid
  have hw : c'.worldSizes = awake.card := hcol.others.worldSizes ▸ hL.worldSizes
  rcases hcol.outcome with ⟨hun, rfl, ht⟩ | ⟨hall, h2, ha, ht⟩
  · obtain ⟨s', hs, hL', hlog⟩ := hL.waits hi hp hl hh hv hw hcol.sentTotal hcol.recvTotal ht fun he => (hun he).1
    exact ⟨s', c', q, _, hs, hL', hlog, hcol.others, .inl ⟨rfl, rfl⟩⟩
  · have hlegal : ∀ j ∈ awake, S.legal j (S.shown j (h j)) = true := by
      intro j hj
      rcases Finset.mem_insert.mp (hall ▸ hj) with rfl | hj
      · exact hl
      · exact hL.posted_legal j hj
    have hresume : ∀ j ∈ awake, (s.resumed C out j).2 = none ∧ V.At j q.next (h j) (s.resumed C out j).1 := by
      intro j hj
      rw [System.resumed_of_mem ha hj]
      exact V.resume (hL.awake_at j hj) hq (hL.clocked j (List.mem_toFinset.mp (hL.awake_subset hj))) (hlegal j hj)
    have hlog := System.after_log_quiet (i := i) (r := S.asks V.final q i (h i))
      (b := { s.broker with ctxs := [c'] }) fun e he =>
        (hresume e.1 (ha.mem_iff.mp (List.mem_map.mpr ⟨e, he, rfl⟩))).1
    have hpend : answer (Pending.post s.pending i (S.asks V.final q i (h i))) (out.map Prod.fst) =
        V.waiting h awake q.next ∅ := by
      rw [hL.pending, Conversation.waiting_post, hall, Conversation.waiting_answer _ ha.addressees]
    refine ⟨_, c', q.next, ∅, hL.step_eq hi hp hl hh, ?_, hlog, hcol.others, .inr ⟨rfl, rfl, hall⟩⟩
    refine ⟨hL.worldSize, rfl, hv, hw, hcol.sentTotal, hcol.recvTotal, hL.awake_subset, hL.netSim_awake,
      Finset.empty_subset _, hpend, show Tables (answer _ _) c' from hpend ▸ ht,
      fun j hj => (hresume j hj).2, ?_, by simp, hL.clocked, fun _ => h2, ?_⟩
    · intro j hj
      show V.At j .minTime (h j) (s.resumed C out j).1
      rw [System.resumed_of_not_mem ha (Finset.mem_sdiff.mp hj).2]
      exact hL.left_at j hj
    · rintro rfl
      simp

end Lockstep

/-! ## The last stage -/

namespace Scenario

open NextEvent

variable {ι : Type} [LinearOrder ι] (S : Scenario ι)

/-- The next event of a simulator. -/
def event (i : ι) (h : List TIME) : TIME := S.nextTime i (S.shown i h)

/-- The grants so far: the net sim is granted every round's time. -/
def histories (rs : List (Round ι TIME)) (hist : ι → List TIME) (i : ι) : List TIME :=
  if i = S.group.netSim then (rs.map Round.time).reverse else hist i

/-- Who is granted a round's time. -/
def grants (r : Round ι TIME) (i : ι) : Option TIME :=
  if i = S.group.netSim ∨ i ∈ r.served then some r.time else none

/-- The last round's time. -/
def last (rs : List (Round ι TIME)) : TIME := (rs.map Round.time).reverse.headD 0

variable {S} {rs : List (Round ι TIME)} {hist : ι → List TIME} {r : Round ι TIME} {i : ι}

theorem histories_netSim : S.histories rs hist S.group.netSim = (rs.map Round.time).reverse := if_pos rfl

theorem histories_of_ne (hi : i ≠ S.group.netSim) : S.histories rs hist i = hist i := if_neg hi

theorem proposal_histories (hi : i ≠ S.group.netSim) :
    S.proposal i (S.histories rs hist i) = due S.event hist i := by
  rw [proposal_of_ne hi, histories_of_ne hi]
  rfl

theorem histories_snoc : S.histories (rs ++ [r]) (serve hist r) i =
    if i = S.group.netSim ∨ i ∈ r.served then r.time :: S.histories rs hist i else S.histories rs hist i := by
  by_cases hi : i = S.group.netSim
  · simp [histories, hi]
  · by_cases hs : i ∈ r.served <;> simp [histories, hi, serve, hs]

end Scenario

open NextEvent Scenario in
/-- A system in lockstep whose rounds so far are those of the next-event schedule. -/
structure Underway {ι σ : Type} [LinearOrder ι] {S : Scenario ι} {C : Client ι σ} (V : Conversation S C)
    (s : System ι σ) (rs : List (Round ι TIME)) (hist : ι → List TIME) (awake : Finset ι) (q : Stage)
    (posted : Finset ι) (c : Context ι) : Prop where
  lockstep : Lockstep V s (S.histories rs hist) awake q posted c
  schedule : Schedule S.ticks S.event rs hist
  log : s.log = rs.map S.grants
  late : ∀ i ∈ S.ticks, S.legal i (S.shown i (hist i)) = true → last rs < due S.event hist i
  /-- The net sim is never awake on its own. -/
  company : 1 < S.group.size → 1 < awake.card

namespace Underway

open NextEvent Scenario

variable {ι σ : Type} [LinearOrder ι] {S : Scenario ι} {C : Client ι σ} {V : Conversation S C} {s : System ι σ}
  {rs : List (Round ι TIME)} {h hist : ι → List TIME} {awake posted : Finset ι} {q : Stage} {c : Context ι} {i : ι}
  {t : TIME}

/-- How far a round has come. -/
def progress (S : Scenario ι) (q : Stage) (posted : Finset ι) : ℕ := q.index * S.group.size + posted.card

theorem card_le (hL : Lockstep V s h awake q posted c) : awake.card ≤ S.group.size := by
  have := Finset.card_le_card hL.awake_subset
  rwa [List.toFinset_card_of_nodup S.group.nodup] at this

/-- One more request of a stage before the last. -/
theorem post (hU : Underway V s rs hist awake q posted c) (hq : q ≠ .minTime) (hi : i ∈ awake) (hp : i ∉ posted)
    (hl : S.legal i (S.shown i (S.histories rs hist i)) = true) :
    ∃ s' c' q' posted', s.step S.group C i = .ok s' ∧ Underway V s' rs hist awake q' posted' c' ∧
      SameOthers c c' ∧ (q' = .minTime → posted' = ∅) ∧ progress S q posted < progress S q' posted' := by
  obtain ⟨s', c', q', posted', hs, hL, hlog, hother, hnext⟩ := hU.lockstep.post hq hi hp hl
  refine ⟨s', c', q', posted', hs, ⟨hL, hU.schedule, hlog.trans hU.log, hU.late, hU.company⟩, hother, ?_, ?_⟩
  · rcases hnext with ⟨rfl, -⟩ | ⟨-, h, -⟩
    · exact fun h => absurd h hq
    · exact fun _ => h
  · have hcard := Finset.card_insert_of_notMem hp
    rcases hnext with ⟨rfl, rfl⟩ | ⟨rfl, rfl, hall⟩
    · simp only [progress, hcard]
      omega
    · have hle := card_le hU.lockstep
      rw [← hall, hcard] at hle
      cases q <;> simp only [progress, Stage.next, Stage.index, Finset.card_empty] <;> first
        | exact absurd rfl hq
        | omega

/-- At the last stage every simulator has made a legal call. -/
theorem legal (hU : Underway V s rs hist awake .minTime posted c) (hi : i ∈ S.group.members) :
    V.At i .minTime (S.histories rs hist i) (s.locals i) ∧
      S.legal i (S.shown i (S.histories rs hist i)) = true := by
  have hat : V.At i .minTime (S.histories rs hist i) (s.locals i) := by
    by_cases ha : i ∈ awake
    · exact hU.lockstep.awake_at i ha
    · exact hU.lockstep.left_at i (Finset.mem_sdiff.mpr ⟨List.mem_toFinset.mpr hi, ha⟩)
  exact ⟨hat, V.legal hat (by simp)⟩

theorem legal_tick (hU : Underway V s rs hist awake .minTime posted c) (hi : i ∈ S.ticks) :
    S.legal i (S.shown i (hist i)) = true := by
  have := (hU.legal (mem_ticks.mp hi).1).2
  rwa [histories_of_ne (mem_ticks.mp hi).2] at this

/-- The round a minimum of `t` stands for. -/
def round (S : Scenario ι) (hist : ι → List TIME) (t : TIME) : Round ι TIME :=
  ⟨t, S.ticks.filter fun i => due S.event hist i = t⟩

theorem mem_served : i ∈ (round S hist t).served ↔ i ∈ S.ticks ∧ due S.event hist i = t := Finset.mem_filter

/-- The minimum of all proposals is the time of the next round. -/
theorem isNext (hU : Underway V s rs hist awake .minTime posted c)
    (ht : IsLeast ((fun i => S.proposal i (S.histories rs hist i)) '' S.group.members.toFinset) t) :
    IsNext S.ticks S.event hist (round S hist t) ∧ last rs < t ∧ t < Infinity ∧
      t + (S.integrator S.group.netSim).offset < ulongSize := by
  -- the net sim's `Infinity` is not the minimum
  obtain ⟨i, hi⟩ : ∃ i, i ∈ S.ticks := by
    obtain ⟨i, hi, hne⟩ := Finset.exists_mem_ne (hU.lockstep.together (by simp)) S.group.netSim
    exact ⟨i, mem_ticks.mpr ⟨List.mem_toFinset.mp (hU.lockstep.awake_subset hi), hne⟩⟩
  have hfin : ∀ {j}, j ∈ S.ticks → due S.event hist j < Infinity ∧
      due S.event hist j + (S.integrator S.group.netSim).offset < ulongSize := by
    intro j hj
    have hl := hU.legal_tick hj
    simp only [Scenario.legal, Bool.and_eq_true, Bool.or_eq_true, decide_eq_true_eq, (mem_ticks.mp hj).2,
      false_or] at hl
    exact hl.2
  have hle : ∀ {j}, j ∈ S.ticks → t ≤ due S.event hist j := by
    intro j hj
    obtain ⟨hm, hne⟩ := mem_ticks.mp hj
    exact ht.2 ⟨j, Finset.mem_coe.mpr (List.mem_toFinset.mpr hm), proposal_histories hne⟩
  obtain ⟨k, hk, hkt⟩ := ht.1
  have hkn : k ≠ S.group.netSim := by
    rintro rfl
    have : t = Infinity := by rw [← hkt]; exact if_pos rfl
    exact absurd (hle hi) (not_le.mpr (this ▸ (hfin hi).1))
  have hkm : k ∈ S.ticks := mem_ticks.mpr ⟨List.mem_toFinset.mp (Finset.mem_coe.mp hk), hkn⟩
  have hkd : due S.event hist k = t := (proposal_histories hkn).symm.trans hkt
  refine ⟨⟨⟨⟨k, hkm, hkd⟩, ?_⟩, rfl⟩, hkd ▸ hU.late k hkm (hU.legal_tick hkm), hkd ▸ (hfin hkm).1,
    hkd ▸ (hfin hkm).2⟩
  rintro - ⟨j, hj, rfl⟩
  exact hle hj

/-- The clocks once the round has been granted. -/
theorem clocked (hU : Underway V s rs hist awake .minTime posted c)
    (hf : t + (S.integrator S.group.netSim).offset < ulongSize) (hi : i ∈ S.group.members)
    (hg : i = S.group.netSim ∨ i ∈ (round S hist t).served) : S.Clocked i (t :: S.histories rs hist i) := by
  rcases hg with rfl | hg
  · exact .cons_netSim hf
  · obtain ⟨hti, hd⟩ := mem_served.mp hg
    have hne := (mem_ticks.mp hti).2
    refine (hU.lockstep.clocked i hi).cons (hU.legal hi).2 ?_
    rw [← hd, ← proposal_histories hne, proposal_of_ne hne]

theorem clocked_snoc (hU : Underway V s rs hist awake .minTime posted c)
    (hf : t + (S.integrator S.group.netSim).offset < ulongSize) (hi : i ∈ S.group.members) :
    S.Clocked i (S.histories (rs ++ [round S hist t]) (serve hist (round S hist t)) i) := by
  rw [histories_snoc]
  by_cases hg : i = S.group.netSim ∨ i ∈ (round S hist t).served
  · rw [if_pos hg]
    exact hU.clocked hf hi hg
  · rw [if_neg hg]
    exact hU.lockstep.clocked i hi

theorem late_snoc (hU : Underway V s rs hist awake .minTime posted c)
    (hr : IsNext S.ticks S.event hist (round S hist t))
    (hf : t + (S.integrator S.group.netSim).offset < ulongSize) (hi : i ∈ S.ticks)
    (hl : S.legal i (S.shown i (serve hist (round S hist t) i)) = true) :
    t < due S.event (serve hist (round S hist t)) i := by
  obtain ⟨hm, hne⟩ := mem_ticks.mp hi
  by_cases hs : i ∈ (round S hist t).served
  · have hserve : serve hist (round S hist t) i = t :: hist i := if_pos hs
    have hc := hU.clocked hf hm (.inr hs)
    rw [histories_of_ne hne] at hc
    rw [hserve] at hl
    have := hc.lt_nextTime hl
    rw [due, hserve]
    exact this
  · have hserve : serve hist (round S hist t) i = hist i := if_neg hs
    have : due S.event hist i ≠ t := fun he => hs (mem_served.mpr ⟨hi, he⟩)
    rw [due, hserve]
    exact lt_of_le_of_ne (hr.time_le hi) this.symm

/-- What a simulator is granted is later than what it was granted before. -/
theorem lt_of_granted (hU : Underway V s rs hist awake .minTime posted c) (hlt : last rs < t)
    (hi : i ∈ S.group.members) (hg : i = S.group.netSim ∨ i ∈ (round S hist t).served) :
    (S.histories rs hist i).headD 0 < t ∧ (i ≠ S.group.netSim → t = S.proposal i (S.histories rs hist i)) := by
  rcases hg with rfl | hg
  · rw [histories_netSim]
    exact ⟨hlt, fun hn => absurd rfl hn⟩
  · obtain ⟨hti, hd⟩ := mem_served.mp hg
    have hne := (mem_ticks.mp hti).2
    have hprop : S.proposal i (S.histories rs hist i) = t := (proposal_histories hne).trans hd
    refine ⟨?_, fun _ => hprop.symm⟩
    have := (hU.lockstep.clocked i hi).lt_nextTime (hU.legal hi).2
    rwa [← proposal_of_ne hne, hprop] at this

/-- The unanswered requests once `who` have been answered at the last stage. -/
theorem waiting_finish {r : Round ι TIME} {who : Finset ι} {l : List ι} (hsub : awake ⊆ S.group.members.toFinset)
    (hl : l.toFinset = who) (hg : ∀ j, j = S.group.netSim ∨ j ∈ r.served → j ∈ who)
    (hfinal : ∀ j ∈ S.group.members.toFinset \ who, V.final = fun t => .reduceMinTimeSleep t false) :
    answer (V.waiting (S.histories rs hist) awake .minTime awake) l =
      V.waiting (S.histories (rs ++ [r]) (serve hist r)) who .barrier ∅ := by
  funext j
  subst hl
  by_cases hj : j ∈ l.toFinset
  · simp [answer, Conversation.waiting, List.mem_toFinset.mp hj]
  · have hsame : S.histories (rs ++ [r]) (serve hist r) j = S.histories rs hist j := by
      rw [histories_snoc, if_neg fun h => hj (hg j h)]
    have hjl : j ∉ l := fun h => hj (List.mem_toFinset.mpr h)
    by_cases hm : j ∈ S.group.members.toFinset
    · have hf := hfinal j (Finset.mem_sdiff.mpr ⟨hm, hj⟩)
      have hm' := List.mem_toFinset.mp hm
      by_cases ha : j ∈ awake <;> simp [answer, Conversation.waiting, hjl, hm', ha, hsame, Scenario.asks, hf]
    · have ha : j ∉ awake := fun ha => hm (hsub ha)
      have hm' : j ∉ S.group.members := fun h => hm (List.mem_toFinset.mpr h)
      simp [answer, Conversation.waiting, hjl, hm', ha]

/-- Each of `who` takes up the minimum: it is granted it, or goes back to the barrier. -/
theorem resumes (hU : Underway V s rs hist awake .minTime posted c) {out : Replies ι} {who : Finset ι}
    (ht : IsLeast ((fun i => S.proposal i (S.histories rs hist i)) '' S.group.members.toFinset) t)
    (ha : Answered out who fun _ => .time t) (hsub : who ⊆ S.group.members.toFinset)
    (hothers : ∀ j ∈ who, ¬ (j = S.group.netSim ∨ j ∈ (round S hist t).served) →
      (C.resume j (s.locals j) (.time t)).2 = none ∧
        V.At j .barrier (S.histories rs hist j) (C.resume j (s.locals j) (.time t)).1) (hi : i ∈ who) :
    (s.resumed C out i).2 = S.grants (round S hist t) i ∧
      V.At i .barrier (S.histories (rs ++ [round S hist t]) (serve hist (round S hist t)) i) (s.resumed C out i).1 := by
  obtain ⟨-, hlt, hfin, hf⟩ := hU.isNext ht
  have hm := List.mem_toFinset.mp (hsub hi)
  rw [System.resumed_of_mem ha hi, histories_snoc, grants]
  by_cases hg : i = S.group.netSim ∨ i ∈ (round S hist t).served
  · obtain ⟨h1, h2⟩ := hU.lt_of_granted hlt hm hg
    rw [if_pos hg, if_pos hg]
    exact V.grant (hU.legal hm).1 (hU.clocked hf hm hg) h1 hfin h2
  · rw [if_neg hg, if_neg hg]
    exact hothers i hi hg

/-- The last request of a round: the broker answers `who`, among them the net
sim and the simulators at the minimum `t`, which are granted it; the others of
`who` go back to the barrier. -/
theorem finish (hU : Underway V s rs hist awake .minTime posted c) (hi : i ∈ awake) (hp : i ∉ posted)
    (hall : insert i posted = awake) {c' : Context ι} {out : Replies ι} {who : Finset ι}
    (hh : c.handle S.group.size i (S.asks V.final .minTime i (S.histories rs hist i)) = .ok (c', out))
    (ht : IsLeast ((fun i => S.proposal i (S.histories rs hist i)) '' S.group.members.toFinset) t)
    (ha : Answered out who fun _ => .time t) (hsub : who ⊆ S.group.members.toFinset)
    (hg : ∀ j, j = S.group.netSim ∨ j ∈ (round S hist t).served → j ∈ who)
    (hothers : ∀ j ∈ who, ¬ (j = S.group.netSim ∨ j ∈ (round S hist t).served) →
      (C.resume j (s.locals j) (.time t)).2 = none ∧
        V.At j .barrier (S.histories rs hist j) (C.resume j (s.locals j) (.time t)).1)
    (hfinal : ∀ j ∈ S.group.members.toFinset \ who, V.final = fun t => .reduceMinTimeSleep t false)
    (hv : c'.validContexts = true) (hw : c'.worldSizes = who.card) (hsent : c'.reduceSentTotal = 0)
    (hrecv : c'.reduceRecvTotal = 0)
    (htab : Tables (answer (V.waiting (S.histories rs hist) awake .minTime awake) (out.map Prod.fst)) c') :
    ∃ s', s.step S.group C i = .ok s' ∧
      Underway V s' (rs ++ [round S hist t]) (serve hist (round S hist t)) who .barrier ∅ c' := by
  have hL := hU.lockstep
  obtain ⟨hnext, hlt, hfin, hf⟩ := hU.isNext ht
  have hresume := fun j hj => hU.resumes ht ha hsub hothers (i := j) hj
  have hkeep : ∀ j, j ∉ who → s.resumed C out j = (s.locals j, none) ∧
      S.histories (rs ++ [round S hist t]) (serve hist (round S hist t)) j = S.histories rs hist j := by
    intro j hj
    rw [histories_snoc, if_neg fun h => hj (hg j h)]
    exact ⟨System.resumed_of_not_mem ha hj, rfl⟩
  have hpend : answer (Pending.post s.pending i (S.asks V.final .minTime i (S.histories rs hist i))) (out.map Prod.fst) =
      answer (V.waiting (S.histories rs hist) awake .minTime awake) (out.map Prod.fst) := by
    rw [hL.pending, Conversation.waiting_post, hall]
  have hwait : answer (V.waiting (S.histories rs hist) awake .minTime awake) (out.map Prod.fst) = _ :=
    waiting_finish hL.awake_subset ha.addressees hg hfinal
  have hlegal : S.legal i (S.shown i (S.histories rs hist i)) = true := hL.legal_of_ne (by simp) hi
  refine ⟨_, hL.step_eq hi hp hlegal hh, ⟨?_, hU.schedule.snoc hnext, ?_, ?_, fun _ => ?_⟩⟩
  · refine ⟨hL.worldSize, rfl, hv, hw, hsent, hrecv, hsub, hg _ (.inl rfl), Finset.empty_subset _,
      hpend.trans hwait, show Tables (answer _ _) c' from hpend ▸ htab, fun j hj => (hresume j hj).2, ?_, by simp,
      fun j hm => hU.clocked_snoc hf hm, by simp, ?_⟩
    · intro j hj
      obtain ⟨hm, hjw⟩ := Finset.mem_sdiff.mp hj
      obtain ⟨h1, h2⟩ := hkeep j hjw
      show V.At j .minTime _ (s.resumed C out j).1
      rw [h1, h2]
      exact (hU.legal (List.mem_toFinset.mp hm)).1
    · rintro rfl
      simp
  · have hnet := hresume S.group.netSim (hg _ (.inl rfl))
    have hlog := System.after_log (s := s) (C := C) (i := i)
      (r := S.asks V.final .minTime i (S.histories rs hist i)) (b := { s.broker with ctxs := [c'] })
      (ha.mem_iff.mpr (hg _ (.inl rfl))) (by rw [hnet.1]; simp [grants])
    rw [hlog, hU.log, List.map_append, List.map_singleton]
    congr 2
    funext j
    by_cases hj : j ∈ who
    · exact (hresume j hj).1
    · rw [(hkeep j hj).1, grants, if_neg fun h => hj (hg j h)]
  · intro j hj hl
    have : last (rs ++ [round S hist t]) = t := by simp [last, round]
    rw [this]
    exact hU.late_snoc hnext hf hj hl
  · obtain ⟨k, hk⟩ := hnext.served_nonempty
    exact Finset.one_lt_card.mpr ⟨S.group.netSim, hg _ (.inl rfl), k, hg k (.inr hk),
      (mem_ticks.mp (mem_served.mp hk).1).2.symm⟩

/-- Somebody has yet to ask. -/
theorem exists_idle (hU : Underway V s rs hist awake q posted c) (h2 : 1 < S.group.size) :
    ∃ i ∈ S.group.members, s.pending i = none := by
  have hL := hU.lockstep
  have hne : posted ≠ awake := fun he => absurd (hL.unfinished he) (not_le.mpr (hU.company h2))
  obtain ⟨i, hi, hp⟩ := Finset.exists_of_ssubset (hL.posted_subset.ssubset_of_ne hne)
  have hm := List.mem_toFinset.mp (hL.awake_subset hi)
  exact ⟨i, hm, (hL.idle_iff hm).mpr ⟨hi, hp⟩⟩

theorem progress_le (hU : Underway V s rs hist awake q posted c) : progress S q posted ≤ 4 * S.group.size := by
  have h1 := Finset.card_le_card hU.lockstep.posted_subset
  have h2 := card_le hU.lockstep
  cases q <;> simp only [progress, Stage.index] <;> omega

/-- The last request of a round. -/
theorem progress_last (hU : Underway V s rs hist awake .minTime posted c) (hi : i ∈ awake) (hp : i ∉ posted) :
    progress S .minTime posted < 4 * S.group.size := by
  have h1 := Finset.card_le_card (Finset.insert_subset hi hU.lockstep.posted_subset)
  rw [Finset.card_insert_of_notMem hp] at h1
  have h2 := card_le hU.lockstep
  simp only [progress, Stage.index]
  omega

/-- Everybody connected, nobody has asked. -/
theorem start (V : Conversation S C) {locals : ι → σ} (hat : ∀ i, V.At i .barrier [] (locals i)) :
    Underway V (System.start S.group.formed locals) [] (fun _ => []) S.group.members.toFinset .barrier ∅
      S.group.context := by
  have hnil : ∀ i, S.histories [] (fun _ => []) i = [] := fun i => by simp [histories]
  have hcard : S.group.members.toFinset.card = S.group.size := List.toFinset_card_of_nodup S.group.nodup
  have hpend : (System.start S.group.formed locals).pending =
      V.waiting (S.histories [] fun _ => []) S.group.members.toFinset .barrier ∅ := by
    funext i
    simp [System.start, Conversation.waiting]
  refine ⟨⟨rfl, rfl, rfl, hcard.symm, rfl, rfl, subset_rfl, ?_, Finset.empty_subset _, hpend,
    (Agrees.formed S.group).tables, fun i _ => by rw [hnil]; exact hat i, by simp, by simp, fun i _ => by rw [hnil]; exact .nil, by simp, ?_⟩,
    .nil, rfl, fun i _ hl => Clocked.nil.lt_nextTime hl, fun h2 => hcard ▸ h2⟩
  · exact List.mem_toFinset.mpr S.group.netSim_mem
  · intro he
    simp [← he]

end Underway

end Fncs

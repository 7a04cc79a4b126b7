/-
The active-set algorithm refines the plain one: message-free runs of the two,
whatever the order in which the requests reach the broker, grant the same
times to the same simulators, round by round. Both are the next-event schedule
of the simulators' requests; a simulator that waits busily in the plain
algorithm is one whose last proposal the broker remembers in the other.
-/
import Fncs.Sync.Lockstep
import Fncs.Broker.ActiveSet

namespace Fncs

open Broker Pending NextEvent

variable {ι : Type} [LinearOrder ι] {S : Scenario ι} {i : ι} {h : List TIME}

/-! ## What the two have in common -/

/-- A call that has seen no difference, in locals with these values. -/
structure InCall (S : Scenario ι) (i : ι) (h : List TIME) (needToRespond : Bool) (nextTime : TIME) : Prop where
  tick : i ≠ S.group.netSim
  legal : S.legal i (S.shown i h) = true
  needToRespond : needToRespond = false
  nextTime : nextTime = S.nextTime i (S.shown i h)

/-- The net sim in a call. -/
structure NetInCall (S : Scenario ι) (i : ι) (h : List TIME) : Prop where
  netSim : i = S.group.netSim
  legal : S.legal i (S.shown i h) = true

namespace Sim

variable {Loc Pc : Type} {x : Sim Loc}

/-- A simulator after the grants `h`, `Stands` saying where it is at the stage. -/
structure At (Stands : Stage → Loc → Prop) (S : Scenario ι) (i : ι) (q : Stage) (h : List TIME) (x : Sim Loc) :
    Prop where
  grants : x.grants = S.shown i h
  grantedTime : x.grantedTime = h.headD 0
  stands : Stands q x.loc

/-- A legal call does not return at once. -/
theorem call_eq {tick net : Entry Pc} {stopped : Pc} (hg : x.grants = S.shown i h) (ht : x.grantedTime = h.headD 0)
    (hc : S.Clocked i h) (hl : S.legal i (S.shown i h) = true)
    (htick : ∀ g t, g ≤ t → tick.returnsAtOnce g t = false) (hnet : ∀ g t, g ≤ t → net.returnsAtOnce g t = false) :
    x.call S tick net stopped i = (if i = S.group.netSim then net else tick).goes (h.headD 0)
      (S.nextTime i (S.shown i h)) := by
  have hle := (hc.lt_nextTime hl).le
  have honce : (if i = S.group.netSim then net else tick).returnsAtOnce (h.headD 0) (S.nextTime i (S.shown i h)) =
      false := by
    split
    · exact hnet _ _ hle
    · exact htick _ _ hle
  simp only [call, hg, ht, honce, hc.currentTime, Bool.false_eq_true, if_false]

/-- After a grant the next step starts with its barrier. -/
theorem returned_eq {goto : Sim Loc → Pc → Sim Loc} {timeStepStart : Pc} {call : Sim Loc → Pc} {t : TIME}
    (hg : x.grants = S.shown i h) (hc : S.Clocked i (t :: h)) :
    x.returned S goto timeStepStart call i t =
      goto { x with grants := S.shown i (t :: h), grantedTime := t } timeStepStart := by
  have hs : (S.integrator i).toSimTime t :: x.grants = S.shown i (t :: h) := by rw [hg]; rfl
  simp only [returned, hs, hc.currentTime, List.headD_cons, lt_self_iff_false, if_false]

end Sim

/-! ## The plain simulators -/

namespace PlainSim

/-- A call that has seen no difference. -/
abbrev InCall (S : Scenario ι) (i : ι) (h : List TIME) (l : GracePeriodSyncAlgo.Locals) : Prop :=
  Fncs.InCall S i h l.needToRespond l.nextTime

/-- Where a simulator is at each stage. -/
def Stands (S : Scenario ι) (i : ι) (h : List TIME) : Stage → Loc → Prop
  | .barrier, .timeStepStart => True
  | .barrier, .waitforAll l => InCall S i h l
  | .sendRecv, .sendRecv l => InCall S i h l
  | .networkDelay, .networkDelay l d => InCall S i h l ∧ d = 0
  | .minTime, .minTime l => InCall S i h l ∧ l.nextEstTime = S.nextTime i (S.shown i h)
  | .sendRecv, .netSendRecv | .networkDelay, .netNetworkDelay _ | .minTime, .netMinTime => NetInCall S i h
  | _, _ => False

abbrev At (S : Scenario ι) (i : ι) (q : Stage) (h : List TIME) (x : Sim Loc) : Prop := x.At (Stands S i h) S i q h

theorem call_stands {x : Sim Loc} (hg : x.grants = S.shown i h) (ht : x.grantedTime = h.headD 0)
    (hc : S.Clocked i h) (hl : S.legal i (S.shown i h) = true) : Stands S i h .sendRecv (call S i x) := by
  rw [call, Sim.call_eq hg ht hc hl (fun _ _ => decide_eq_false ∘ not_lt.mpr) fun _ _ => decide_eq_false ∘ not_lt.mpr]
  split
  · next hi => exact ⟨hi, hl⟩
  · next hi => exact ⟨hi, hl, rfl, rfl⟩

theorem returned_at {x : Sim Loc} {t : TIME} (hg : x.grants = S.shown i h) (hc : S.Clocked i (t :: h)) :
    At S i .barrier (t :: h) (returned S i x t) := by
  rw [returned, Sim.returned_eq hg hc]
  exact ⟨rfl, rfl, trivial⟩

/-- The plain simulators pass through the stages. -/
def conversation (S : Scenario ι) : Conversation S (client S) where
  At := At S
  final := .reduceMinTime
  legal := by
    rintro i q h ⟨g, t, loc⟩ ⟨-, -, hs⟩ hq
    cases q <;> cases loc <;> first
      | exact absurd rfl hq
      | exact hs.elim
      | exact hs.legal
      | exact hs.1.legal
  request := by
    rintro i q h ⟨g, t, loc⟩ ⟨rfl, -, hs⟩
    show request S i _ = _
    cases q <;> cases loc <;> first
      | exact hs.elim
      | rfl
      | (have hl := hs.legal; simp [request, hl, Scenario.asks]; done)
      | (have hl := hs.1.legal; simp [request, hl, Scenario.asks]; done)
      | (rw [if_pos hs.1.legal]; simp only [request, hs.2, Scenario.asks, Scenario.proposal_of_ne hs.1.tick])
      | (rw [if_pos hs.legal]; simp only [request, Scenario.asks, Scenario.proposal, if_pos hs.netSim]; rfl)
  resume := by
    rintro i q h ⟨g, t, loc⟩ ⟨hg, ht, hs⟩ hq hc hl
    show (resume S i _ _).2 = none ∧ At S i _ h (resume S i _ _).1
    cases q <;> cases loc <;> first
      | exact absurd rfl hq
      | exact hs.elim
      | exact ⟨rfl, hg, ht, call_stands hg ht hc hl⟩
      | exact ⟨rfl, hg, ht, hs⟩
      | exact ⟨rfl, hg, ht, hs, rfl⟩
      | skip
    next l d =>
      obtain ⟨hin, rfl⟩ := hs
      have hp : GracePeriodSyncAlgo.propose (S.integrator i) 0 l = { l with nextEstTime := l.nextTime } :=
        if_pos ⟨rfl, hin.needToRespond⟩
      refine ⟨rfl, hg, ht, ?_⟩
      show InCall S i h _ ∧ _
      rw [hp]
      exact ⟨⟨hin.tick, hin.legal, hin.needToRespond, hin.nextTime⟩, hin.nextTime⟩
  grant := by
    rintro i h ⟨g, t', loc⟩ t ⟨hg, ht', hs⟩ hc hlt hfin ht
    show (resume S i _ _).2 = some t ∧ At S i .barrier (t :: h) (resume S i _ _).1
    cases loc <;> first
      | exact hs.elim
      | skip
    · next l =>
      obtain ⟨hin, he⟩ := hs
      have : l.nextEstTime = t := by rw [he, ht hin.tick, Scenario.proposal_of_ne hin.tick]
      have hcon := GracePeriodSyncAlgo.conclude_eq (g := S.integrator i) (l := l)
        (this ▸ Nat.pos_iff_ne_zero.mp (Nat.zero_lt_of_lt hlt))
      rw [this] at hcon
      simp only [resume, hcon]
      exact ⟨trivial, returned_at hg hc⟩
    · have hcon : CommunicatorSimulatorSyncalgo.conclude t = .returned t := if_neg hfin.ne
      simp only [resume, hcon]
      exact ⟨trivial, returned_at hg hc⟩

/-- A simulator that is not at the minimum goes back to the barrier. -/
theorem busy {x : Sim Loc} {t : TIME} (hx : At S i .minTime h x) (hi : i ≠ S.group.netSim) (h0 : t ≠ 0)
    (hlt : t < S.proposal i h) :
    ((client S).resume i x (.time t)).2 = none ∧ At S i .barrier h ((client S).resume i x (.time t)).1 := by
  obtain ⟨g, t', loc⟩ := x
  obtain ⟨hg, ht', hs⟩ := hx
  show (resume S i _ _).2 = none ∧ At S i .barrier h (resume S i _ _).1
  cases loc <;> first
    | exact hs.elim
    | exact absurd hs.netSim hi
    | skip
  next l =>
    obtain ⟨hin, he⟩ := hs
    have hcon := GracePeriodSyncAlgo.conclude_lt (g := S.integrator i) (l := l) h0
      (by rw [he, ← Scenario.proposal_of_ne hi]; exact hlt)
    simp only [resume, hcon]
    exact ⟨trivial, hg, ht', hin.tick, hin.legal, hin.needToRespond, hin.nextTime⟩

end PlainSim

/-! ## The active-set simulators -/

namespace ActiveSim

/-- A call that has seen no difference. -/
abbrev InCall (S : Scenario ι) (i : ι) (h : List TIME) (l : ActiveSetConservativeTick.Locals) : Prop :=
  Fncs.InCall S i h l.needToRespond l.nextTime

/-- Where a simulator is at each stage. -/
def Stands (S : Scenario ι) (i : ι) (h : List TIME) : Stage → Pc → Prop
  | .barrier, .timeStepStart => True
  | .sendRecv, .sendRecv l => InCall S i h l
  | .networkDelay, .networkDelay l d => InCall S i h l ∧ d = 0
  | .minTime, .minTimeWithSleep l => InCall S i h l ∧ l.nextEstTime = S.nextTime i (S.shown i h)
  | .sendRecv, .netSendRecv _ | .networkDelay, .netNetworkDelay _ _ | .minTime, .netMinTimeWithSleep _ =>
    NetInCall S i h
  | _, _ => False

/-- No simulator sends a message. -/
abbrev At (S : Scenario ι) (i : ι) (q : Stage) (h : List TIME) (x : Sim Loc) : Prop :=
  x.At (fun q loc => loc.sentMessage = false ∧ Stands S i h q loc.pc) S i q h

theorem call_stands {x : Sim Loc} (hg : x.grants = S.shown i h) (ht : x.grantedTime = h.headD 0)
    (hc : S.Clocked i h) (hl : S.legal i (S.shown i h) = true) : Stands S i h .sendRecv (call S i x) := by
  rw [call, Sim.call_eq hg ht hc hl (fun _ _ => decide_eq_false ∘ not_lt.mpr) fun _ _ => decide_eq_false ∘ not_lt.mpr]
  split
  · next hi => exact ⟨hi, hl⟩
  · next hi => exact ⟨hi, hl, rfl, rfl⟩

theorem returned_at {x : Sim Loc} {t : TIME} (hg : x.grants = S.shown i h) (hm : x.loc.sentMessage = false)
    (hc : S.Clocked i (t :: h)) : At S i .barrier (t :: h) (returned S i x t) := by
  rw [returned, Sim.returned_eq hg hc]
  exact ⟨rfl, rfl, hm, trivial⟩

/-- The active-set simulators pass through the stages. -/
def conversation (S : Scenario ι) : Conversation S (client S) where
  At := At S
  final := fun t => .reduceMinTimeSleep t false
  legal := by
    rintro i q h ⟨g, t, pc, m⟩ ⟨-, -, -, hs⟩ hq
    cases q <;> cases pc <;> first
      | exact absurd rfl hq
      | exact hs.elim
      | exact hs.legal
      | exact hs.1.legal
  request := by
    rintro i q h ⟨g, t, pc, m⟩ ⟨rfl, -, rfl, hs⟩
    show request S i _ = _
    cases q <;> cases pc <;> first
      | exact hs.elim
      | rfl
      | (rw [if_pos hs.legal]; rfl)
      | (rw [if_pos hs.1.legal]; rfl)
      | (rw [if_pos hs.1.legal]; simp only [request, hs.2, Scenario.asks, Scenario.proposal_of_ne hs.1.tick])
      | (rw [if_pos hs.legal]; simp only [request, Scenario.asks, Scenario.proposal, if_pos hs.netSim]; rfl)
  resume := by
    rintro i q h ⟨g, t, pc, m⟩ ⟨hg, ht, hm, hs⟩ hq hc hl
    show (resume S i _ _).2 = none ∧ At S i _ h (resume S i _ _).1
    cases q <;> cases pc <;> first
      | exact absurd rfl hq
      | exact hs.elim
      | exact ⟨rfl, hg, ht, hm, call_stands hg ht hc hl⟩
      | exact ⟨rfl, hg, ht, hm, hs⟩
      | exact ⟨rfl, hg, ht, hm, hs, rfl⟩
      | skip
    next l d =>
      obtain ⟨hin, rfl⟩ := hs
      have hp : ActiveSetConservativeTick.propose (S.integrator i) 0 l = { l with nextEstTime := l.nextTime } :=
        if_pos ⟨rfl, hin.needToRespond⟩
      refine ⟨rfl, hg, ht, hm, ?_⟩
      show InCall S i h _ ∧ _
      rw [hp]
      exact ⟨⟨hin.tick, hin.legal, hin.needToRespond, hin.nextTime⟩, hin.nextTime⟩
  grant := by
    rintro i h ⟨g, t', pc, m⟩ t ⟨hg, ht', hm, hs⟩ hc hlt hfin ht
    show (resume S i _ _).2 = some t ∧ At S i .barrier (t :: h) (resume S i _ _).1
    cases pc <;> first
      | exact hs.elim
      | skip
    · next l =>
      obtain ⟨hin, he⟩ := hs
      have : l.nextEstTime = t := by rw [he, ht hin.tick, Scenario.proposal_of_ne hin.tick]
      have hcon : ActiveSetConservativeTick.conclude (S.integrator i) t l = .returned t := by
        rw [ActiveSetConservativeTick.conclude, this, if_neg (lt_irrefl t)]
      simp only [resume, hcon]
      exact ⟨trivial, returned_at hg rfl hc⟩
    · have hne : t ≠ t' := by
        rw [show t' = h.headD 0 from ht']
        exact hlt.ne'
      have hcon : ActiveSetConservativeCom.conclude (S.integrator i) t' t = .returned t := if_neg hne
      simp only [resume, hcon]
      exact ⟨trivial, returned_at hg hm hc⟩

end ActiveSim

/-! ## The last reduction -/

section Last

variable {rs : List (Round ι TIME)} {hist : ι → List TIME} {awake posted : Finset ι} {c : Context ι}

/-- One more request of the plain algorithm's last reduction: it waits, or completes a round. -/
theorem plain_last {s : System ι (Sim PlainSim.Loc)}
    (hU : Underway (PlainSim.conversation S) s rs hist S.group.members.toFinset .minTime posted c)
    (hi : i ∈ S.group.members.toFinset) (hp : i ∉ posted) :
    ∃ s' c', s.step S.group (PlainSim.client S) i = .ok s' ∧
      (Underway (PlainSim.conversation S) s' rs hist S.group.members.toFinset .minTime (insert i posted) c' ∨
        ∃ r hist', Underway (PlainSim.conversation S) s' (rs ++ [r]) hist' S.group.members.toFinset .barrier ∅ c') := by
  have hL := hU.lockstep
  have hl := hL.legal_of_ne (by simp) hi
  have ht : Tables _ (c.enter i (.reduceMinTime (S.proposal i (S.histories rs hist i)))) := hL.enter hi hp rfl
  have hidle := (hL.idle_iff (List.mem_toFinset.mp hi)).mpr ⟨hi, hp⟩
  have hpart : Participants ((PlainSim.conversation S).waiting (S.histories rs hist) S.group.members.toFinset .minTime
      (insert i posted)) .reduceMinTime (insert i posted) fun j => S.proposal j (S.histories rs hist j) :=
    Conversation.waiting_participants (by simp [Scenario.asks, PlainSim.conversation, eq_comm]) (by simp)
  have hh : c.handle S.group.size i (.reduceMinTime (S.proposal i (S.histories rs hist i))) =
      reduceMinTimeChecker (c.enter i (.reduceMinTime (S.proposal i (S.histories rs hist i)))) :=
    reduceMinTimeHandler_eq hL.valid (hL.tables.reduceMinTime.not_mem_dom hidle)
  by_cases hall : insert i posted = S.group.members.toFinset
  · rw [hall] at hpart ht
    obtain ⟨m, hmin, hok, ha⟩ := reduceMinTimeChecker_releases ht hL.worldSizes hpart ⟨i, hi⟩
    obtain ⟨hnext, hlt, -, -⟩ := hU.isNext hmin
    have hbusy : ∀ j ∈ S.group.members.toFinset,
        ¬ (j = S.group.netSim ∨ j ∈ (Underway.round S hist m).served) →
        ((PlainSim.client S).resume j (s.locals j) (.time m)).2 = none ∧
          PlainSim.At S j .barrier (S.histories rs hist j) ((PlainSim.client S).resume j (s.locals j) (.time m)).1 := by
      intro j hj hn
      have hne : j ≠ S.group.netSim := fun h => hn (.inl h)
      have hm := List.mem_toFinset.mp hj
      have htick := Scenario.mem_ticks.mpr ⟨hm, hne⟩
      refine PlainSim.busy (hU.legal hm).1 hne (Nat.pos_iff_ne_zero.mp (Nat.zero_lt_of_lt hlt)) ?_
      rw [Scenario.proposal_histories hne]
      exact lt_of_le_of_ne (hnext.time_le htick) fun h => hn (.inr (Underway.mem_served.mpr ⟨htick, h.symm⟩))
    obtain ⟨s', hs, hU'⟩ := hU.finish hi hp hall (hh.trans hok) hmin ha subset_rfl
      (by
        rintro j (rfl | hj)
        · exact hL.netSim_awake
        · exact List.mem_toFinset.mpr (Scenario.mem_ticks.mp (Underway.mem_served.mp hj).1).1)
      hbusy (by simp) hL.valid hL.worldSizes hL.sentTotal hL.recvTotal (ht.released_minTime hpart ha.addressees)
    exact ⟨s', _, hs, .inr ⟨_, _, hU'⟩⟩
  · have hsub := (Finset.insert_subset hi hL.posted_subset).ssubset_of_ne hall
    obtain ⟨s', hs, hL', hlog⟩ := hL.waits hi hp hl (hh.trans (reduceMinTimeChecker_waits ht hL.worldSizes hpart hsub))
      hL.valid hL.worldSizes hL.sentTotal hL.recvTotal ht fun he => absurd he hall
    exact ⟨s', _, hs, .inl ⟨hL', hU.schedule, hlog.trans hU.log, hU.late, hU.company⟩⟩

/-! The broker's memory of the simulators left waiting. -/

/-- The unanswered submissions of the active-set reduction. -/
def submissions (S : Scenario ι) (h : ι → List TIME) (awake : Finset ι) (q : Stage) (posted : Finset ι) (i : ι) :
    Option TimeBool :=
  if (q = .minTime ∧ i ∈ posted) ∨ i ∈ S.group.members.toFinset \ awake then some ⟨S.proposal i (h i), false⟩
  else none

/-- The entries of the active-set reduction in the course of a round. -/
abbrev Remembers (S : Scenario ι) (h : ι → List TIME) (awake : Finset ι) (q : Stage) (posted : Finset ι)
    (latest : ι → TIME) (c : Context ι) : Prop :=
  Tracks S.group (submissions S h awake q posted) (S.group.members.toFinset \ awake) latest c

theorem submissions_before {h : ι → List TIME} {q q' : Stage} {posted' : Finset ι} (hq : q ≠ .minTime)
    (hq' : q' = .minTime → posted' = ∅) : submissions S h awake q posted = submissions S h awake q' posted' := by
  funext i
  by_cases h : q' = .minTime
  · simp [submissions, hq, hq' h]
  · simp [submissions, hq, h]

theorem submissions_post {h : ι → List TIME} : post (submissions S h awake .minTime posted) i ⟨S.proposal i (h i), false⟩ =
    submissions S h awake .minTime (insert i posted) := by
  funext j
  by_cases hj : j = i
  · simp [post, submissions, hj]
  · simp [post, submissions, hj]

/-- The stages before the last leave the entries alone. -/
theorem Broker.Tracks.congr {g : HelloGroup ι} {p : ι → Option TimeBool} {left : Finset ι} {latest : ι → TIME}
    {c c' : Context ι} (h : Tracks g p left latest c) (hc : SameOthers c c') : Tracks g p left latest c' := by
  obtain ⟨h1, h2, h3, h4, h5, h6, h7⟩ := hc
  exact ⟨h1 ▸ h.valid, h2 ▸ h.netSimID, h3 ▸ h.contexts, h4 ▸ h.worldSizes, by rw [h5, h4]; exact h.sleepingSim,
    h.netSim_awake, h.left_subset, h.left_waits, h.members, by rw [h7]; exact h.incoming, by rw [h6]; exact h.state,
    by rw [h6]; exact h.remembered, h.latest⟩

/-- The active-set reduction touches its own entries only. -/
theorem reduceMinTimeSleepChecker_frame {n : ℕ} {c c' : Context ι} {out : Replies ι}
    (h : reduceMinTimeSleepChecker n c = .ok (c', out)) : ∃ ws ss st inc, c' = { c with
      worldSizes := ws, sleepingSim := ss, reduceMinTimeSleepState := st, reduceMinTimeSleepIncoming := inc } := by
  rcases checkSize_ok.mp h with ⟨-, hx⟩ | ⟨-, hrel⟩
  · obtain ⟨rfl, -⟩ := Prod.mk.inj hx
    exact ⟨_, _, _, _, rfl⟩
  · simp only at hrel
    split at hrel
    · cases hrel
    next tb htb =>
    split at hrel
    · unfold reduceMinTimeSleepWakeAll at hrel
      split at hrel
      · cases hrel
      · obtain ⟨rfl, -⟩ := Prod.mk.inj (Except.ok.inj hrel)
        exact ⟨_, _, _, _, rfl⟩
    · unfold reduceMinTimeSleepAdvance at hrel
      simp only at hrel
      split at hrel
      · cases hrel
      split at hrel
      · cases hrel
      split at hrel
      · cases hrel
      obtain ⟨rfl, -⟩ := Prod.mk.inj (Except.ok.inj hrel)
      exact ⟨_, _, _, _, rfl⟩

/-- The other tables do not hold submissions of the active-set reduction. -/
theorem Broker.Tables.post_minTimeSleep {p : ι → Option (Request ι)} {t : TIME} {m : Bool} (h : Tables p c)
    (hi : p i = none) : Tables (post p i (.reduceMinTimeSleep t m)) c := by
  obtain ⟨h1, h2, h3, h4, h5, h6, h7⟩ := h
  exact ⟨h1.post_other hi rfl, h2.post_other hi rfl, h3.post_other hi rfl, h4.post_other hi rfl,
    h5.post_other hi rfl, h6.post_other hi rfl, h7.post_other hi rfl⟩

theorem Broker.Tables.answer_minTimeSleep {p : ι → Option (Request ι)} {l : List ι} (h : Tables p c)
    (hl : ∀ j ∈ l, ∃ t m, p j = some (.reduceMinTimeSleep t m)) : Tables (answer p l) c := by
  obtain ⟨h1, h2, h3, h4, h5, h6, h7⟩ := h
  have other {α : Type} {m : OrdMap ι α} {sel : Request ι → Option α} (hm : Holds m sel p)
      (hs : ∀ t b, sel (.reduceMinTimeSleep t b) = none) : Holds m sel (answer p l) :=
    hm.answer_other fun j hj => by
      obtain ⟨t, b, hp⟩ := hl j hj
      exact ⟨_, hp, hs t b⟩
  exact ⟨other h1 fun _ _ => rfl, other h2 fun _ _ => rfl, other h3 fun _ _ => rfl, other h4 fun _ _ => rfl,
    other h5 fun _ _ => rfl, other h6 fun _ _ => rfl, other h7 fun _ _ => rfl⟩

variable {latest : ι → TIME}

/-- What a submission brings about. -/
theorem active_submit {s : System ι (Sim ActiveSim.Loc)}
    (hU : Underway (ActiveSim.conversation S) s rs hist awake .minTime posted c)
    (hT : Remembers S (S.histories rs hist) awake .minTime posted latest c) (hi : i ∈ awake) (hp : i ∉ posted) :
    ∃ c' out latest', c.handle S.group.size i (.reduceMinTimeSleep (S.proposal i (S.histories rs hist i)) false) =
        .ok (c', out) ∧
      (∃ ws ss st inc, c' = { c with
        worldSizes := ws, sleepingSim := ss, reduceMinTimeSleepState := st, reduceMinTimeSleepIncoming := inc }) ∧
      RoundOutcome S.group (submissions S (S.histories rs hist) awake .minTime (insert i posted))
        (S.group.members.toFinset \ awake) latest' c' out ∧
      Tracks S.group (answer (submissions S (S.histories rs hist) awake .minTime (insert i posted)) (out.map Prod.fst))
        (if out = [] then S.group.members.toFinset \ awake else S.group.members.toFinset.filter fun j =>
          (answer (submissions S (S.histories rs hist) awake .minTime (insert i posted)) (out.map Prod.fst) j).isSome)
        latest' c' ∧
      ∀ j ∈ S.group.members, (j ∈ insert i posted ∨ j ∉ awake) → latest' j = S.proposal j (S.histories rs hist j) := by
  have hm := List.mem_toFinset.mp (hU.lockstep.awake_subset hi)
  have hnone : submissions S (S.histories rs hist) awake .minTime posted i = none := by
    rw [submissions, if_neg]
    rintro (⟨-, h⟩ | h)
    · exact hp h
    · exact (Finset.mem_sdiff.mp h).2 hi
  have hpost := hT.post hm hnone (S.proposal i (S.histories rs hist i)) false
  rw [submissions_post] at hpost
  obtain ⟨c', out, hok, hout, ht⟩ := hpost.checker
  have hh : c.handle S.group.size i (.reduceMinTimeSleep (S.proposal i (S.histories rs hist i)) false) =
      .ok (c', out) :=
    (joinCollective_of_not hT.valid (OrdMap.not_contains_iff.mpr fun h => (hT.incoming_dom.mp h).2 hnone)).trans hok
  refine ⟨c', out, _, hh, ?_, hout, ht, fun j hj hpj => ?_⟩
  · obtain ⟨ws, ss, st, inc, rfl⟩ := reduceMinTimeSleepChecker_frame hok
    exact ⟨ws, ss, st, inc, rfl⟩
  · refine hpost.latest j ⟨S.proposal j (S.histories rs hist j), false⟩ (if_pos ?_)
    exact hpj.imp (fun h => ⟨rfl, h⟩) fun h => Finset.mem_sdiff.mpr ⟨List.mem_toFinset.mpr hj, h⟩

/-- Once everybody awake has asked, everybody is waiting. -/
theorem submissions_all {h : ι → List TIME} (hi : i ∈ S.group.members) :
    submissions S h awake .minTime awake i = some ⟨S.proposal i (h i), false⟩ :=
  if_pos (by by_cases ha : i ∈ awake <;> simp [ha, hi])

/-- The unanswered submissions once `who` have been answered. -/
theorem submissions_finish {r : Round ι TIME} {who : Finset ι} {l : List ι}
    (hsub : awake ⊆ S.group.members.toFinset) (hl : ∀ j, j ∈ l ↔ j ∈ who)
    (hg : ∀ j, j = S.group.netSim ∨ j ∈ r.served → j ∈ who) :
    answer (submissions S (S.histories rs hist) awake .minTime awake) l =
      submissions S (S.histories (rs ++ [r]) (serve hist r)) who .barrier ∅ := by
  funext j
  simp only [answer, hl]
  by_cases hjw : j ∈ who
  · simp [hjw, submissions]
  · rw [if_neg hjw]
    by_cases hjm : j ∈ S.group.members
    · rw [submissions_all hjm, submissions, Scenario.histories_snoc, if_neg fun h => hjw (hg j h)]
      simp [hjw, hjm]
    · have hja : j ∉ awake := fun h => hjm (List.mem_toFinset.mp (hsub h))
      simp [submissions, hjm, hja]

/-- Whoever is not answered is left waiting. -/
theorem submissions_left {h : ι → List TIME} {who : Finset ι} {l : List ι} (hl : ∀ j, j ∈ l ↔ j ∈ who) :
    (S.group.members.toFinset.filter fun j => (answer (submissions S h awake .minTime awake) l j).isSome) =
      S.group.members.toFinset \ who := by
  ext j
  rw [Finset.mem_filter, Finset.mem_sdiff]
  refine and_congr_right fun hj => ?_
  simp only [answer, submissions_all (List.mem_toFinset.mp hj), hl]
  by_cases hjw : j ∈ who <;> simp [hjw]

/-- Those whose latest submission is the minimum, and the net sim: the round's grants. -/
theorem mem_granted {latest' : ι → TIME}
    (hlat : ∀ j ∈ S.group.members, latest' j = S.proposal j (S.histories rs hist j)) :
    i ∈ S.group.members.toFinset.filter (fun j => latest' j = t ∨ j = S.group.netSim) ↔
      i ∈ S.group.members ∧ (i = S.group.netSim ∨ i ∈ (Underway.round S hist t).served) := by
  rw [Finset.mem_filter, List.mem_toFinset]
  refine and_congr_right fun hi => ?_
  rw [hlat i hi, or_comm]
  refine or_congr_right' fun hne => ?_
  rw [Scenario.proposal_histories hne, Underway.mem_served, Scenario.mem_ticks]
  simp [hi, hne]

/-- The other tables while the simulators wait for the last reduction. -/
theorem waiting_tables {s : System ι (Sim ActiveSim.Loc)}
    (hU : Underway (ActiveSim.conversation S) s rs hist awake .minTime posted c) (hi : i ∈ awake) (hp : i ∉ posted) :
    Tables (Conversation.waiting (ActiveSim.conversation S) (S.histories rs hist) awake .minTime
      (insert i posted)) c := by
  have hL := hU.lockstep
  have hidle := (hL.idle_iff (List.mem_toFinset.mp (hL.awake_subset hi))).mpr ⟨hi, hp⟩
  have := hL.tables.post_minTimeSleep (i := i) (t := S.proposal i (S.histories rs hist i)) (m := false) hidle
  rw [hL.pending] at this
  rwa [← Conversation.waiting_post]

/-- The last request of the active-set algorithm's last reduction completes a round. -/
theorem active_completes {s : System ι (Sim ActiveSim.Loc)}
    (hU : Underway (ActiveSim.conversation S) s rs hist awake .minTime posted c)
    (hT : Remembers S (S.histories rs hist) awake .minTime posted latest c) (hi : i ∈ awake) (hp : i ∉ posted)
    (hall : insert i posted = awake) :
    ∃ s' c' latest' r hist' awake', s.step S.group (ActiveSim.client S) i = .ok s' ∧
      Underway (ActiveSim.conversation S) s' (rs ++ [r]) hist' awake' .barrier ∅ c' ∧
      Remembers S (S.histories (rs ++ [r]) hist') awake' .barrier ∅ latest' c' := by
  have hL := hU.lockstep
  have htab := waiting_tables hU hi hp
  obtain ⟨c', out, latest', hh, ⟨ws, ss, st, inc, rfl⟩, hout, ht, hlatest⟩ := active_submit hU hT hi hp
  rw [hall] at hout ht hlatest htab
  have hlat : ∀ j ∈ S.group.members, latest' j = S.proposal j (S.histories rs hist j) := fun j hj =>
    hlatest j hj (Classical.em _)
  -- the broker answers the minimum of all proposals
  obtain ⟨t, hleast, ha⟩ := hout.minimum
    (fun j hj => by simp [submissions_all (List.mem_toFinset.mp (Finset.mem_sdiff.mp hj).1)])
    (by
      rintro ⟨-, j, hj, t, ht⟩
      rw [submissions_all (List.mem_toFinset.mp (Finset.mem_sdiff.mp hj).1)] at ht
      cases ht)
  have hmin : IsLeast ((fun j => S.proposal j (S.histories rs hist j)) '' S.group.members.toFinset) t := by
    rwa [← Set.image_congr fun j hj => hlat j (List.mem_toFinset.mp (Finset.mem_coe.mp hj))]
  have hmem := fun j => mem_granted (i := j) (t := t) hlat
  generalize S.group.members.toFinset.filter (fun j => latest' j = t ∨ j = S.group.netSim) = who at ha hmem
  have hsubset : who ⊆ S.group.members.toFinset := fun j hj => List.mem_toFinset.mpr ((hmem j).mp hj).1
  have hg : ∀ j, j = S.group.netSim ∨ j ∈ (Underway.round S hist t).served → j ∈ who := by
    intro j hj
    refine (hmem j).mpr ⟨?_, hj⟩
    rcases hj with rfl | hj
    · exact S.group.netSim_mem
    · exact (Scenario.mem_ticks.mp (Underway.mem_served.mp hj).1).1
  have hl : ∀ j, j ∈ out.map Prod.fst ↔ j ∈ who := fun j => ha.mem_iff
  rw [if_neg (ha.ne_nil (hg _ (.inl rfl))), submissions_left hl, submissions_finish hL.awake_subset hl hg] at ht
  have hw : ws = who.card := by
    rw [← Finset.inter_eq_right.mpr hsubset, ← Finset.inf_eq_inter, ← sdiff_sdiff_right_self]
    exact ht.worldSizes
  have hanswered : Tables (answer (Conversation.waiting (ActiveSim.conversation S) (S.histories rs hist) awake
      .minTime awake) (out.map Prod.fst)) c := by
    refine htab.answer_minTimeSleep fun j hj => ⟨S.proposal j (S.histories rs hist j), false, ?_⟩
    have hjm := hsubset ((hl j).mp hj)
    by_cases hja : j ∈ awake
    · exact if_pos hja
    · exact (if_neg hja).trans (if_pos (Finset.mem_sdiff.mpr ⟨hjm, hja⟩))
  obtain ⟨s', hs, hU'⟩ := hU.finish hi hp hall hh hmin ha hsubset hg
    (fun j hj hn => absurd ((hmem j).mp hj).2 hn) (fun _ _ => rfl) hL.valid hw hL.sentTotal hL.recvTotal
    ⟨hanswered.1, hanswered.2, hanswered.3, hanswered.4, hanswered.5, hanswered.6, hanswered.7⟩
  exact ⟨s', _, latest', _, _, who, hs, hU', ht⟩

/-- A request of the active-set algorithm's last reduction before the last one waits. -/
theorem active_waits {s : System ι (Sim ActiveSim.Loc)}
    (hU : Underway (ActiveSim.conversation S) s rs hist awake .minTime posted c)
    (hT : Remembers S (S.histories rs hist) awake .minTime posted latest c) (hi : i ∈ awake) (hp : i ∉ posted)
    (hall : insert i posted ≠ awake) :
    ∃ s' c' latest', s.step S.group (ActiveSim.client S) i = .ok s' ∧
      Underway (ActiveSim.conversation S) s' rs hist awake .minTime (insert i posted) c' ∧
      Remembers S (S.histories rs hist) awake .minTime (insert i posted) latest' c' := by
  have hL := hU.lockstep
  have htab := waiting_tables hU hi hp
  obtain ⟨c', out, latest', hh, ⟨ws, ss, st, inc, rfl⟩, hout, ht, -⟩ := active_submit hU hT hi hp
  have hsd : S.group.members.toFinset \ (S.group.members.toFinset \ awake) = awake := by
    rw [sdiff_sdiff_right_self, Finset.inf_eq_inter, Finset.inter_eq_right.mpr hL.awake_subset]
  obtain ⟨j, hj, hjp⟩ : ∃ j ∈ awake, j ∉ insert i posted := by
    by_contra hcon
    push Not at hcon
    exact hall ((Finset.insert_subset hi hL.posted_subset).antisymm hcon)
  have hnil : out = [] := hout.incomplete ⟨j, hsd.symm ▸ hj, by simp [submissions, hjp, hj]⟩
  subst hnil
  simp only [if_true, List.map_nil, answer_nil] at ht
  have hw : ws = awake.card := by rw [← hsd]; exact ht.worldSizes
  obtain ⟨s', hs, hL', hlog⟩ := hL.waits hi hp (hL.legal_of_ne (by simp) hi) hh hL.valid hw hL.sentTotal hL.recvTotal
    ⟨htab.1, htab.2, htab.3, htab.4, htab.5, htab.6, htab.7⟩ fun he => absurd he hall
  exact ⟨s', _, latest', hs, ⟨hL', hU.schedule, hlog.trans hU.log, hU.late, hU.company⟩, ht⟩

/-- One more request of the active-set algorithm's last reduction: it waits, or completes a round. -/
theorem active_last {s : System ι (Sim ActiveSim.Loc)}
    (hU : Underway (ActiveSim.conversation S) s rs hist awake .minTime posted c)
    (hT : Remembers S (S.histories rs hist) awake .minTime posted latest c) (hi : i ∈ awake) (hp : i ∉ posted) :
    ∃ s' c' latest', s.step S.group (ActiveSim.client S) i = .ok s' ∧
      ((Underway (ActiveSim.conversation S) s' rs hist awake .minTime (insert i posted) c' ∧
          Remembers S (S.histories rs hist) awake .minTime (insert i posted) latest' c') ∨
        ∃ r hist' awake', Underway (ActiveSim.conversation S) s' (rs ++ [r]) hist' awake' .barrier ∅ c' ∧
          Remembers S (S.histories (rs ++ [r]) hist') awake' .barrier ∅ latest' c') := by
  by_cases hall : insert i posted = awake
  · obtain ⟨s', c', latest', r, hist', awake', hs, hU', hT'⟩ := active_completes hU hT hi hp hall
    exact ⟨s', c', latest', hs, .inr ⟨r, hist', awake', hU', hT'⟩⟩
  · obtain ⟨s', c', latest', hs, hU', hT'⟩ := active_waits hU hT hi hp hall
    exact ⟨s', c', latest', hs, .inl ⟨hU', hT'⟩⟩

end Last

/-! ## Runs -/

/-- What holds after `n` requests: the grants are those of the next-event
schedule, whoever waits for nothing can ask next and is handled, somebody
waits for nothing unless the net sim is on its own, and no round takes more
requests than four for each simulator. -/
structure FollowsSchedule {Loc : Type} (S : Scenario ι) (C : Client ι (Sim Loc)) (n : ℕ) (s : System ι (Sim Loc)) :
    Prop where
  schedule : ∃ rs hist, Schedule S.ticks S.event rs hist ∧ s.log = rs.map S.grants
  handled : ∀ i ∈ S.group.members, s.pending i = none → S.legal i (s.locals i).grants = true →
    ∃ s', s.step S.group C i = .ok s'
  idle : 1 < S.group.size → ∃ i ∈ S.group.members, s.pending i = none
  rounds : n ≤ 4 * S.group.size * (s.log.length + 1)

/-- A run of the plain simulators after `n` requests. -/
def PlainRun (S : Scenario ι) (n : ℕ) (s : System ι (Sim PlainSim.Loc)) : Prop :=
  ∃ rs hist q posted c, Underway (PlainSim.conversation S) s rs hist S.group.members.toFinset q posted c ∧
    n ≤ 4 * S.group.size * rs.length + Underway.progress S q posted

/-- A run of the active-set simulators after `n` requests. -/
def ActiveSetRun (S : Scenario ι) (n : ℕ) (s : System ι (Sim ActiveSim.Loc)) : Prop :=
  ∃ rs hist awake q posted c latest, Underway (ActiveSim.conversation S) s rs hist awake q posted c ∧
    Remembers S (S.histories rs hist) awake q posted latest c ∧
    n ≤ 4 * S.group.size * rs.length + Underway.progress S q posted

theorem plain_step {n : ℕ} {s : System ι (Sim PlainSim.Loc)} (h : PlainRun S n s) (hm : i ∈ S.group.members)
    (hidle : s.pending i = none) (hl : S.legal i (s.locals i).grants = true) :
    ∃ s', s.step S.group (PlainSim.client S) i = .ok s' ∧ PlainRun S (n + 1) s' := by
  obtain ⟨rs, hist, q, posted, c, hU, hn⟩ := h
  obtain ⟨hi, hp⟩ := (hU.lockstep.idle_iff hm).mp hidle
  rw [Sim.At.grants (hU.lockstep.awake_at i hi)] at hl
  by_cases hq : q = .minTime
  · subst hq
    obtain ⟨s', c', hs, hU' | ⟨r, hist', hU'⟩⟩ := plain_last hU hi hp
    · refine ⟨s', hs, rs, hist, _, _, c', hU', ?_⟩
      simp only [Underway.progress, Finset.card_insert_of_notMem hp] at hn ⊢
      omega
    · refine ⟨s', hs, _, hist', _, _, c', hU', ?_⟩
      have := hU.progress_last hi hp
      simp only [List.length_append, List.length_singleton, Nat.mul_add]
      omega
  · obtain ⟨s', c', q', posted', hs, hU', -, -, hlt⟩ := hU.post hq hi hp hl
    exact ⟨s', hs, rs, hist, q', posted', c', hU', by omega⟩

theorem active_step {n : ℕ} {s : System ι (Sim ActiveSim.Loc)} (h : ActiveSetRun S n s) (hm : i ∈ S.group.members)
    (hidle : s.pending i = none) (hl : S.legal i (s.locals i).grants = true) :
    ∃ s', s.step S.group (ActiveSim.client S) i = .ok s' ∧ ActiveSetRun S (n + 1) s' := by
  obtain ⟨rs, hist, awake, q, posted, c, latest, hU, hT, hn⟩ := h
  obtain ⟨hi, hp⟩ := (hU.lockstep.idle_iff hm).mp hidle
  rw [Sim.At.grants (hU.lockstep.awake_at i hi)] at hl
  by_cases hq : q = .minTime
  · subst hq
    obtain ⟨s', c', latest', hs, ⟨hU', hT'⟩ | ⟨r, hist', awake', hU', hT'⟩⟩ := active_last hU hT hi hp
    · refine ⟨s', hs, rs, hist, awake, _, _, c', latest', hU', hT', ?_⟩
      simp only [Underway.progress, Finset.card_insert_of_notMem hp] at hn ⊢
      omega
    · refine ⟨s', hs, _, hist', awake', _, _, c', latest', hU', hT', ?_⟩
      have := hU.progress_last hi hp
      simp only [List.length_append, List.length_singleton, Nat.mul_add]
      omega
  · obtain ⟨s', c', q', posted', hs, hU', hc, hq', hlt⟩ := hU.post hq hi hp hl
    refine ⟨s', hs, rs, hist, awake, q', posted', c', latest, hU', ?_, by omega⟩
    rw [Remembers, ← submissions_before hq hq']
    exact hT.congr hc

theorem plain_run {ls : List ι} {s : System ι (Sim PlainSim.Loc)}
    (hr : Trace.run (System.step S.group (PlainSim.client S)) (System.start S.group.formed fun _ => PlainSim.start) ls =
      .ok s) : PlainRun S ls.length s := by
  have hstart : PlainRun S 0 (System.start S.group.formed fun _ => PlainSim.start) :=
    ⟨[], _, _, _, _, Underway.start (PlainSim.conversation S) fun _ => ⟨rfl, rfl, trivial⟩, Nat.zero_le _⟩
  have hrun := Trace.run_counted (fun n s i s' h hs => ?_) hstart hr
  · rwa [Nat.zero_add] at hrun
  · obtain ⟨⟨hm, hidle⟩, -⟩ := System.step_ok.mp hs
    obtain ⟨rs, hist, q, posted, c, hU, -⟩ := id h
    obtain ⟨hi, -, hl⟩ := hU.lockstep.of_step hs
    rw [← Sim.At.grants (hU.lockstep.awake_at i hi)] at hl
    obtain ⟨s'', hs', h'⟩ := plain_step h hm hidle hl
    cases hs.symm.trans hs'
    exact h'

theorem active_run {ls : List ι} {s : System ι (Sim ActiveSim.Loc)}
    (hr : Trace.run (System.step S.group (ActiveSim.client S)) (System.start S.group.formed fun _ => ActiveSim.start) ls =
      .ok s) : ActiveSetRun S ls.length s := by
  have hstart : ActiveSetRun S 0 (System.start S.group.formed fun _ => ActiveSim.start) := by
    refine ⟨[], _, _, _, _, _, fun _ => 0, Underway.start (ActiveSim.conversation S) fun _ => ⟨rfl, rfl, rfl, trivial⟩, ?_,
      Nat.zero_le _⟩
    have hnone : submissions S (S.histories [] fun _ => []) S.group.members.toFinset .barrier ∅ = fun _ => none := by
      funext i
      simp [submissions]
    rw [Remembers, hnone, Finset.sdiff_self]
    exact .formed S.group
  have hrun := Trace.run_counted (fun n s i s' h hs => ?_) hstart hr
  · rwa [Nat.zero_add] at hrun
  · obtain ⟨⟨hm, hidle⟩, -⟩ := System.step_ok.mp hs
    obtain ⟨rs, hist, awake, q, posted, c, latest, hU, -, -⟩ := id h
    obtain ⟨hi, -, hl⟩ := hU.lockstep.of_step hs
    rw [← Sim.At.grants (hU.lockstep.awake_at i hi)] at hl
    obtain ⟨s'', hs', h'⟩ := active_step h hm hidle hl
    cases hs.symm.trans hs'
    exact h'

theorem PlainRun.followsSchedule {n : ℕ} {s : System ι (Sim PlainSim.Loc)} (h : PlainRun S n s) :
    FollowsSchedule S (PlainSim.client S) n s := by
  obtain ⟨rs, hist, q, posted, c, hU, hn⟩ := id h
  refine ⟨⟨rs, hist, hU.schedule, hU.log⟩, fun i hm hidle hl => ?_, hU.exists_idle, ?_⟩
  · obtain ⟨s', hs, -⟩ := plain_step h hm hidle hl
    exact ⟨s', hs⟩
  · have := hU.progress_le
    rw [hU.log, List.length_map, Nat.mul_add]
    omega

theorem ActiveSetRun.followsSchedule {n : ℕ} {s : System ι (Sim ActiveSim.Loc)} (h : ActiveSetRun S n s) :
    FollowsSchedule S (ActiveSim.client S) n s := by
  obtain ⟨rs, hist, awake, q, posted, c, latest, hU, -, hn⟩ := id h
  refine ⟨⟨rs, hist, hU.schedule, hU.log⟩, fun i hm hidle hl => ?_, hU.exists_idle, ?_⟩
  · obtain ⟨s', hs, -⟩ := active_step h hm hidle hl
    exact ⟨s', hs⟩
  · have := hU.progress_le
    rw [hU.log, List.length_map, Nat.mul_add]
    omega

/-- Of two systems that follow the schedule, the one with fewer rounds has granted what the other had by then. -/
theorem FollowsSchedule.isPrefix {Loc Loc' : Type} {C : Client ι (Sim Loc)} {C' : Client ι (Sim Loc')} {n n' : ℕ}
    {s : System ι (Sim Loc)} {s' : System ι (Sim Loc')} (h : FollowsSchedule S C n s) (h' : FollowsSchedule S C' n' s')
    (hlen : s.log.length ≤ s'.log.length) : s.log <+: s'.log := by
  obtain ⟨rs, hist, hs, hlog⟩ := h.schedule
  obtain ⟨rs', hist', hs', hlog'⟩ := h'.schedule
  rw [hlog, hlog', List.length_map, List.length_map] at hlen
  rw [hlog, hlog']
  exact (hs.isPrefix hs' hlen).map _

/-- The active-set algorithm refines the plain one: in message-free runs of the
two, for any order of the requests, both follow the next-event schedule, so
that after equally many rounds the same simulators have been granted the same
times, round by round. -/
theorem active_set_refines_plain (S : Scenario ι) {b : Broker ι} {ls ls' : List ι}
    {s : System ι (Sim PlainSim.Loc)} {s' : System ι (Sim ActiveSim.Loc)}
    (hform : Trace.run advance (init S.group.size) S.group.frames = .ok b)
    (hplain : Trace.run (System.step S.group (PlainSim.client S)) (System.start b fun _ => PlainSim.start) ls = .ok s)
    (hactive : Trace.run (System.step S.group (ActiveSim.client S)) (System.start b fun _ => ActiveSim.start) ls' =
      .ok s') :
    FollowsSchedule S (PlainSim.client S) ls.length s ∧ FollowsSchedule S (ActiveSim.client S) ls'.length s' ∧
      (s.log.length ≤ s'.log.length → s.log <+: s'.log) ∧ (s'.log.length ≤ s.log.length → s'.log <+: s.log) := by
  rw [S.group.run_frames, Except.ok.injEq] at hform
  subst hform
  have h := (plain_run hplain).followsSchedule
  have h' := (active_run hactive).followsSchedule
  exact ⟨h, h', h.isPrefix h', h'.isPrefix h⟩

/-- Two simulators and the net sim: the first steps by 2, the second by 3. -/
def twoSteppers : Scenario ℕ where
  group := ⟨[0, 1, 2], by decide, 2, by decide⟩
  setup _ := ⟨⟨.nanoseconds, 0, 1, by decide, by decide⟩, Nat.one_pos⟩
  netSim_metric := rfl
  policy i grants := grants.headD 0 + (i + 2)

/-- Three rounds of each, in different orders. -/
def plainArrivals : List ℕ := (List.replicate 12 [0, 1, 2]).flatten

def activeArrivals : List ℕ :=
  (List.replicate 4 [2, 1, 0]).flatten ++ (List.replicate 4 [0, 2]).flatten ++ (List.replicate 4 [2, 1]).flatten

theorem active_set_refines_plain_two :
    ∃ s s', Trace.run (System.step twoSteppers.group (PlainSim.client twoSteppers))
        (System.start twoSteppers.group.formed fun _ => PlainSim.start) plainArrivals = .ok s ∧
      Trace.run (System.step twoSteppers.group (ActiveSim.client twoSteppers))
        (System.start twoSteppers.group.formed fun _ => ActiveSim.start) activeArrivals = .ok s' ∧
      s.log.length = 3 ∧ s'.log.length = 3 ∧ s.log <+: s'.log := by
  obtain ⟨s, hs, h3⟩ := Trace.exists_run_of_check (System.step twoSteppers.group (PlainSim.client twoSteppers))
    (System.start twoSteppers.group.formed fun _ => PlainSim.start) plainArrivals (fun s => s.log.length == 3) (by decide)
  obtain ⟨s', hs', h3'⟩ := Trace.exists_run_of_check (System.step twoSteppers.group (ActiveSim.client twoSteppers))
    (System.start twoSteppers.group.formed fun _ => ActiveSim.start) activeArrivals (fun s => s.log.length == 3)
    (by decide)
  have hl := beq_iff_eq.mp h3
  have hl' := beq_iff_eq.mp h3'
  have h := active_set_refines_plain twoSteppers twoSteppers.group.run_frames hs hs'
  exact ⟨s, s', hs, hs', hl, hl', h.2.2.1 (hl.trans hl'.symm).le⟩

end Fncs

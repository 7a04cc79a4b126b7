/-
What the broker refuses. In a group whose members make one request after the
other, awake or asleep, none of the checks that guard the collectives ever
fails but one: the comparison of the two totals once a round of
REDUCE_SEND_RECV is complete.
-/
import Fncs.Broker.Collect

namespace Fncs.Broker

open Pending

variable {ι : Type} [LinearOrder ι]

/-- The members without an unanswered SLEEP. -/
def HelloGroup.awake (g : HelloGroup ι) (p : ι → Option (Request ι)) : Finset ι :=
  g.members.toFinset.filter fun i => p i ≠ some .sleep

/-- All of `awake` wait in REDUCE_SEND_RECV, and with their reports more has been received than sent, as far as
64 bits can tell. -/
def RoundUnderflows (p : ι → Option (Request ι)) (awake : Finset ι) (sent recv : ℕ) : Prop :=
  ∃ val : ι → ℕ × ℕ, Participants p (fun v => .reduceSendRecv v.1 v.2) awake val ∧
    (sent + ∑ i ∈ awake, (val i).1) % ulongSize < (recv + ∑ i ∈ awake, (val i).2) % ulongSize

/-- `f` completes such a round. A SLEEP that leaves one member awake repeats no check. -/
def Underflows (g : HelloGroup ι) (s : Session ι) (f : Frame ι) : Prop :=
  (f.request = .sleep → (g.awake (s.posted f)).card ≠ 1) ∧
    RoundUnderflows (s.posted f) (g.awake (s.posted f)) s.sentSum s.recvSum

/-- Whatever comes next stops the broker only at a round that underflows, and there always. -/
def CollectivesAccepted (g : HelloGroup ι) (s : Session ι) : Prop :=
  ∀ f, collectivesOnly g.netSim s f = true → ∀ e,
    s.broker.step f.identity f.context f.request = .error e ↔ e = belowReceived ∧ Underflows g s f

section Checks

variable {g : HelloGroup ι} {p : ι → Option (Request ι)} {sent recv : ℕ} {c c' : Context ι} {out : Replies ι}

/-- The awake are those the collectives wait for. -/
theorem Agrees.awake_eq (h : Agrees g p sent recv c) : g.awake p = c.contexts.dom := by
  have hasleep : ∀ i, i ∈ c.asleep.dom ↔ p i = some .sleep := by
    intro i
    rw [h.tables.asleep.mem_dom]
    constructor
    · rintro ⟨r, u, hr, hs⟩
      rw [hr, Request.eq_of_asSleep hs]
    · exact fun hi => ⟨_, (), hi, rfl⟩
  ext i
  rw [HelloGroup.awake, Finset.mem_filter, ← h.roster.union, Finset.mem_union, ne_eq, ← hasleep i]
  constructor
  · exact fun ⟨hi, hn⟩ => hi.resolve_right hn
  · exact fun hi => ⟨.inl hi, Finset.disjoint_left.mp h.roster.disjoint hi⟩

/-- Everyone a collective waits in is among those it waits for. -/
theorem Agrees.size_le {α : Type} {m : OrdMap ι α} {sel : Request ι → Option α} (h : Agrees g p sent recv c)
    (hm : Holds m sel p) (hs : sel .sleep = none) : m.size ≤ c.worldSizes := by
  rw [h.roster.worldSizes, ← OrdMap.card_dom, ← OrdMap.card_dom]
  exact Finset.card_le_card (h.dom_subset hm hs)

theorem checkSize_accepts {k : Collective} {size need : ℕ} {release : Handled ι} (hle : size ≤ need)
    (hr : size = need → ∃ x, release = .ok x) : ∃ x, checkSize k size need c release = .ok x := by
  rcases hle.eq_or_lt with heq | hlt
  · obtain ⟨x, hx⟩ := hr heq
    exact ⟨x, checkSize_eq heq hx⟩
  · exact ⟨_, checkSize_lt hlt⟩

theorem Agrees.barrier_accepted (h : Agrees g p sent recv c) : ∃ x, barrierChecker c = .ok x := by
  refine checkSize_accepts (h.size_le h.tables.barrier rfl) fun _ => ?_
  split
  · exact ⟨_, rfl⟩
  · exact ⟨_, rfl⟩

theorem Agrees.reduceMinTime_accepted (h : Agrees g p sent recv c) : ∃ x, reduceMinTimeChecker c = .ok x := by
  refine checkSize_accepts (h.size_le h.tables.reduceMinTime rfl) fun hsize => ?_
  have hn : g.netSim ∈ c.reduceMinTime.dom := h.dom_eq h.tables.reduceMinTime rfl hsize ▸ h.roster.netSim_awake
  obtain ⟨t, ht⟩ := OrdMap.mem_dom.mp hn
  obtain ⟨e, he⟩ := minElement_isSome reduceMinPairLess (l := c.reduceMinTime.entries)
    (List.ne_nil_of_mem (OrdMap.lookup_eq_some.mp ht))
  exact ⟨_, by rw [he]⟩

theorem Agrees.reduceMinTimeAction_accepted (h : Agrees g p sent recv c) :
    ∃ x, reduceMinTimeActionChecker c = .ok x :=
  checkSize_accepts (h.size_le h.tables.reduceMinTimeAction rfl) fun _ => ⟨_, rfl⟩

theorem Agrees.allGather_accepted (h : Agrees g p sent recv c) : ∃ x, allGatherChecker c = .ok x := by
  have hle : c.allGather.size ≤ c.worldSizes := h.size_le h.tables.allGather rfl
  unfold allGatherChecker
  rw [if_neg (not_lt.mpr hle)]
  split
  · exact ⟨_, rfl⟩
  · exact ⟨_, rfl⟩

/-- What the two tables of a round add up to. -/
theorem Tables.sums (h : Tables p c) {who : Finset ι} {val : ι → ℕ × ℕ}
    (hp : Participants p (fun v => .reduceSendRecv v.1 v.2) who val) :
    c.reduceSent.vals.sum = ∑ i ∈ who, (val i).1 ∧ c.reduceRecv.vals.sum = ∑ i ∈ who, (val i).2 := by
  have key {m : OrdMap ι ℕ} {v : ι → ℕ} (hm : ∀ i, m.lookup i = if i ∈ who then some (v i) else none) :
      m.vals.sum = ∑ i ∈ who, v i := by
    have hd : m.dom = who := by
      ext i
      simp [OrdMap.mem_dom, hm i]
    have hsum := OrdMap.sum_vals m fun n => n
    rw [List.map_id', hd] at hsum
    rw [hsum]
    exact Finset.sum_congr rfl fun i hi => by simp [hm i, hi]
  exact ⟨key fun i => (h.lookup_sent hp i).1, key fun i => (h.lookup_sent hp i).2⟩

/-- A round is refused exactly when it underflows. -/
theorem Agrees.reduceSendRecv_refused (h : Agrees g p sent recv c) (e : Stop) :
    reduceSendRecvChecker c = .error e ↔ e = belowReceived ∧ RoundUnderflows p c.contexts.dom sent recv := by
  have hw : c.worldSizes = c.contexts.dom.card := by rw [OrdMap.card_dom, h.roster.worldSizes]
  rcases (h.dom_subset h.tables.reduceSent rfl).eq_or_ssubset with hdom | hsub
  · have hp := hdom ▸ h.tables.sendRecv_participants
    have hsize := size_eq (h.tables.dom_sent hp).1 hw
    have hrecv := size_eq (h.tables.dom_sent hp).2 hw
    have hunder : RoundUnderflows p c.contexts.dom sent recv ↔
        addTotal c.reduceSentTotal c.reduceSent.vals < addTotal c.reduceRecvTotal c.reduceRecv.vals := by
      rw [addTotal, addTotal, h.sentTotal, h.recvTotal, ← Nat.add_mod, ← Nat.add_mod]
      constructor
      · rintro ⟨val, hval, hlt⟩
        rwa [(h.tables.sums hval).1, (h.tables.sums hval).2]
      · intro hlt
        refine ⟨_, hp, ?_⟩
        rwa [← (h.tables.sums hp).1, ← (h.tables.sums hp).2]
    rw [hunder]
    unfold reduceSendRecvChecker checkSize
    rw [if_neg (not_lt.mpr hsize.le), if_pos hsize, if_neg (not_not.mpr hrecv)]
    dsimp only
    split
    · next hlt => exact ⟨fun he => ⟨(Except.error.inj he).symm, hlt⟩, fun he => he.1 ▸ rfl⟩
    · next hlt => exact ⟨fun he => (by cases he), fun he => absurd he.2 hlt⟩
  · -- somebody has yet to report
    have hidle : ¬ RoundUnderflows p c.contexts.dom sent recv := by
      rintro ⟨val, hval, -⟩
      exact hsub.ne (h.tables.dom_sent hval).1
    rw [reduceSendRecvChecker_waits h.tables hw h.tables.sendRecv_participants hsub]
    simp [hidle]

omit [LinearOrder ι] in
/-- Everybody awake takes part in a round. -/
theorem RoundUnderflows.asked {awake : Finset ι} {i : ι} (h : RoundUnderflows p awake sent recv) (hi : i ∈ awake) :
    ∃ s r, p i = some (.reduceSendRecv s r) := by
  obtain ⟨val, hval, -⟩ := h
  exact ⟨_, _, (hval i _).mpr ⟨hi, rfl⟩⟩

/-- There is no round while all the awake wait for something else. -/
theorem Agrees.not_round {α : Type} {m : OrdMap ι α} {sel : Request ι → Option α} {S R : ℕ}
    (h : Agrees g p sent recv c) (hm : Holds m sel p) (hs : sel .sleep = none)
    (hother : ∀ s r, sel (.reduceSendRecv s r) = none) (hsize : m.size = c.worldSizes) :
    ¬ RoundUnderflows p c.contexts.dom S R := by
  intro hu
  obtain ⟨s, r, hq⟩ := hu.asked h.roster.netSim_awake
  obtain ⟨q, a, hq', hsel⟩ := hm.mem_dom.mp (h.dom_eq hm hs hsize ▸ h.roster.netSim_awake)
  rw [hq, Option.some.injEq] at hq'
  rw [← hq', hother] at hsel
  cases hsel

/-- A round is not refused while the net sim waits for nothing. -/
theorem Agrees.reduceSendRecv_of_idle (h : Agrees g p sent recv c) (hidle : p g.netSim = none) {e : Stop} :
    reduceSendRecvChecker c ≠ .error e := by
  intro he
  obtain ⟨s, r, hq⟩ := ((h.reduceSendRecv_refused e).mp he).2.asked h.roster.netSim_awake
  cases hidle.symm.trans hq

/-- The checks of a SLEEP are refused as the one of the round is: once one before it releases, the net sim is in
no round. -/
theorem Agrees.sleepRecheck_refused (h : Agrees g p sent recv c) (e : Stop) :
    sleepRecheck c = .error e ↔
      e = belowReceived ∧ c.worldSizes ≠ 1 ∧ RoundUnderflows p c.contexts.dom sent recv := by
  unfold sleepRecheck
  split
  · next hw =>
    obtain ⟨⟨c₁, o₁⟩, h₁⟩ := h.barrier_accepted
    have hb := barrierChecker_checked h h₁
    obtain ⟨⟨c₂, o₂⟩, h₂⟩ := hb.agrees.reduceMinTime_accepted
    have hm := reduceMinTimeChecker_checked hb.agrees h₂
    have hlast : reduceSendRecvChecker c₂ = .error e ↔
        e = belowReceived ∧ RoundUnderflows p c.contexts.dom sent recv := by
      obtain ⟨hx, -⟩ | ⟨hsize, -, hx⟩ := barrierChecker_ok h₁
      · obtain ⟨rfl, rfl⟩ := Prod.mk.inj hx
        obtain ⟨hx, -⟩ | ⟨hsize, _, -, hx⟩ := reduceMinTimeChecker_ok h₂
        · obtain ⟨rfl, rfl⟩ := Prod.mk.inj hx
          exact h.reduceSendRecv_refused e
        · have hidle : Session.answered (Session.answered p []) o₂ g.netSim = none := by
            rw [(Prod.mk.inj hx).2]
            exact hb.agrees.answered_netSim hb.agrees.tables.reduceMinTime rfl hsize
          refine ⟨fun he => absurd he (hm.agrees.reduceSendRecv_of_idle hidle), fun he => absurd he.2 ?_⟩
          exact h.not_round h.tables.reduceMinTime rfl (fun _ _ => rfl) hsize
      · have hidle : Session.answered (Session.answered p o₁) o₂ g.netSim = none := by
          have hfirst : Session.answered p o₁ g.netSim = none := by
            rw [(Prod.mk.inj hx).2]
            exact h.answered_netSim h.tables.barrier rfl hsize
          show (if g.netSim ∈ o₂.map Prod.fst then none else Session.answered p o₁ g.netSim) = none
          rw [hfirst, ite_self]
        refine ⟨fun he => absurd he (hm.agrees.reduceSendRecv_of_idle hidle), fun he => absurd he.2 ?_⟩
        exact h.not_round h.tables.barrier rfl (fun _ _ => rfl) hsize
    have hne : (e = belowReceived ∧ c.worldSizes ≠ 1 ∧ RoundUnderflows p c.contexts.dom sent recv) ↔
        reduceSendRecvChecker c₂ = .error e := by
      rw [hlast]
      exact ⟨fun ⟨he, _, hu⟩ => ⟨he, hu⟩, fun ⟨he, hu⟩ => ⟨he, hw, hu⟩⟩
    rw [hne, h₁]
    dsimp only
    rw [h₂]
    dsimp only
    cases reduceSendRecvChecker c₂ <;> simp
  · next hw => simp [not_not.mp hw]

theorem Roster.size_eq (h : Roster g c) : c.worldSizes + c.asleep.size = g.size := by
  rw [h.worldSizes, ← OrdMap.card_dom, ← OrdMap.card_dom, ← Finset.card_union_of_disjoint h.disjoint, h.union,
    List.toFinset_card_of_nodup g.nodup, HelloGroup.size]

/-- The end of a SLEEP is never refused: the net sim is awake, so there are fewer sleepers than members. -/
theorem Agrees.sleepWakeAll_accepted (h : Agrees g p sent recv c) (out : Replies ι) :
    ∃ x, sleepWakeAll g.size c out = .ok x := by
  have hsum := h.roster.size_eq
  have hpos : 0 < c.worldSizes := by
    rw [h.roster.worldSizes, ← OrdMap.card_dom]
    exact Finset.card_pos.mpr ⟨_, h.roster.netSim_awake⟩
  unfold sleepWakeAll
  rw [if_neg hpos.ne', if_neg (by omega)]
  split
  · rw [if_neg (by omega)]
    exact ⟨_, rfl⟩
  · exact ⟨_, rfl⟩

/-- A SLEEP is refused as its checks are. -/
theorem sleepHandler_refused {i : ι} (h : Agrees g p sent recv (c.putToSleep i)) (hi : i ∉ c.asleep.dom) (e : Stop) :
    sleepHandler g.size c i = .error e ↔ sleepRecheck (c.putToSleep i) = .error e := by
  unfold sleepHandler
  rw [if_neg (by simpa [OrdMap.contains_iff] using hi)]
  split
  · next e' hr => rw [show sleepRecheck (c.putToSleep i) = .error e' from hr]
  · next c₁ out hr =>
    obtain ⟨y, hy⟩ := (sleepRecheck_checked h hr).agrees.sleepWakeAll_accepted out
    rw [show sleepRecheck (c.putToSleep i) = .ok (c₁, out) from hr, hy]
    simp

end Checks

section Runs

variable {g : HelloGroup ι} {s : Session ι} {c : Context ι}

/-- A broker with one context is stopped by that context's handler. -/
theorem onContext_error {b : Broker ι} {F : Context ι → Handled ι} (hc : b.ctxs = [c]) (e : Stop) :
    b.onContext 0 F = .error e ↔ F c = .error e := by
  have hget : b.context 0 = .ok c := context_ok.mpr (by simp [hc])
  unfold onContext
  simp only [hget, bind, Except.bind]
  cases F c <;> simp

theorem onContext_single {b b' : Broker ι} {F : Context ι → Handled ι} {out : Replies ι} {pubs : List Publication}
    (hc : b.ctxs = [c]) (h : b.onContext 0 F = .ok (b', out, pubs)) : ∃ c', F c = .ok (c', out) ∧ b'.ctxs = [c'] := by
  obtain ⟨c₀, c', out', hk, hF, hx⟩ := onContext_ok.mp h
  simp only [Prod.mk.injEq] at hx
  obtain ⟨rfl, rfl, -⟩ := hx
  simp only [hc, List.getElem?_cons_zero, Option.some.injEq] at hk
  subst hk
  exact ⟨c', hF, by simp [setContext, hc]⟩

/-- Who may ask, and what the checks of the request are run in. -/
theorem Agrees.asks {f : Frame ι} (h : Agrees g s.pending s.sentSum s.recvSum c) (hc : s.broker.ctxs = [c])
    (ha : collectivesOnly g.netSim s f = true) :
    f.context = 0 ∧ s.pending f.identity = none ∧ f.identity ∈ c.contexts.dom ∧ f.request.isCollective = true ∧
      (f.identity = g.netSim → f.request.notOfNetSim = false) ∧
      Agrees g (s.posted f) s.sentSum s.recvSum (c.enter f.identity f.request) := by
  simp only [collectivesOnly, Bool.and_eq_true, decide_eq_true_eq, Option.isNone_iff_eq_none,
    Bool.not_eq_true', Bool.and_eq_false_iff, decide_eq_false_iff_not] at ha
  obtain ⟨⟨⟨⟨⟨hk, hi⟩, hmem⟩, hr⟩, hf⟩, hn⟩ := ha
  have hm : f.identity ∈ g.members := by
    rw [← List.mem_toFinset, ← h.roster.union]
    simpa [isMember, hk, hc, OrdMap.contains_iff] using hmem
  have hnet (hin : f.identity = g.netSim) : f.request.notOfNetSim = false := hn.resolve_left fun hne => hne hin
  exact ⟨hk, hi, h.awake hm hi, hr, hnet, h.enter hi hm hr hf hnet⟩

theorem step_accepted (h : Agrees g s.pending s.sentSum s.recvSum c) (hw : s.broker.worldSize = g.size)
    (hc : s.broker.ctxs = [c]) : CollectivesAccepted g s := by
  intro f ha e
  obtain ⟨i, k, r⟩ := f
  obtain ⟨hk, hi, hin, hr, hn, he⟩ := h.asks hc ha
  dsimp only at hk hi hin hr hn he ⊢
  subst hk
  have hv := h.roster.valid
  have hawake : g.awake (s.posted ⟨i, 0, r⟩) = (c.enter i r).contexts.dom := he.awake_eq
  have hself : s.posted ⟨i, 0, r⟩ i = some r := if_pos rfl
  -- a handler that is never refused, of one of the other collectives
  have other {F : Context ι → Handled ι} (hF : ∃ x, F c = .ok x) (hin : i ∈ (c.enter i r).contexts.dom)
      (hne : ∀ s' r', r ≠ .reduceSendRecv s' r') :
      s.broker.onContext 0 F = .error e ↔ e = belowReceived ∧ Underflows g s ⟨i, 0, r⟩ := by
    obtain ⟨x, hx⟩ := hF
    rw [onContext_error hc, hx]
    refine ⟨fun hx => (by cases hx), fun hu => ?_⟩
    obtain ⟨s', r', hq⟩ := hu.2.2.asked (hawake ▸ hin)
    exact absurd (Option.some.inj (hself.symm.trans hq)) (hne s' r')
  unfold Broker.step
  rw [if_neg (by simp [hc])]
  cases r with
  | barrier =>
    refine other ?_ hin (fun _ _ => by simp)
    rw [barrierHandler_eq hv (h.tables.barrier.not_mem_dom hi)]
    exact he.barrier_accepted
  | reduceMinTime t =>
    refine other ?_ hin (fun _ _ => by simp)
    rw [reduceMinTimeHandler_eq hv (h.tables.reduceMinTime.not_mem_dom hi)]
    exact he.reduceMinTime_accepted
  | reduceMinTimeAction t a =>
    refine other ?_ hin (fun _ _ => by simp)
    rw [reduceMinTimeActionHandler,
      joinCollective_of_not hv (OrdMap.not_contains_iff.mpr (h.tables.reduceMinTimeAction.not_mem_dom hi))]
    exact he.reduceMinTimeAction_accepted
  | reduceSendRecv sent recv =>
    refine (onContext_error hc e).trans ?_
    rw [reduceSendRecvHandler_eq hv (h.tables.reduceSent.not_mem_dom hi)]
    refine (he.reduceSendRecv_refused e).trans ?_
    unfold Underflows
    rw [hawake]
    simp [Session.posted]
  | allGatherNextTime t =>
    refine other ?_ hin (fun _ _ => by simp)
    have hnet : some i ≠ c.netSimID := by
      rw [h.roster.netSimID]
      exact fun hx => absurd (hn (Option.some.inj hx)) (by simp [Request.notOfNetSim])
    unfold allGatherHandler
    rw [OrdMap.not_contains_iff.mpr (h.tables.allGather.not_mem_dom hi), if_neg (by simp), if_neg hnet,
      if_neg (by simp [hv])]
    exact he.allGather_accepted
  | sleep =>
    refine (onContext_error hc e).trans ?_
    rw [hw, sleepHandler_refused he (h.tables.asleep.not_mem_dom hi)]
    refine (he.sleepRecheck_refused e).trans ?_
    unfold Underflows
    rw [hawake]
    have hcard : (c.putToSleep i).worldSizes = (c.putToSleep i).contexts.dom.card := by
      rw [OrdMap.card_dom]
      exact he.roster.worldSizes
    simp [hcard, Session.posted, Context.enter]
  | _ => cases hr

/-- In every state that a run of the members' collectives and SLEEPs reaches. -/
theorem collectives_accepted (g : HelloGroup ι) {b : Broker ι} {fs : List (Frame ι)} {s : Session ι}
    (hform : Trace.run advance (init g.size) g.frames = .ok b)
    (hrun : Trace.run (Session.step (collectivesOnly g.netSim)) (Session.start b) fs = .ok s) :
    CollectivesAccepted g s := by
  rw [g.run_frames, Except.ok.injEq] at hform
  subst hform
  have hstart : SessionAgrees g (Session.start g.formed) := ⟨rfl, g.context, rfl, .formed g⟩
  obtain ⟨hw, c, hc, h⟩ :=
    Trace.run_invariant (I := SessionAgrees g) (fun _ _ _ h hs => step_agrees h hs) hstart hrun
  exact step_accepted h hw hc

/-- Three of the members have reported one message more received than sent; the fourth asks to sleep. -/
theorem collectives_accepted_short :
    ∃ s, Trace.run (Session.step (collectivesOnly 3)) (Session.start fourMembers.formed)
        [⟨0, 0, .reduceSendRecv 0 1⟩, ⟨1, 0, .reduceSendRecv 0 0⟩, ⟨3, 0, .reduceSendRecv 0 0⟩] = .ok s ∧
      collectivesOnly 3 s ⟨2, 0, .sleep⟩ = true ∧ s.broker.step 2 0 .sleep = .error belowReceived ∧
      CollectivesAccepted fourMembers s := by
  obtain ⟨s, hs, hcheck⟩ := Trace.exists_run_of_check (Session.step (collectivesOnly 3))
    (Session.start fourMembers.formed)
    [⟨0, 0, .reduceSendRecv 0 1⟩, ⟨1, 0, .reduceSendRecv 0 0⟩, ⟨3, 0, .reduceSendRecv 0 0⟩]
    (fun s => collectivesOnly 3 s ⟨2, 0, .sleep⟩ && decide (s.broker.step 2 0 .sleep = .error belowReceived)) (by decide)
  simp only [Bool.and_eq_true, decide_eq_true_eq] at hcheck
  exact ⟨s, hs, hcheck.1, hcheck.2, collectives_accepted fourMembers fourMembers.run_frames hs⟩

end Runs

/-! ## No collective stalls

When all the awake wait in one collective, the broker has answered it. A SLEEP repeats three of the five
checks, so the other two are only as complete as the sleepers let them be.
-/

/-- No collective that a SLEEP rechecks waits for nobody, and while nobody sleeps none does. -/
structure NoneStalls (g : HelloGroup ι) (s : Session ι) : Prop where
  awake : 1 < (g.awake s.pending).card
  barrier : ∃ i ∈ g.awake s.pending, s.pending i ≠ some .barrier
  reduceMinTime : ∃ i ∈ g.awake s.pending, ∀ t, s.pending i ≠ some (.reduceMinTime t)
  reduceSendRecv : ∃ i ∈ g.awake s.pending, ∀ sent recv, s.pending i ≠ some (.reduceSendRecv sent recv)
  reduceMinTimeAction : (∀ i, s.pending i ≠ some .sleep) →
    ∃ i ∈ g.awake s.pending, ∀ t a, s.pending i ≠ some (.reduceMinTimeAction t a)
  allGather : (∀ i, s.pending i ≠ some .sleep) →
    ∃ i ∈ (g.awake s.pending).erase g.netSim, ∀ t, s.pending i ≠ some (.allGatherNextTime t)

/-- What the checks leave of the tables. -/
structure Unstalled (c : Context ι) : Prop where
  worldSizes : 1 < c.worldSizes
  barrier : c.barrier.size < c.worldSizes
  reduceMinTime : c.reduceMinTime.size < c.worldSizes
  reduceSent : c.reduceSent.size < c.worldSizes
  reduceMinTimeAction : c.asleep = ∅ → c.reduceMinTimeAction.size < c.worldSizes
  allGather : c.asleep = ∅ → c.allGather.size < c.worldSizes - 1

section Stall

variable {g : HelloGroup ι} {p : ι → Option (Request ι)} {sent recv : ℕ} {c c' : Context ι} {out : Replies ι}

theorem HelloGroup.unstalled (g : HelloGroup ι) (hsize : 1 < g.size) : Unstalled g.context where
  worldSizes := hsize
  barrier := Nat.zero_lt_of_lt hsize
  reduceMinTime := Nat.zero_lt_of_lt hsize
  reduceSent := Nat.zero_lt_of_lt hsize
  reduceMinTimeAction _ := Nat.zero_lt_of_lt hsize
  allGather _ := Nat.sub_pos_of_lt hsize

/-! What each check leaves of its own table; the rest it leaves alone. -/

theorem barrierChecker_leaves (h : barrierChecker c = .ok (c', out)) (hw : 1 < c.worldSizes) :
    ∃ m, m.size < c.worldSizes ∧ c' = { c with barrier := m } := by
  obtain ⟨hx, hlt | hle⟩ | ⟨-, -, hx⟩ := barrierChecker_ok h
  · exact ⟨c.barrier, hlt, (Prod.mk.inj hx).1⟩
  · omega
  · exact ⟨∅, Nat.zero_lt_of_lt hw, (Prod.mk.inj hx).1⟩

theorem reduceMinTimeChecker_leaves (h : reduceMinTimeChecker c = .ok (c', out)) (hw : 1 < c.worldSizes) :
    ∃ m, m.size < c.worldSizes ∧ c' = { c with reduceMinTime := m } := by
  obtain ⟨hx, hlt⟩ | ⟨-, _, -, hx⟩ := reduceMinTimeChecker_ok h
  · exact ⟨c.reduceMinTime, hlt, (Prod.mk.inj hx).1⟩
  · exact ⟨∅, Nat.zero_lt_of_lt hw, (Prod.mk.inj hx).1⟩

theorem reduceMinTimeActionChecker_leaves (h : reduceMinTimeActionChecker c = .ok (c', out)) (hw : 1 < c.worldSizes) :
    ∃ m, m.size < c.worldSizes ∧ c' = { c with reduceMinTimeAction := m } := by
  obtain ⟨hx, hlt⟩ | ⟨-, hx⟩ := reduceMinTimeActionChecker_ok h
  · exact ⟨c.reduceMinTimeAction, hlt, (Prod.mk.inj hx).1⟩
  · exact ⟨∅, Nat.zero_lt_of_lt hw, (Prod.mk.inj hx).1⟩

theorem reduceSendRecvChecker_leaves (h : reduceSendRecvChecker c = .ok (c', out)) (hw : 1 < c.worldSizes) :
    ∃ S R m m', m.size < c.worldSizes ∧
      c' = { c with reduceSentTotal := S, reduceRecvTotal := R, reduceSent := m, reduceRecv := m' } := by
  obtain ⟨hx, hlt⟩ | ⟨-, -, hx⟩ := reduceSendRecvChecker_ok h
  · exact ⟨_, _, c.reduceSent, _, hlt, (Prod.mk.inj hx).1⟩
  · exact ⟨_, _, ∅, ∅, Nat.zero_lt_of_lt hw, (Prod.mk.inj hx).1⟩

theorem allGatherChecker_leaves (h : allGatherChecker c = .ok (c', out)) (hw : 1 < c.worldSizes)
    (hle : c.allGather.size ≤ c.worldSizes - 1) :
    ∃ m, m.size < c.worldSizes - 1 ∧ c' = { c with allGather := m } := by
  obtain ⟨hx, -, hne⟩ | ⟨-, hx⟩ := allGatherChecker_ok h
  · exact ⟨c.allGather, lt_of_le_of_ne hle hne, (Prod.mk.inj hx).1⟩
  · exact ⟨∅, Nat.sub_pos_of_lt hw, (Prod.mk.inj hx).1⟩

/-- The gather never waits in vain for more than those it is for. -/
theorem Agrees.gather_size_le (h : Agrees g p sent recv c) : c.allGather.size ≤ c.worldSizes - 1 := by
  rw [h.roster.worldSizes, ← OrdMap.card_dom, ← OrdMap.card_dom, ← Finset.card_erase_of_mem h.roster.netSim_awake]
  exact Finset.card_le_card h.gather_subset

/-- A SLEEP that leaves somebody awake beside the net sim has repeated the checks; after any other all wake, and
at most the net sim waits. -/
theorem sleepHandler_unstalled {i : ι} (h : Agrees g p sent recv (c.putToSleep i)) (hsize : 1 < g.size)
    (hc : sleepHandler g.size c i = .ok (c', out)) : Unstalled c' := by
  obtain ⟨-, c₁, o₁, hre, hwake⟩ := sleepHandler_ok hc
  have hch := sleepRecheck_checked h hre
  have hasleep : (c.putToSleep i).asleep ≠ ∅ := by
    intro he
    have hi : i ∈ (c.putToSleep i).asleep.dom := by simp [Context.putToSleep]
    rw [he] at hi
    cases hi
  generalize c.putToSleep i = c₀ at *
  have hsum := h.roster.size_eq
  have hsame := hch.same.worldSizes
  obtain ⟨-, ⟨hlt, hx⟩ | ⟨-, hw, hx⟩⟩ := sleepWakeAll_ok hwake <;> obtain ⟨rfl, rfl⟩ := Prod.mk.inj hx
  · rw [hch.same.asleep] at hlt
    have hw : 1 < c₀.worldSizes := by omega
    obtain ⟨hone, -⟩ | ⟨-, c₁, o₁, c₂, o₂, c₃, o₃, h₁, h₂, h₃, hx⟩ := sleepRecheck_ok hre
    · omega
    obtain ⟨m₁, hm₁, rfl⟩ := barrierChecker_leaves h₁ hw
    obtain ⟨m₂, hm₂, rfl⟩ := reduceMinTimeChecker_leaves h₂ hw
    obtain ⟨S, R, m₃, m₄, hm₃, rfl⟩ := reduceSendRecvChecker_leaves h₃ hw
    rw [(Prod.mk.inj hx).1]
    exact ⟨hw, hm₁, hm₂, hm₃, fun he => absurd he hasleep, fun he => absurd he hasleep⟩
  · -- one member awake: the checks were skipped, and the net sim is alone in what it waits for
    have hone : c₀.worldSizes = 1 := hsame.symm.trans hw
    obtain ⟨-, hx⟩ | ⟨hne, -⟩ := sleepRecheck_ok hre
    · obtain ⟨rfl, rfl⟩ := Prod.mk.inj hx
      have small {α : Type} {m : OrdMap ι α} {sel : Request ι → Option α} (hm : Holds m sel p)
          (hs : sel .sleep = none) : m.size < g.size := by
        have hle := h.size_le hm hs
        omega
      have hgather := h.gather_size_le
      refine ⟨hsize, small h.tables.barrier rfl, small h.tables.reduceMinTime rfl, small h.tables.reduceSent rfl,
        fun _ => small h.tables.reduceMinTimeAction rfl, fun _ => ?_⟩
      show c₁.allGather.size < g.size - 1
      omega
    · exact absurd hone hne

/-- Every request leaves the tables so. -/
theorem step_unstalled {s : Session ι} {f : Frame ι} {b' : Broker ι} {out : Replies ι} {pubs : List Publication}
    (hsize : 1 < g.size) (hw : s.broker.worldSize = g.size) (hc : s.broker.ctxs = [c])
    (h : Agrees g s.pending s.sentSum s.recvSum c) (hu : Unstalled c) (ha : collectivesOnly g.netSim s f = true)
    (hs : s.broker.step f.identity f.context f.request = .ok (b', out, pubs)) :
    ∃ c', b'.ctxs = [c'] ∧ Unstalled c' := by
  obtain ⟨i, k, r⟩ := f
  obtain ⟨hk, hi, -, hr, -, he⟩ := h.asks hc ha
  dsimp only at hk hi hr he hs
  subst hk
  have hv := h.roster.valid
  obtain ⟨h1, h2, h3, h4, h5, h6⟩ := hu
  unfold Broker.step at hs
  split at hs
  · cases hs
  cases r with
  | barrier =>
    obtain ⟨c', hb, hb'⟩ := onContext_single hc hs
    obtain ⟨m, hm, rfl⟩ := barrierChecker_leaves (barrierHandler_ok hv hb).2 h1
    exact ⟨_, hb', h1, hm, h3, h4, h5, h6⟩
  | reduceMinTime t =>
    obtain ⟨c', hb, hb'⟩ := onContext_single hc hs
    obtain ⟨m, hm, rfl⟩ := reduceMinTimeChecker_leaves (reduceMinTimeHandler_ok hv hb).2 h1
    exact ⟨_, hb', h1, h2, hm, h4, h5, h6⟩
  | reduceMinTimeAction t a =>
    obtain ⟨c', hb, hb'⟩ := onContext_single hc hs
    obtain ⟨m, hm, rfl⟩ := reduceMinTimeActionChecker_leaves (reduceMinTimeActionHandler_ok hv hb).2 h1
    exact ⟨_, hb', h1, h2, h3, h4, fun _ => hm, h6⟩
  | reduceSendRecv sent recv =>
    obtain ⟨c', hb, hb'⟩ := onContext_single hc hs
    obtain ⟨S, R, m, m', hm, rfl⟩ := reduceSendRecvChecker_leaves (reduceSendRecvHandler_ok hv hb).2 h1
    exact ⟨_, hb', h1, h2, h3, hm, h5, h6⟩
  | allGatherNextTime t =>
    obtain ⟨c', hb, hb'⟩ := onContext_single hc hs
    obtain ⟨m, hm, rfl⟩ := allGatherChecker_leaves (allGatherHandler_ok hv hb).2.2 h1 he.gather_size_le
    exact ⟨_, hb', h1, h2, h3, h4, h5, fun _ => hm⟩
  | sleep =>
    obtain ⟨c', hb, hb'⟩ := onContext_single hc hs
    exact ⟨c', hb', sleepHandler_unstalled he hsize (hw ▸ hb)⟩
  | _ => cases hr

theorem Agrees.noneStalls {s : Session ι} (h : Agrees g s.pending s.sentSum s.recvSum c) (hu : Unstalled c) :
    NoneStalls g s := by
  have hw : c.worldSizes = (g.awake s.pending).card := by rw [h.awake_eq, OrdMap.card_dom, h.roster.worldSizes]
  have hnone (hs : ∀ i, s.pending i ≠ some .sleep) : c.asleep = ∅ := by
    refine OrdMap.eq_empty_of_dom (Finset.eq_empty_of_forall_notMem fun i hi => ?_)
    obtain ⟨r, u, hr, hsl⟩ := h.tables.asleep.mem_dom.mp hi
    exact hs i (Request.eq_of_asSleep hsl ▸ hr)
  have htables := h.tables
  refine ⟨hw ▸ hu.worldSizes, ?_, ?_, ?_, fun hs => ?_, fun hs => ?_⟩
  · obtain ⟨i, hi, hno⟩ := htables.barrier.exists_absent (hw ▸ hu.barrier)
    exact ⟨i, hi, fun hp => hno _ () hp rfl⟩
  · obtain ⟨i, hi, hno⟩ := htables.reduceMinTime.exists_absent (hw ▸ hu.reduceMinTime)
    exact ⟨i, hi, fun t hp => hno _ t hp rfl⟩
  · obtain ⟨i, hi, hno⟩ := htables.reduceSent.exists_absent (hw ▸ hu.reduceSent)
    exact ⟨i, hi, fun m n hp => hno _ m hp rfl⟩
  · obtain ⟨i, hi, hno⟩ := htables.reduceMinTimeAction.exists_absent (hw ▸ hu.reduceMinTimeAction (hnone hs))
    exact ⟨i, hi, fun t a hp => hno _ ⟨t, a⟩ hp rfl⟩
  · have hnet : g.netSim ∈ g.awake s.pending := h.awake_eq ▸ h.roster.netSim_awake
    have hlt : c.allGather.size < ((g.awake s.pending).erase g.netSim).card := by
      rw [Finset.card_erase_of_mem hnet, ← hw]
      exact hu.allGather (hnone hs)
    obtain ⟨i, hi, hno⟩ := htables.allGather.exists_absent hlt
    exact ⟨i, hi, fun t hp => hno _ t hp rfl⟩

/-- In every state that a run of the collectives and SLEEPs of two members or more reaches. -/
theorem no_collective_stalls (g : HelloGroup ι) (hsize : 1 < g.size) {b : Broker ι} {fs : List (Frame ι)}
    {s : Session ι} (hform : Trace.run advance (init g.size) g.frames = .ok b)
    (hrun : Trace.run (Session.step (collectivesOnly g.netSim)) (Session.start b) fs = .ok s) : NoneStalls g s := by
  rw [g.run_frames, Except.ok.injEq] at hform
  subst hform
  have hstep (s : Session ι) (f : Frame ι) (s' : Session ι)
      (h : SessionAgrees g s ∧ ∃ c, s.broker.ctxs = [c] ∧ Unstalled c)
      (hs : Session.step (collectivesOnly g.netSim) s f = .ok s') :
      SessionAgrees g s' ∧ ∃ c, s'.broker.ctxs = [c] ∧ Unstalled c := by
    refine ⟨step_agrees h.1 hs, ?_⟩
    obtain ⟨⟨hw, c, hc, hag⟩, c₀, hc₀, hu⟩ := h
    obtain ⟨ha, b', out, pubs, hb, rfl⟩ := Session.step_ok.mp hs
    rw [hc] at hc₀
    obtain rfl := List.head_eq_of_cons_eq hc₀
    exact step_unstalled hsize hw hc hag hu ha hb
  obtain ⟨⟨hw, c, hc, h⟩, c₀, hc₀, hu⟩ := Trace.run_invariant hstep
    ⟨⟨rfl, g.context, rfl, .formed g⟩, g.context, rfl, g.unstalled hsize⟩ hrun
  rw [hc] at hc₀
  obtain rfl := List.head_eq_of_cons_eq hc₀
  exact h.noneStalls hu

/-- The SLEEP of the last who has not asked lets the others out of a barrier, and leaves them in a
REDUCE_MIN_TIME_ACTION. -/
theorem no_collective_stalls_four :
    (∃ s, Trace.run (Session.step (collectivesOnly 3)) (Session.start fourMembers.formed)
        [⟨0, 0, .barrier⟩, ⟨1, 0, .barrier⟩, ⟨3, 0, .barrier⟩, ⟨2, 0, .sleep⟩] = .ok s ∧
      (∀ i ∈ fourMembers.awake s.pending, s.pending i = none) ∧ NoneStalls fourMembers s) ∧
    ∃ s, Trace.run (Session.step (collectivesOnly 3)) (Session.start fourMembers.formed)
        [⟨0, 0, .reduceMinTimeAction 5 0⟩, ⟨1, 0, .reduceMinTimeAction 7 0⟩, ⟨3, 0, .reduceMinTimeAction 9 0⟩,
          ⟨2, 0, .sleep⟩] = .ok s ∧
      (∀ i ∈ fourMembers.awake s.pending, (s.pending i).bind Request.asMinTimeAction ≠ none) ∧
      NoneStalls fourMembers s := by
  constructor
  · obtain ⟨s, hs, hcheck⟩ := Trace.exists_run_of_check (Session.step (collectivesOnly 3))
      (Session.start fourMembers.formed) [⟨0, 0, .barrier⟩, ⟨1, 0, .barrier⟩, ⟨3, 0, .barrier⟩, ⟨2, 0, .sleep⟩]
      (fun s => decide (∀ i ∈ fourMembers.awake s.pending, s.pending i = none)) (by decide)
    exact ⟨s, hs, of_decide_eq_true hcheck, no_collective_stalls fourMembers (by decide) fourMembers.run_frames hs⟩
  · obtain ⟨s, hs, hcheck⟩ := Trace.exists_run_of_check (Session.step (collectivesOnly 3))
      (Session.start fourMembers.formed)
      [⟨0, 0, .reduceMinTimeAction 5 0⟩, ⟨1, 0, .reduceMinTimeAction 7 0⟩, ⟨3, 0, .reduceMinTimeAction 9 0⟩,
        ⟨2, 0, .sleep⟩]
      (fun s => decide (∀ i ∈ fourMembers.awake s.pending, (s.pending i).bind Request.asMinTimeAction ≠ none))
      (by decide)
    exact ⟨s, hs, of_decide_eq_true hcheck, no_collective_stalls fourMembers (by decide) fourMembers.run_frames hs⟩

end Stall

end Fncs.Broker

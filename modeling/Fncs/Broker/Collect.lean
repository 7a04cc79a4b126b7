/-
The collectives seen from the simulators: what the broker does with the next
request of a collective, given who has asked already and for whom it waits.
Where `Agreement` says what a handler that succeeds has done, the theorems
here say that it succeeds.
-/
import Fncs.Broker.Agreement

namespace Fncs.Broker

open Pending

variable {ι : Type} [LinearOrder ι]

/-- The handler of a request that concerns one context's collectives. -/
def Context.handle (worldSize : ℕ) (c : Context ι) (i : ι) : Request ι → Handled ι
  | .barrier => barrierHandler c i
  | .reduceMinTime t => reduceMinTimeHandler c i t
  | .reduceMinTimeSleep t hadMessage => reduceMinTimeSleepHandler worldSize c i t hadMessage
  | .reduceSendRecv sent recv => reduceSendRecvHandler c i sent recv
  | .allGatherNextTime t => allGatherHandler c i t
  | .sleep => sleepHandler worldSize c i
  | _ => .error .assertion

/-- A broker with one context hands the request to it. -/
theorem step_handle {b : Broker ι} {c c' : Context ι} {i : ι} {r : Request ι} {out : Replies ι}
    (hc : b.ctxs = [c]) (h : c.handle b.worldSize i r = .ok (c', out)) :
    b.step i 0 r = .ok ({ b with ctxs := [c'] }, out, []) := by
  have hset : b.setContext 0 c' = { b with ctxs := [c'] } := by simp [setContext, hc]
  have hget : b.ctxs[0]? = some c := by simp [hc]
  unfold step
  rw [if_neg (by simp [hc])]
  cases r <;> first
    | exact hset ▸ onContext_of_ok hget h
    | cases h

theorem checkSize_lt {k : Collective} {size need : ℕ} {c : Context ι} {release : Handled ι} (h : size < need) :
    checkSize k size need c release = .ok (c, []) := checkSize_ok.mpr (.inl ⟨h, rfl⟩)

theorem checkSize_eq {k : Collective} {size need : ℕ} {c : Context ι} {release : Handled ι}
    {x : Context ι × Replies ι} (h : size = need) (hr : release = .ok x) :
    checkSize k size need c release = .ok x := checkSize_ok.mpr (.inr ⟨h, hr⟩)

/-! ## Joining -/

section Join

variable {c : Context ι} {i : ι}

theorem joinCollective_of_not {k : Collective} {waiting : Bool} {post : Context ι} {checker : Context ι → Handled ι}
    (hv : c.validContexts = true) (hw : waiting = false) :
    joinCollective k waiting c post checker = checker post := by
  simp [joinCollective, hv, hw]

theorem barrierHandler_eq (hv : c.validContexts = true) (hi : i ∉ c.barrier.dom) :
    barrierHandler c i = barrierChecker (c.enter i .barrier) :=
  joinCollective_of_not hv (OrdMap.not_contains_iff.mpr hi)

theorem reduceMinTimeHandler_eq {t : TIME} (hv : c.validContexts = true) (hi : i ∉ c.reduceMinTime.dom) :
    reduceMinTimeHandler c i t = reduceMinTimeChecker (c.enter i (.reduceMinTime t)) :=
  joinCollective_of_not hv (OrdMap.not_contains_iff.mpr hi)

theorem reduceSendRecvHandler_eq {sent recv : ℕ} (hv : c.validContexts = true) (hi : i ∉ c.reduceSent.dom) :
    reduceSendRecvHandler c i sent recv = reduceSendRecvChecker (c.enter i (.reduceSendRecv sent recv)) := by
  have hf : c.reduceSent.contains i = false := OrdMap.not_contains_iff.mpr hi
  simp [reduceSendRecvHandler, hf, hv, Context.enter]

end Join

/-! ## Checking: `who` have asked, the collective waits for `awake` -/

section Check

variable {p : ι → Option (Request ι)} {c : Context ι} {awake who : Finset ι}

/-- The table is not complete while somebody has yet to ask. -/
theorem size_lt {α : Type} {m : OrdMap ι α} (hdom : m.dom = who) (hw : c.worldSizes = awake.card)
    (hsub : who ⊂ awake) : m.size < c.worldSizes := by
  rw [hw, ← OrdMap.card_dom, hdom]
  exact Finset.card_lt_card hsub

theorem size_eq {α : Type} {m : OrdMap ι α} (hdom : m.dom = awake) (hw : c.worldSizes = awake.card) :
    m.size = c.worldSizes := by
  rw [hw, ← OrdMap.card_dom, hdom]

variable (h : Tables p c) (hw : c.worldSizes = awake.card)

include h

theorem Tables.dom_barrier (hp : Participants p (fun _ : Unit => .barrier) who fun _ => ()) : c.barrier.dom = who :=
  h.barrier.dom_participants (fun r a => by cases r <;> simp [Request.asBarrier]) hp

theorem Tables.dom_minTime {val : ι → TIME} (hp : Participants p .reduceMinTime who val) :
    c.reduceMinTime.dom = who :=
  h.reduceMinTime.dom_participants (fun r a => by cases r <;> simp [Request.asMinTime]) hp

theorem Tables.lookup_sent {val : ι → ℕ × ℕ} (hp : Participants p (fun v => .reduceSendRecv v.1 v.2) who val)
    (i : ι) : c.reduceSent.lookup i = (if i ∈ who then some (val i).1 else none) ∧
      c.reduceRecv.lookup i = if i ∈ who then some (val i).2 else none := by
  rw [h.reduceSent i, h.reduceRecv i]
  by_cases hi : i ∈ who
  · simp [(hp i (val i)).mpr ⟨hi, rfl⟩, hi, Request.asSent, Request.asRecv]
  · have hn : ∀ s r, p i ≠ some (.reduceSendRecv s r) := fun s r hr => hi ((hp i (s, r)).mp hr).1
    rw [if_neg hi, if_neg hi]
    cases hpi : p i with
    | none => exact ⟨rfl, rfl⟩
    | some q =>
      cases q with
      | reduceSendRecv s r => exact absurd hpi (hn s r)
      | _ => exact ⟨rfl, rfl⟩

theorem Tables.dom_sent {val : ι → ℕ × ℕ} (hp : Participants p (fun v => .reduceSendRecv v.1 v.2) who val) :
    c.reduceSent.dom = who ∧ c.reduceRecv.dom = who := by
  constructor <;> ext i <;> simp [OrdMap.mem_dom, h.lookup_sent hp i]

include hw

theorem barrierChecker_waits (hp : Participants p (fun _ : Unit => .barrier) who fun _ => ())
    (hsub : who ⊂ awake) : barrierChecker c = .ok (c, []) :=
  checkSize_lt (size_lt (h.dom_barrier hp) hw hsub)

theorem barrierChecker_releases (hp : Participants p (fun _ : Unit => .barrier) awake fun _ => ())
    (h2 : 1 < awake.card) :
    barrierChecker c = .ok ({ c with barrier := ∅ }, replyAll c.barrier .ack) ∧
      Answered (replyAll c.barrier .ack) awake fun _ => .ack := by
  refine ⟨checkSize_eq (size_eq (h.dom_barrier hp) hw) (if_pos (hw ▸ h2)), ?_⟩
  exact h.dom_barrier hp ▸ .replyAll

/-- A barrier one simulator waits in alone is never released. -/
theorem barrierChecker_alone (hp : Participants p (fun _ : Unit => .barrier) awake fun _ => ())
    (h1 : awake.card ≤ 1) : barrierChecker c = .ok (c, []) :=
  checkSize_eq (size_eq (h.dom_barrier hp) hw) (if_neg (by omega))

theorem reduceMinTimeChecker_waits {val : ι → TIME} (hp : Participants p .reduceMinTime who val)
    (hsub : who ⊂ awake) : reduceMinTimeChecker c = .ok (c, []) :=
  checkSize_lt (size_lt (h.dom_minTime hp) hw hsub)

theorem reduceMinTimeChecker_releases {val : ι → TIME} (hp : Participants p .reduceMinTime awake val)
    (hne : awake.Nonempty) : ∃ m, IsLeast (val '' awake) m ∧
      reduceMinTimeChecker c = .ok ({ c with reduceMinTime := ∅ }, replyAll c.reduceMinTime (.time m)) ∧
      Answered (replyAll c.reduceMinTime (.time m)) awake fun _ => .time m := by
  have hdom := h.dom_minTime hp
  have hlook : ∀ {i t}, c.reduceMinTime.lookup i = some t ↔ i ∈ awake ∧ t = val i := fun {i t} =>
    h.reduceMinTime.lookup_participant (fun r a => by cases r <;> simp [Request.asMinTime]) hp
  obtain ⟨e, he⟩ := minElement_isSome reduceMinPairLess (l := c.reduceMinTime.entries) (by
    obtain ⟨i, hi⟩ := hne
    exact List.ne_nil_of_mem (OrdMap.lookup_eq_some.mp (hlook.mpr ⟨hi, rfl⟩)))
  obtain ⟨⟨i, hi⟩, hle⟩ := minElement_ok he
  refine ⟨e.2, ⟨⟨i, (hlook.mp hi).1, (hlook.mp hi).2.symm⟩, ?_⟩, ?_, hdom ▸ .replyAll⟩
  · rintro - ⟨j, hj, rfl⟩
    exact hle j _ (hlook.mpr ⟨hj, rfl⟩)
  · exact checkSize_eq (size_eq hdom hw) (by rw [he])

theorem reduceSendRecvChecker_waits {val : ι → ℕ × ℕ} (hp : Participants p (fun v => .reduceSendRecv v.1 v.2) who val)
    (hsub : who ⊂ awake) : reduceSendRecvChecker c = .ok (c, []) :=
  checkSize_lt (size_lt (h.dom_sent hp).1 hw hsub)

/-- The sums of a round that stays within 64 bits. -/
theorem reduceSendRecvChecker_releases {val : ι → ℕ × ℕ}
    (hp : Participants p (fun v => .reduceSendRecv v.1 v.2) awake val)
    (hfit : c.reduceSentTotal + ∑ i ∈ awake, (val i).1 < ulongSize)
    (hle : c.reduceRecvTotal + ∑ i ∈ awake, (val i).2 ≤ c.reduceSentTotal + ∑ i ∈ awake, (val i).1) :
    reduceSendRecvChecker c = .ok ({ c with
        reduceSentTotal := c.reduceSentTotal + ∑ i ∈ awake, (val i).1
        reduceRecvTotal := c.reduceRecvTotal + ∑ i ∈ awake, (val i).2
        reduceSent := ∅
        reduceRecv := ∅ }, replyAll c.reduceSent (.diff (c.reduceSentTotal + ∑ i ∈ awake, (val i).1 -
          (c.reduceRecvTotal + ∑ i ∈ awake, (val i).2)))) ∧
      ∀ d, Answered (replyAll c.reduceSent (.diff d)) awake fun _ => .diff d := by
  obtain ⟨hds, hdr⟩ := h.dom_sent hp
  have hsum {m : OrdMap ι ℕ} {v : ι → ℕ} (hm : ∀ i, m.lookup i = if i ∈ awake then some (v i) else none) :
      m.vals.sum = ∑ i ∈ awake, v i := by
    have hd : m.dom = awake := by ext i; simp [OrdMap.mem_dom, hm i]
    have := OrdMap.sum_vals m fun n => n
    rw [List.map_id'] at this
    rw [this, hd]
    exact Finset.sum_congr rfl fun i hi => by simp [hm i, hi]
  have hs := hsum fun i => (h.lookup_sent hp i).1
  have hr := hsum fun i => (h.lookup_sent hp i).2
  have hsl : ∑ i ∈ awake, (val i).1 < ulongSize := by omega
  have hrl : ∑ i ∈ awake, (val i).2 < ulongSize := by omega
  refine ⟨checkSize_eq (size_eq hds hw) ?_, fun d => hds ▸ .replyAll⟩
  rw [if_neg (not_not.mpr (size_eq hdr hw))]
  simp only [hs, hr, Nat.mod_eq_of_lt hsl, Nat.mod_eq_of_lt hrl, Nat.mod_eq_of_lt hfit,
    Nat.mod_eq_of_lt (hle.trans_lt hfit)]
  rw [if_neg (not_lt.mpr hle)]

end Check

/-- A report is taken when the reports of all the awake would add up. -/
theorem Agrees.reduceSendRecvChecker_ok {g : HelloGroup ι} {p : ι → Option (Request ι)} {sent recv : ℕ}
    {c : Context ι} (h : Agrees g p sent recv c)
    (hfit : ∀ val : ι → ℕ × ℕ, Participants p (fun v => .reduceSendRecv v.1 v.2) c.contexts.dom val →
      c.reduceSentTotal + ∑ i ∈ c.contexts.dom, (val i).1 < ulongSize ∧
      c.reduceRecvTotal + ∑ i ∈ c.contexts.dom, (val i).2 ≤ c.reduceSentTotal + ∑ i ∈ c.contexts.dom, (val i).1) :
    ∃ x, reduceSendRecvChecker c = .ok x := by
  have hw : c.worldSizes = c.contexts.dom.card := by rw [OrdMap.card_dom, h.roster.worldSizes]
  have hp := h.tables.sendRecv_participants
  rcases (h.dom_subset h.tables.reduceSent rfl).eq_or_ssubset with heq | hsub
  · rw [heq] at hp
    obtain ⟨h1, h2⟩ := hfit _ hp
    exact ⟨_, (reduceSendRecvChecker_releases h.tables hw hp h1 h2).1⟩
  · exact ⟨_, reduceSendRecvChecker_waits h.tables hw hp hsub⟩

/-! ## The death of the sums

The one stop that the counters can cause is that of a completed round. -/

/-- `graceful_death` once more has been received than sent. -/
def belowReceived : Stop := .gracefulDeath .sentBelowReceived

section Below

variable {g : HelloGroup ι} {p : ι → Option (Request ι)} {sent recv : ℕ} {c : Context ι}

theorem checkSize_ne_below {k : Collective} {size need : ℕ} {release : Handled ι} (h : release ≠ .error belowReceived) :
    checkSize k size need c release ≠ .error belowReceived := by
  unfold checkSize death belowReceived
  split
  · simp
  · split
    · exact h
    · simp

theorem joinCollective_ne_below {k : Collective} {waiting : Bool} {post : Context ι} {checker : Context ι → Handled ι}
    (h : checker post ≠ .error belowReceived) : joinCollective k waiting c post checker ≠ .error belowReceived := by
  unfold joinCollective death belowReceived
  split
  · simp
  · split
    · simp
    · exact h

theorem barrierChecker_ne_below : barrierChecker c ≠ .error belowReceived := by
  refine checkSize_ne_below ?_
  split
  · simp
  · simp

theorem reduceMinTimeChecker_ne_below : reduceMinTimeChecker c ≠ .error belowReceived := by
  refine checkSize_ne_below ?_
  split
  · simp [belowReceived]
  · simp

theorem allGatherHandler_ne_below {i : ι} {t : TIME} : allGatherHandler c i t ≠ .error belowReceived := by
  unfold allGatherHandler allGatherChecker death belowReceived
  split
  · simp
  split
  · simp
  split
  · simp
  split
  · simp
  split
  · simp
  · simp

/-- The reports of all the awake add up. -/
def RoundFits (p : ι → Option (Request ι)) (c : Context ι) (awake : Finset ι) : Prop :=
  ∀ val : ι → ℕ × ℕ, Participants p (fun v => .reduceSendRecv v.1 v.2) awake val →
    c.reduceSentTotal + ∑ i ∈ awake, (val i).1 < ulongSize ∧
      c.reduceRecvTotal + ∑ i ∈ awake, (val i).2 ≤ c.reduceSentTotal + ∑ i ∈ awake, (val i).1

theorem Agrees.reduceSendRecvChecker_ne_below (h : Agrees g p sent recv c) (hfit : RoundFits p c c.contexts.dom) :
    reduceSendRecvChecker c ≠ .error belowReceived := by
  obtain ⟨x, hx⟩ := h.reduceSendRecvChecker_ok hfit
  rw [hx]
  simp

/-- There is no round without the net sim. -/
theorem RoundFits.of_idle {awake : Finset ι} (hidle : p g.netSim = none) (hn : g.netSim ∈ awake) :
    RoundFits p c awake := by
  intro val hval
  have hnet := (hval g.netSim _).mpr ⟨hn, rfl⟩
  rw [hidle] at hnet
  cases hnet

/-- The checks of a SLEEP: one of the sums is complete only if the two before it are not. -/
theorem Agrees.sleepRecheck_ne_below (h : Agrees g p sent recv c)
    (hfit : c.worldSizes ≠ 1 → RoundFits p c c.contexts.dom) : sleepRecheck c ≠ .error belowReceived := by
  have idle {c' : Context ι} {s r : ℕ} {p' : ι → Option (Request ι)} (h' : Agrees g p' s r c')
      (hidle : p' g.netSim = none) : reduceSendRecvChecker c' ≠ .error belowReceived :=
    h'.reduceSendRecvChecker_ne_below (.of_idle hidle h'.roster.netSim_awake)
  unfold sleepRecheck
  split
  · next hw =>
    split
    · next e he => exact fun hx => barrierChecker_ne_below (he.trans hx)
    next c₁ o₁ h₁ =>
    split
    · next e he => exact fun hx => reduceMinTimeChecker_ne_below (he.trans hx)
    next c₂ o₂ h₂ =>
    have hlast : reduceSendRecvChecker c₂ ≠ .error belowReceived := by
      have hb := barrierChecker_checked h h₁
      have hm := reduceMinTimeChecker_checked hb.agrees h₂
      obtain ⟨hx, -⟩ | ⟨hsize, -, hx⟩ := barrierChecker_ok h₁
      · obtain ⟨rfl, rfl⟩ := Prod.mk.inj hx
        obtain ⟨hx, -⟩ | ⟨hsize, _, -, hx⟩ := reduceMinTimeChecker_ok h₂
        · obtain ⟨rfl, rfl⟩ := Prod.mk.inj hx
          exact h.reduceSendRecvChecker_ne_below (hfit hw)
        · refine idle hm.agrees ?_
          rw [(Prod.mk.inj hx).2]
          exact hb.agrees.answered_netSim hb.agrees.tables.reduceMinTime rfl hsize
      · have hidle : Session.answered p o₁ g.netSim = none := by
          rw [(Prod.mk.inj hx).2]
          exact h.answered_netSim h.tables.barrier rfl hsize
        refine idle hm.agrees ?_
        show (if g.netSim ∈ o₂.map Prod.fst then none else Session.answered p o₁ g.netSim) = none
        rw [hidle, ite_self]
    split
    · next e he => exact fun hx => hlast (he.trans hx)
    · simp
  · simp

theorem sleepWakeAll_ne_below {n : ℕ} {out : Replies ι} : sleepWakeAll n c out ≠ .error belowReceived := by
  unfold sleepWakeAll death belowReceived
  split
  · simp
  split
  · simp
  split
  · split
    · simp
    · simp
  · simp

end Below

/-- A broker with one context stops as that context's handler does. -/
theorem onContext_ne_below {b : Broker ι} {c : Context ι} {F : Context ι → Handled ι} (hc : b.ctxs = [c])
    (h : F c ≠ .error belowReceived) : b.onContext 0 F ≠ .error belowReceived := by
  have hget : b.context 0 = .ok c := context_ok.mpr (by simp [hc])
  unfold onContext
  simp only [hget, bind, Except.bind]
  split
  · next e he =>
    intro hx
    obtain rfl := Except.error.inj hx
    exact h he
  · simp

/-- The broker is not stopped by its sums, if the reports of the awake would add up. A SLEEP that leaves one
member awake is not checked against them. -/
theorem step_ne_below {g : HelloGroup ι} {s : Session ι} {c : Context ι} {f : Frame ι} (hc : s.broker.ctxs = [c])
    (h : Agrees g s.pending s.sentSum s.recvSum c) (ha : collectivesOnly g.netSim s f = true)
    (hfit : (f.request = .sleep → (awakeFor c f).card ≠ 1) → RoundFits (s.posted f) c (awakeFor c f)) :
    s.broker.step f.identity f.context f.request ≠ .error belowReceived := by
  obtain ⟨i, k, r⟩ := f
  simp only [collectivesOnly, Bool.and_eq_true, decide_eq_true_eq, Option.isNone_iff_eq_none,
    Bool.not_eq_true', Bool.and_eq_false_iff, decide_eq_false_iff_not] at ha
  obtain ⟨⟨⟨⟨⟨rfl, hi⟩, hmem⟩, hr⟩, hf⟩, hn⟩ := ha
  have hm : i ∈ g.members := by
    rw [← List.mem_toFinset, ← h.roster.union]
    simpa [isMember, hc, OrdMap.contains_iff] using hmem
  have he := h.enter hi hm hr hf fun hin => hn.resolve_left fun hne => hne hin
  unfold Broker.step
  split
  · simp [death, belowReceived]
  cases r with
  | barrier => exact onContext_ne_below hc (joinCollective_ne_below barrierChecker_ne_below)
  | reduceMinTime t => exact onContext_ne_below hc (joinCollective_ne_below reduceMinTimeChecker_ne_below)
  | reduceMinTimeAction t a => exact onContext_ne_below hc (joinCollective_ne_below (checkSize_ne_below (by simp)))
  | reduceSendRecv sent recv =>
    refine onContext_ne_below hc ?_
    have hfit := hfit (by simp)
    rw [reduceSendRecvHandler_eq h.roster.valid (h.tables.reduceSent.not_mem_dom hi)]
    exact he.reduceSendRecvChecker_ne_below hfit
  | allGatherNextTime t => exact onContext_ne_below hc allGatherHandler_ne_below
  | sleep =>
    refine onContext_ne_below hc ?_
    have hrecheck : sleepRecheck (c.putToSleep i) ≠ .error belowReceived := by
      refine he.sleepRecheck_ne_below fun hone => ?_
      have hawake : awakeFor c ⟨i, 0, .sleep⟩ = (c.putToSleep i).contexts.dom := by
        simp [awakeFor, Context.putToSleep]
      have hsize : (c.putToSleep i).contexts.dom.card = c.worldSizes - 1 := by
        have hroster : (c.putToSleep i).worldSizes = (c.putToSleep i).contexts.size := he.roster.worldSizes
        rw [OrdMap.card_dom, ← hroster]
        rfl
      have hone : c.worldSizes - 1 ≠ 1 := hone
      rw [hawake, hsize] at hfit
      exact hfit fun _ => hone
    unfold sleepHandler
    split
    · simp [death, belowReceived]
    · split
      · next e hx => exact fun hy => hrecheck (hx.trans hy)
      · exact sleepWakeAll_ne_below
  | _ => cases hr

end Fncs.Broker

/-
Lost wake-ups: can a collective be complete and yet unreleased?

A SLEEP lowers the number every pending collective waits for, and the handler
repeats the check of the barrier, the time reduction and the send/receive
reduction. It does not repeat those of the gather and of the two-component
reduction, so a SLEEP of the last member one of these two was waiting for
leaves it complete and unreleased. `no_lost_wakeup_iff` says that nothing
else does: in a run no collective is ever complete and unreleased exactly
when no such SLEEP is handled.
-/
import Fncs.Broker.Session

namespace Fncs.Broker

variable {ι : Type} [LinearOrder ι]

/-- Every collective of the context waits for at least one more request than it has. -/
structure NoCompleteCollective (c : Context ι) : Prop where
  barrier : c.barrier.size < c.worldSizes
  reduceMinTime : c.reduceMinTime.size < c.worldSizes
  reduceMinTimeAction : c.reduceMinTimeAction.size < c.worldSizes
  reduceSendRecv : c.reduceSent.size < c.worldSizes
  allGather : c.allGather.size < c.worldSizes - 1

/-- No collective of a valid context is complete but unreleased. -/
def NoLostWakeup (s : Session ι) : Prop :=
  ∀ c ∈ s.broker.ctxs, c.validContexts = true → NoCompleteCollective c

/-- HELLOs, and the collectives and SLEEPs of members; nobody sends a request
before the last one is answered. -/
def membersOnly (s : Session ι) (f : Frame ι) : Bool :=
  (s.pending f.identity).isNone &&
    match f.request with
    | .hello _ | .helloNetSim _ => true
    | r => r.isCollective && isMember s.broker f.context f.identity

/-- The sleeper is not the last member that a pending gather or two-component
reduction waits for. The SLEEP of the last but one member awake wakes everybody. -/
def SleepLeavesNoneComplete (c : Context ι) : Prop :=
  c.worldSizes = 2 ∨ (c.allGather.size + 2 ≠ c.worldSizes ∧ c.reduceMinTimeAction.size + 1 ≠ c.worldSizes)

/-- The condition on a step: a SLEEP does not complete a gather or a two-component reduction. -/
def SleepSafe (s : Session ι) (f : Frame ι) : Prop :=
  f.request = .sleep → ∀ c, s.broker.ctxs[f.context.toNat]? = some c → SleepLeavesNoneComplete c

/-- Sleepers and members awake add up, at least two are awake, and the context is valid. -/
structure Counted (n : ℕ) (c : Context ι) : Prop where
  add : c.asleep.size + c.worldSizes = n
  two_le : 2 ≤ c.worldSizes
  valid : c.validContexts = true

theorem Counted.fresh {n : ℕ} (hn : 1 < n) (net : Option ι) (members : OrdSet ι) (parents : OrdSet ℤ) :
    Counted n (Context.fresh n net members parents) :=
  ⟨by simp [Context.fresh], hn, rfl⟩

theorem NoCompleteCollective.fresh {n : ℕ} (hn : 1 < n) (net : Option ι) (members : OrdSet ι)
    (parents : OrdSet ℤ) : NoCompleteCollective (Context.fresh n net members parents) := by
  constructor <;> simp [Context.fresh] <;> omega

/-! ## One handler at a time -/

section Handlers

variable {n : ℕ} {c c' : Context ι} {i : ι} {out : Replies ι}

theorem barrierHandler_counts (hc : Counted n c) (h : barrierHandler c i = .ok (c', out)) :
    Counted n c' ∧ (NoCompleteCollective c → NoCompleteCollective c') := by
  obtain ⟨hni, h⟩ := barrierHandler_ok hc.valid h
  have hsize : (c.barrier.add i).size = c.barrier.size + 1 := OrdSet.size_add_of_notMem hni
  have h2 := hc.two_le
  rcases barrierChecker_ok h with ⟨hx, hlt⟩ | ⟨-, -, hx⟩ <;>
    simp only [Prod.mk.injEq] at hx <;> obtain ⟨rfl, -⟩ := hx
  · refine ⟨⟨hc.add, hc.two_le, hc.valid⟩, fun hp => { hp with barrier := ?_ }⟩
    simp only at hlt ⊢
    omega
  · exact ⟨⟨hc.add, hc.two_le, hc.valid⟩, fun hp => { hp with barrier := by simp; omega }⟩

theorem reduceMinTimeHandler_counts {t : TIME} (hc : Counted n c)
    (h : reduceMinTimeHandler c i t = .ok (c', out)) :
    Counted n c' ∧ (NoCompleteCollective c → NoCompleteCollective c') := by
  obtain ⟨-, h⟩ := reduceMinTimeHandler_ok hc.valid h
  have h2 := hc.two_le
  rcases reduceMinTimeChecker_ok h with ⟨hx, hlt⟩ | ⟨-, _, -, hx⟩ <;>
    simp only [Prod.mk.injEq] at hx <;> obtain ⟨rfl, -⟩ := hx
  · exact ⟨⟨hc.add, hc.two_le, hc.valid⟩, fun hp => { hp with reduceMinTime := hlt }⟩
  · exact ⟨⟨hc.add, hc.two_le, hc.valid⟩, fun hp => { hp with reduceMinTime := by simp; omega }⟩

theorem reduceMinTimeActionHandler_counts {t : TIME} {a : ℕ} (hc : Counted n c)
    (h : reduceMinTimeActionHandler c i t a = .ok (c', out)) :
    Counted n c' ∧ (NoCompleteCollective c → NoCompleteCollective c') := by
  obtain ⟨-, h⟩ := reduceMinTimeActionHandler_ok hc.valid h
  have h2 := hc.two_le
  rcases reduceMinTimeActionChecker_ok h with ⟨hx, hlt⟩ | ⟨-, hx⟩ <;>
    simp only [Prod.mk.injEq] at hx <;> obtain ⟨rfl, -⟩ := hx
  · exact ⟨⟨hc.add, hc.two_le, hc.valid⟩, fun hp => { hp with reduceMinTimeAction := hlt }⟩
  · exact ⟨⟨hc.add, hc.two_le, hc.valid⟩, fun hp => { hp with reduceMinTimeAction := by simp; omega }⟩

theorem reduceSendRecvHandler_counts {sent recv : ℕ} (hc : Counted n c)
    (h : reduceSendRecvHandler c i sent recv = .ok (c', out)) :
    Counted n c' ∧ (NoCompleteCollective c → NoCompleteCollective c') := by
  obtain ⟨-, h⟩ := reduceSendRecvHandler_ok hc.valid h
  have h2 := hc.two_le
  rcases reduceSendRecvChecker_ok h with ⟨hx, hlt⟩ | ⟨-, -, hx⟩ <;>
    simp only [Prod.mk.injEq] at hx <;> obtain ⟨rfl, -⟩ := hx
  · exact ⟨⟨hc.add, hc.two_le, hc.valid⟩, fun hp => { hp with reduceSendRecv := hlt }⟩
  · exact ⟨⟨hc.add, hc.two_le, hc.valid⟩, fun hp => { hp with reduceSendRecv := by simp; omega }⟩

theorem allGatherHandler_counts {t : TIME} (hc : Counted n c) (h : allGatherHandler c i t = .ok (c', out)) :
    Counted n c' ∧ (NoCompleteCollective c → NoCompleteCollective c') := by
  obtain ⟨hni, -, h⟩ := allGatherHandler_ok hc.valid h
  have hsize : (c.allGather.insert i t).size = c.allGather.size + 1 := OrdMap.size_insert_of_notMem hni t
  have h2 := hc.two_le
  rcases allGatherChecker_ok h with ⟨hx, -, hne⟩ | ⟨-, hx⟩ <;>
    simp only [Prod.mk.injEq] at hx <;> obtain ⟨rfl, -⟩ := hx
  · refine ⟨⟨hc.add, hc.two_le, hc.valid⟩, fun hp => { hp with allGather := ?_ }⟩
    have := hp.allGather
    simp only at hne ⊢
    omega
  · exact ⟨⟨hc.add, hc.two_le, hc.valid⟩, fun hp => { hp with allGather := by simp; omega }⟩

/-- What the checks of a SLEEP leave: the gather and the two-component
reduction as they were, the other collectives incomplete. -/
theorem sleepRecheck_counts (hw : c.worldSizes ≠ 1) (h0 : c.worldSizes ≠ 0)
    (h : sleepRecheck c = .ok (c', out)) :
    c'.asleep = c.asleep ∧ c'.worldSizes = c.worldSizes ∧ c'.validContexts = c.validContexts ∧
      c'.allGather = c.allGather ∧ c'.reduceMinTimeAction = c.reduceMinTimeAction ∧
      c'.barrier.size < c.worldSizes ∧ c'.reduceMinTime.size < c.worldSizes ∧
      c'.reduceSent.size < c.worldSizes := by
  rcases sleepRecheck_ok h with ⟨h1, -⟩ | ⟨-, c₁, o₁, c₂, o₂, c₃, o₃, hb, hm, hs, hx⟩
  · exact absurd h1 hw
  simp only [Prod.mk.injEq] at hx
  obtain ⟨rfl, -⟩ := hx
  have hb' : ∃ t, c₁ = { c with barrier := t } ∧ t.size < c.worldSizes := by
    rcases barrierChecker_ok hb with ⟨hx, hlt⟩ | ⟨-, -, hx⟩ <;>
      simp only [Prod.mk.injEq] at hx <;> obtain ⟨rfl, -⟩ := hx
    · exact ⟨c₁.barrier, rfl, by omega⟩
    · exact ⟨∅, rfl, by simp; omega⟩
  obtain ⟨tb, rfl, hlb⟩ := hb'
  have hm' : ∃ t, c₂ = { c with barrier := tb, reduceMinTime := t } ∧ t.size < c.worldSizes := by
    rcases reduceMinTimeChecker_ok hm with ⟨hx, hlt⟩ | ⟨-, _, -, hx⟩ <;>
      simp only [Prod.mk.injEq] at hx <;> obtain ⟨rfl, -⟩ := hx
    · exact ⟨c.reduceMinTime, rfl, hlt⟩
    · exact ⟨∅, rfl, by simp; omega⟩
  obtain ⟨tm, rfl, hlm⟩ := hm'
  rcases reduceSendRecvChecker_ok hs with ⟨hx, hlt⟩ | ⟨-, -, hx⟩ <;>
    simp only [Prod.mk.injEq] at hx <;> obtain ⟨rfl, -⟩ := hx
  · exact ⟨rfl, rfl, rfl, rfl, rfl, hlb, hlm, hlt⟩
  · exact ⟨rfl, rfl, rfl, rfl, rfl, hlb, hlm, by simp; omega⟩

/-- A SLEEP keeps every collective incomplete exactly when it is not the last
request a gather or a two-component reduction waited for. -/
theorem sleepHandler_counts (hc : Counted n c) (h : sleepHandler n c i = .ok (c', out)) :
    Counted n c' ∧ (NoCompleteCollective c → (NoCompleteCollective c' ↔ SleepLeavesNoneComplete c)) := by
  obtain ⟨hni, c₁, o₁, hre, hwake⟩ := sleepHandler_ok h
  have hadd := hc.add
  have h2 := hc.two_le
  have hsize : (c.asleep.add i).size = c.asleep.size + 1 := OrdSet.size_add_of_notMem hni
  have hw : (c.putToSleep i).worldSizes = c.worldSizes - 1 := rfl
  by_cases hlast : c.worldSizes = 2
  · -- the last but one: the checks are skipped and everybody wakes
    have hc₁ : c₁ = c.putToSleep i := by
      rcases sleepRecheck_ok hre with ⟨-, hx⟩ | ⟨hne, -⟩
      · exact (Prod.mk.inj hx).1
      · exact absurd hne (by omega)
    subst hc₁
    have has : (c.putToSleep i).asleep.size = n - 1 := by
      show (c.asleep.add i).size = n - 1
      omega
    obtain ⟨-, ⟨hlt, -⟩ | ⟨-, -, hx⟩⟩ := sleepWakeAll_ok hwake
    · exact absurd hlt (by omega)
    simp only [Prod.mk.injEq] at hx
    obtain ⟨rfl, -⟩ := hx
    refine ⟨⟨by simp [Context.wakeAll], ?_, hc.valid⟩, fun hp => ⟨fun _ => .inl hlast, fun _ => ?_⟩⟩
    · show 2 ≤ n
      omega
    · obtain ⟨h3, h4, h5, h6, h7⟩ := hp
      constructor <;> simp only [Context.wakeAll, Context.putToSleep] <;> omega
  · obtain ⟨ha, hws, hv, hg, hact, hlb, hlm, hls⟩ := sleepRecheck_counts (by omega) (by omega) hre
    obtain ⟨-, ⟨-, hx⟩ | ⟨heq, -⟩⟩ := sleepWakeAll_ok hwake
    · simp only [Prod.mk.injEq] at hx
      obtain ⟨rfl, -⟩ := hx
      have hasz : c'.asleep.size = c.asleep.size + 1 := by rw [ha]; exact hsize
      refine ⟨⟨by omega, by omega, hv.trans hc.valid⟩, fun hp => ?_⟩
      have hg7 := hp.allGather
      have ha5 := hp.reduceMinTimeAction
      have hgs : c'.allGather.size = c.allGather.size := by rw [hg]; rfl
      have has : c'.reduceMinTimeAction.size = c.reduceMinTimeAction.size := by rw [hact]; rfl
      constructor
      · intro hp'
        have := hp'.allGather
        have := hp'.reduceMinTimeAction
        exact .inr ⟨by omega, by omega⟩
      · rintro (h | ⟨hne1, hne2⟩)
        · exact absurd h hlast
        · constructor <;> omega
    · have : c₁.asleep.size = c.asleep.size + 1 := by rw [ha]; exact hsize
      exact absurd heq (by omega)

end Handlers

/-! ## Runs -/

/-- What every step keeps, safe or not. -/
def SessionCounted (n : ℕ) (s : Session ι) : Prop :=
  s.broker.worldSize = n ∧ ∀ c ∈ s.broker.ctxs, Counted n c

/-- A handler of one context that keeps the counts keeps them in the session,
and is judged on its own context. -/
theorem onContext_counts {n k : ℕ} {b b' : Broker ι} {f : Context ι → Handled ι} {out : Replies ι}
    {pubs : List Publication} (cond : Context ι → Prop) (hb : ∀ c ∈ b.ctxs, Counted n c)
    (hf : ∀ c c' out, Counted n c → f c = .ok (c', out) →
      Counted n c' ∧ (NoCompleteCollective c → (NoCompleteCollective c' ↔ cond c)))
    (h : b.onContext k f = .ok (b', out, pubs)) :
    b'.worldSize = b.worldSize ∧ (∀ c ∈ b'.ctxs, Counted n c) ∧
      ((∀ c ∈ b.ctxs, NoCompleteCollective c) →
        ((∀ c ∈ b'.ctxs, NoCompleteCollective c) ↔ ∀ c, b.ctxs[k]? = some c → cond c)) := by
  obtain ⟨c, c', out', hk, hfc, hx⟩ := onContext_ok.mp h
  simp only [Prod.mk.injEq] at hx
  obtain ⟨rfl, -, -⟩ := hx
  have hmem : c ∈ b.ctxs := List.mem_of_getElem? hk
  obtain ⟨hcount, hiff⟩ := hf c c' _ (hb c hmem) hfc
  refine ⟨rfl, fun d hd => ?_, fun hp => ?_⟩
  · rcases List.mem_or_eq_of_mem_set hd with hd | rfl
    · exact hb d hd
    · exact hcount
  · have hset : c' ∈ (b.setContext k c').ctxs :=
      List.mem_set (List.getElem?_eq_some_iff.mp hk).1 c'
    constructor
    · intro h' d hd
      rw [hk, Option.some.injEq] at hd
      subst hd
      exact (hiff (hp _ hmem)).mp (h' _ hset)
    · intro hcond d hd
      rcases List.mem_or_eq_of_mem_set hd with hd | rfl
      · exact hp d hd
      · exact (hiff (hp _ hmem)).mpr (hcond c hk)

/-- A HELLO leaves the collectives of the contexts that exist alone, and those of a new one are empty. -/
theorem hello_counts {n : ℕ} (hn : 1 < n) {b b' : Broker ι} {i : ι} {k : ℕ} {parent : ℤ} {netSim : Bool}
    {out : Replies ι} {pubs : List Publication} (hw : b.worldSize = n) (hb : ∀ c ∈ b.ctxs, Counted n c)
    (h : helloHandler b i k parent netSim = .ok (b', out, pubs)) :
    b'.worldSize = n ∧ (∀ c ∈ b'.ctxs, Counted n c) ∧
      ((∀ c ∈ b.ctxs, NoCompleteCollective c) → ∀ c ∈ b'.ctxs, NoCompleteCollective c) := by
  obtain ⟨hw', hb'⟩ := helloHandler_ctxs h
  refine ⟨hw'.trans hw, fun c hc => ?_, fun hp c hc => ?_⟩
  · obtain ⟨c₀, l, rfl, hc₀ | ⟨net, ms, ps, rfl⟩⟩ := hb' c hc
    · exact ⟨(hb _ hc₀).add, (hb _ hc₀).two_le, (hb _ hc₀).valid⟩
    · have := Counted.fresh (ι := ι) (hw ▸ hn) net ms ps
      exact ⟨this.add.trans hw, this.two_le, this.valid⟩
  · obtain ⟨c₀, l, rfl, hc₀ | ⟨net, ms, ps, rfl⟩⟩ := hb' c hc
    · exact ⟨(hp _ hc₀).1, (hp _ hc₀).2, (hp _ hc₀).3, (hp _ hc₀).4, (hp _ hc₀).5⟩
    · obtain ⟨h1, h2, h3, h4, h5⟩ := NoCompleteCollective.fresh (ι := ι) (hw ▸ hn) net ms ps
      exact ⟨h1, h2, h3, h4, h5⟩

theorem step_counts {n : ℕ} (hn : 1 < n) {s s' : Session ι} {f : Frame ι} (hJ : SessionCounted n s)
    (h : Session.step membersOnly s f = .ok s') :
    SessionCounted n s' ∧ ((∀ c ∈ s.broker.ctxs, NoCompleteCollective c) →
      ((∀ c ∈ s'.broker.ctxs, NoCompleteCollective c) ↔ SleepSafe s f)) := by
  obtain ⟨hallow, b', out, pubs, hstep, rfl⟩ := Session.step_ok.mp h
  obtain ⟨hw, hb⟩ := hJ
  -- a request other than SLEEP keeps all collectives incomplete
  have keep : ∀ {g : Context ι → Handled ι}, f.request ≠ .sleep →
      (∀ c c' out, Counted n c → g c = .ok (c', out) →
        Counted n c' ∧ (NoCompleteCollective c → NoCompleteCollective c')) →
      s.broker.onContext f.context.toNat g = .ok (b', out, pubs) →
      SessionCounted n (s.after f b' out) ∧ ((∀ c ∈ s.broker.ctxs, NoCompleteCollective c) →
        ((∀ c ∈ b'.ctxs, NoCompleteCollective c) ↔ SleepSafe s f)) := by
    intro g hreq hg hcx
    obtain ⟨hw', hb', hiff⟩ := onContext_counts (fun _ => True) hb
      (fun c c' out hc hgc => ⟨(hg c c' out hc hgc).1, fun hp => by simp [(hg c c' out hc hgc).2 hp]⟩) hcx
    refine ⟨⟨hw'.trans hw, hb'⟩, fun hp => ?_⟩
    exact iff_of_true ((hiff hp).mpr fun _ _ => trivial) fun he => absurd he hreq
  have hello : ∀ {parent : ℤ} {netSim : Bool}, f.request ≠ .sleep →
      helloHandler s.broker f.identity f.context.toNat parent netSim = .ok (b', out, pubs) →
      SessionCounted n (s.after f b' out) ∧ ((∀ c ∈ s.broker.ctxs, NoCompleteCollective c) →
        ((∀ c ∈ b'.ctxs, NoCompleteCollective c) ↔ SleepSafe s f)) := by
    intro parent netSim hreq hh
    obtain ⟨hw', hb', hkeep⟩ := hello_counts hn hw hb hh
    exact ⟨⟨hw', hb'⟩, fun hp => iff_of_true (hkeep hp) fun he => absurd he hreq⟩
  unfold Broker.step at hstep
  split at hstep
  · cases hstep
  rcases f with ⟨i, k, r⟩
  cases r with
  | hello parent => exact hello nofun hstep
  | helloNetSim parent => exact hello nofun hstep
  | barrier => exact keep nofun (fun c c' out hc hg => barrierHandler_counts hc hg) hstep
  | reduceMinTime t => exact keep nofun (fun c c' out hc hg => reduceMinTimeHandler_counts hc hg) hstep
  | reduceMinTimeAction t a =>
    exact keep nofun (fun c c' out hc hg => reduceMinTimeActionHandler_counts hc hg) hstep
  | reduceSendRecv sent recv =>
    exact keep nofun (fun c c' out hc hg => reduceSendRecvHandler_counts hc hg) hstep
  | allGatherNextTime t => exact keep nofun (fun c c' out hc hg => allGatherHandler_counts hc hg) hstep
  | sleep =>
    obtain ⟨hw', hb', hiff⟩ := onContext_counts SleepLeavesNoneComplete hb
      (fun c c' out hc hg => sleepHandler_counts hc (hw ▸ hg)) hstep
    refine ⟨⟨hw'.trans hw, hb'⟩, fun hp => ?_⟩
    simp only [Session.after, hiff hp, SleepSafe, true_implies]
  | _ => simp [membersOnly, Request.isCollective] at hallow

/-- In a run of the broker's members, no collective of a valid context is ever
complete and unreleased exactly when no SLEEP is handled whose sender is the
last member that a pending gather or two-component reduction waits for. -/
theorem no_lost_wakeup_iff {n : ℕ} (hn : 1 < n) (fs : List (Frame ι)) :
    Trace.Always (Session.step membersOnly) NoLostWakeup (Session.start (init n)) fs ↔
      Trace.Guarded (Session.step membersOnly) SleepSafe (Session.start (init n)) fs := by
  have hP : ∀ s : Session ι, SessionCounted n s →
      (NoLostWakeup s ↔ ∀ c ∈ s.broker.ctxs, NoCompleteCollective c) := fun s hJ =>
    ⟨fun h c hc => h c hc (hJ.2 c hc).valid, fun h c hc _ => h c hc⟩
  refine Trace.always_iff_guarded (J := SessionCounted n) (fun s f s' hJ h => (step_counts hn hJ h).1)
    (fun s f s' hJ hp h => ?_) ⟨rfl, by simp [Session.start, init]⟩ (by simp [NoLostWakeup, Session.start, init])
  obtain ⟨hJ', hiff⟩ := step_counts hn hJ h
  rw [hP s' hJ']
  exact hiff ((hP s hJ).mp hp)

/-- Four simulators, the last one the net sim: two wait in the gather, then the third sleeps. -/
def lostWakeupFrames : List (Frame ℕ) :=
  [⟨0, 0, .hello (-1)⟩, ⟨1, 0, .hello (-1)⟩, ⟨2, 0, .hello (-1)⟩, ⟨3, 0, .helloNetSim (-1)⟩,
    ⟨0, 0, .allGatherNextTime 5⟩, ⟨1, 0, .allGatherNextTime 7⟩, ⟨2, 0, .sleep⟩]

theorem no_lost_wakeup_four : Trace.Always (Session.step membersOnly) NoLostWakeup
    (Session.start (init 4)) (lostWakeupFrames.take 6) ↔
      Trace.Guarded (Session.step membersOnly) SleepSafe (Session.start (init 4)) (lostWakeupFrames.take 6) :=
  no_lost_wakeup_iff (by decide) _

theorem lost_wakeup : ¬ ∀ (n : ℕ) (fs : List (Frame ℕ)) (s : Session ℕ), 1 < n →
    Trace.run (Session.step membersOnly) (Session.start (init n)) fs = .ok s → NoLostWakeup s := by
  intro h
  obtain ⟨s, hs, hbad⟩ := Trace.exists_run_of_check (Session.step membersOnly) (Session.start (init 4))
    lostWakeupFrames
    (fun s => s.broker.ctxs.any fun c => c.validContexts && decide (c.worldSizes - 1 ≤ c.allGather.size))
    (by decide)
  simp only [List.any_eq_true, Bool.and_eq_true, decide_eq_true_eq] at hbad
  obtain ⟨c, hc, hv, hle⟩ := hbad
  exact absurd ((h 4 _ s (by decide) hs) c hc hv).allGather (not_lt.mpr hle)

end Fncs.Broker

/-
What each handler can do, said once: a successful call's inversion, with the
guards it passed. The proofs about runs of the broker go through these and
never unfold a handler.
-/
import Fncs.Broker.Handlers
import Fncs.Lib.Trace

namespace Fncs.Broker

variable {ι : Type} [LinearOrder ι]

@[simp] theorem death_ne_ok {α : Type} {why : Death} {a : α} : (death why : Except Stop α) ≠ .ok a := nofun

theorem checkSize_ok {k : Collective} {size need : ℕ} {c : Context ι} {release : Handled ι}
    {x : Context ι × Replies ι} :
    checkSize k size need c release = .ok x ↔ (size < need ∧ x = (c, [])) ∨ (size = need ∧ release = .ok x) := by
  unfold checkSize
  split
  · next h => simp; omega
  · split
    · next h => simp [h]
    · next h1 h2 =>
      have : size < need := by omega
      simp [this, h2, eq_comm]

theorem joinCollective_ok {k : Collective} {waiting : Bool} {c post : Context ι}
    {checker : Context ι → Handled ι} {x : Context ι × Replies ι} :
    joinCollective k waiting c post checker = .ok x ↔
      waiting = false ∧ ((c.validContexts = false ∧ x = (c, [])) ∨ (c.validContexts = true ∧ checker post = .ok x)) := by
  unfold joinCollective death
  cases waiting <;> cases hv : c.validContexts <;> simp [eq_comm]

/-! ## `min_element` -/

theorem foldl_min_spec {α : Type} (f : α → TIME) (l : List α) (a : α) :
    ∃ m, l.foldl (fun m x => if decide (f x < f m) = true then x else m) a = m ∧
      (m = a ∨ m ∈ l) ∧ f m ≤ f a ∧ ∀ x ∈ l, f m ≤ f x := by
  induction l generalizing a with
  | nil => exact ⟨a, rfl, .inl rfl, le_rfl, by simp⟩
  | cons b l ih =>
    obtain ⟨m, hm, hmem, hle, hall⟩ := ih (if decide (f b < f a) = true then b else a)
    refine ⟨m, hm, ?_, ?_, ?_⟩
    · rcases hmem with rfl | hmem
      · split
        · exact .inr (by simp)
        · exact .inl rfl
      · exact .inr (by simp [hmem])
    · refine hle.trans ?_
      split
      · next h => exact (of_decide_eq_true h).le
      · exact le_rfl
    · intro x hx
      rcases List.mem_cons.mp hx with rfl | hx
      · refine hle.trans ?_
        split
        · exact le_rfl
        · next h => exact not_lt.mp (by simpa using h)
      · exact hall x hx

/-- The least element of a table is one of its values and below the others. -/
theorem minElement_ok {m : OrdMap ι TIME} {e : ι × TIME}
    (h : minElement reduceMinPairLess m.entries = some e) :
    (∃ i, m.lookup i = some e.2) ∧ ∀ i t, m.lookup i = some t → e.2 ≤ t := by
  cases hm : m.entries with
  | nil => rw [hm] at h; simp [minElement] at h
  | cons a l =>
    rw [hm] at h
    obtain ⟨r, hr, hmem, hle, hall⟩ := foldl_min_spec (fun e : ι × TIME => e.2) l a
    have he : e = r := by
      rw [← hr]
      simpa [minElement, reduceMinPairLess, eq_comm] using h
    subst he
    have hin : e ∈ m.entries := by rw [hm]; rcases hmem with rfl | hmem <;> simp [*]
    refine ⟨⟨e.1, OrdMap.lookup_eq_some.mpr hin⟩, fun i t hit => ?_⟩
    rw [OrdMap.lookup_eq_some, hm] at hit
    rcases List.mem_cons.mp hit with rfl | hit
    · exact hle
    · exact hall _ hit

theorem minElement_isSome {α : Type} (less : α → α → Bool) {l : List α} (h : l ≠ []) :
    ∃ e, minElement less l = some e := by
  cases l with
  | nil => exact absurd rfl h
  | cons a l => exact ⟨_, rfl⟩

/-! ## Checkers -/

theorem barrierChecker_ok {c : Context ι} {x : Context ι × Replies ι} (h : barrierChecker c = .ok x) :
    (x = (c, []) ∧ (c.barrier.size < c.worldSizes ∨ (c.barrier.size = c.worldSizes ∧ c.worldSizes ≤ 1))) ∨
    (c.barrier.size = c.worldSizes ∧ 1 < c.worldSizes ∧
      x = ({ c with barrier := ∅ }, replyAll c.barrier .ack)) := by
  rcases checkSize_ok.mp h with ⟨hlt, rfl⟩ | ⟨heq, hrel⟩
  · exact .inl ⟨rfl, .inl hlt⟩
  · split at hrel
    · next hw => simp only [Except.ok.injEq] at hrel; exact .inr ⟨heq, hw, hrel.symm⟩
    · next hw => simp only [Except.ok.injEq] at hrel; exact .inl ⟨hrel.symm, .inr ⟨heq, by omega⟩⟩

theorem reduceMinTimeChecker_ok {c : Context ι} {x : Context ι × Replies ι}
    (h : reduceMinTimeChecker c = .ok x) :
    (x = (c, []) ∧ c.reduceMinTime.size < c.worldSizes) ∨
    (c.reduceMinTime.size = c.worldSizes ∧ ∃ min, minElement reduceMinPairLess c.reduceMinTime.entries = some min ∧
      x = ({ c with reduceMinTime := ∅ }, replyAll c.reduceMinTime (.time min.2))) := by
  rcases checkSize_ok.mp h with ⟨hlt, rfl⟩ | ⟨heq, hrel⟩
  · exact .inl ⟨rfl, hlt⟩
  · split at hrel
    · cases hrel
    · next min hmin => simp only [Except.ok.injEq] at hrel; exact .inr ⟨heq, min, hmin, hrel.symm⟩

theorem reduceMinTimeActionChecker_ok {c : Context ι} {x : Context ι × Replies ι}
    (h : reduceMinTimeActionChecker c = .ok x) :
    (x = (c, []) ∧ c.reduceMinTimeAction.size < c.worldSizes) ∨
    (c.reduceMinTimeAction.size = c.worldSizes ∧
      x = ({ c with reduceMinTimeAction := ∅ }, replyAll c.contexts
        (.timeAction (reduceMinTimeActionMins c.reduceMinTimeAction).time
          (reduceMinTimeActionMins c.reduceMinTimeAction).action))) := by
  rcases checkSize_ok.mp h with ⟨hlt, rfl⟩ | ⟨heq, hrel⟩
  · exact .inl ⟨rfl, hlt⟩
  · simp only [Except.ok.injEq] at hrel; exact .inr ⟨heq, hrel.symm⟩

/-- The broker's running total after a round that adds `l`. -/
def addTotal (total : ℕ) (l : List ℕ) : ℕ := (total + l.sum % ulongSize) % ulongSize

theorem reduceSendRecvChecker_ok {c : Context ι} {x : Context ι × Replies ι}
    (h : reduceSendRecvChecker c = .ok x) :
    (x = (c, []) ∧ c.reduceSent.size < c.worldSizes) ∨
    (c.reduceSent.size = c.worldSizes ∧
      addTotal c.reduceRecvTotal c.reduceRecv.vals ≤ addTotal c.reduceSentTotal c.reduceSent.vals ∧
      x = ({ c with
          reduceSentTotal := addTotal c.reduceSentTotal c.reduceSent.vals
          reduceRecvTotal := addTotal c.reduceRecvTotal c.reduceRecv.vals
          reduceSent := ∅
          reduceRecv := ∅ },
        replyAll c.reduceSent (.diff (addTotal c.reduceSentTotal c.reduceSent.vals -
          addTotal c.reduceRecvTotal c.reduceRecv.vals)))) := by
  rcases checkSize_ok.mp h with ⟨hlt, rfl⟩ | ⟨heq, hrel⟩
  · exact .inl ⟨rfl, hlt⟩
  · split at hrel
    · cases hrel
    · simp only at hrel
      split at hrel
      · cases hrel
      · next hle =>
        simp only [Except.ok.injEq] at hrel
        exact .inr ⟨heq, not_lt.mp hle, hrel.symm⟩

theorem allGatherChecker_ok {c : Context ι} {x : Context ι × Replies ι} (h : allGatherChecker c = .ok x) :
    (x = (c, []) ∧ c.allGather.size ≤ c.worldSizes ∧ c.allGather.size ≠ c.worldSizes - 1) ∨
    (c.allGather.size = c.worldSizes - 1 ∧
      x = ({ c with allGather := ∅ },
        (c.contexts.keys.filter fun i => !(some i == c.netSimID)).map fun i =>
          (i, .nextTimes (gatheredTimes c i)))) := by
  unfold allGatherChecker at h
  split at h
  · cases h
  · split at h
    · next heq => simp only [Except.ok.injEq] at h; exact .inr ⟨heq, h.symm⟩
    · next h1 h2 => simp only [Except.ok.injEq] at h; exact .inl ⟨h.symm, by omega, h2⟩

/-! ## Handlers of a valid context -/

section Valid

variable {c : Context ι} {i : ι} {x : Context ι × Replies ι}

theorem barrierHandler_ok (hv : c.validContexts = true) (h : barrierHandler c i = .ok x) :
    i ∉ c.barrier.dom ∧ barrierChecker { c with barrier := c.barrier.add i } = .ok x := by
  obtain ⟨hw, hf | ht⟩ := joinCollective_ok.mp h
  · exact absurd hf.1 (by simp [hv])
  · exact ⟨OrdMap.not_contains_iff.mp hw, ht.2⟩

theorem reduceMinTimeHandler_ok {t : TIME} (hv : c.validContexts = true)
    (h : reduceMinTimeHandler c i t = .ok x) :
    i ∉ c.reduceMinTime.dom ∧
      reduceMinTimeChecker { c with reduceMinTime := c.reduceMinTime.insert i t } = .ok x := by
  obtain ⟨hw, hf | ht⟩ := joinCollective_ok.mp h
  · exact absurd hf.1 (by simp [hv])
  · exact ⟨OrdMap.not_contains_iff.mp hw, ht.2⟩

theorem reduceMinTimeActionHandler_ok {t : TIME} {a : ℕ} (hv : c.validContexts = true)
    (h : reduceMinTimeActionHandler c i t a = .ok x) :
    i ∉ c.reduceMinTimeAction.dom ∧
      reduceMinTimeActionChecker
        { c with reduceMinTimeAction := c.reduceMinTimeAction.insert i ⟨t, a⟩ } = .ok x := by
  obtain ⟨hw, hf | ht⟩ := joinCollective_ok.mp h
  · exact absurd hf.1 (by simp [hv])
  · exact ⟨OrdMap.not_contains_iff.mp hw, ht.2⟩

theorem reduceSendRecvHandler_ok {sent recv : ℕ} (hv : c.validContexts = true)
    (h : reduceSendRecvHandler c i sent recv = .ok x) :
    i ∉ c.reduceSent.dom ∧
      reduceSendRecvChecker { c with
        reduceSent := c.reduceSent.insert i sent
        reduceRecv := c.reduceRecv.insert i recv } = .ok x := by
  unfold reduceSendRecvHandler at h
  split at h
  · split at h <;> cases h
  · next hw =>
    rw [if_neg (by simp [hv])] at h
    exact ⟨OrdMap.not_contains_iff.mp (by simpa using hw), h⟩

theorem allGatherHandler_ok {t : TIME} (hv : c.validContexts = true) (h : allGatherHandler c i t = .ok x) :
    i ∉ c.allGather.dom ∧ c.netSimID ≠ some i ∧
      allGatherChecker { c with allGather := c.allGather.insert i t } = .ok x := by
  unfold allGatherHandler at h
  split at h
  · cases h
  · next hw =>
    split at h
    · cases h
    · next hn =>
      rw [if_neg (by simp [hv])] at h
      exact ⟨OrdMap.not_contains_iff.mp (by simpa using hw), fun he => hn he.symm, h⟩

end Valid

/-! ## SLEEP -/

/-- The entries a SLEEP of `i` is checked against. -/
def Context.putToSleep (c : Context ι) (i : ι) : Context ι :=
  { c with asleep := c.asleep.add i, worldSizes := c.worldSizes - 1, contexts := c.contexts.erase i }

/-- Everybody awake again. -/
def Context.wakeAll (c : Context ι) (worldSize : ℕ) : Context ι :=
  { c with contexts := c.contexts.union c.asleep, asleep := ∅, worldSizes := worldSize }

theorem sleepRecheck_ok {c : Context ι} {x : Context ι × Replies ι} (h : sleepRecheck c = .ok x) :
    (c.worldSizes = 1 ∧ x = (c, [])) ∨
    (c.worldSizes ≠ 1 ∧ ∃ c₁ out₁ c₂ out₂ c₃ out₃, barrierChecker c = .ok (c₁, out₁) ∧
      reduceMinTimeChecker c₁ = .ok (c₂, out₂) ∧ reduceSendRecvChecker c₂ = .ok (c₃, out₃) ∧
      x = (c₃, out₁ ++ out₂ ++ out₃)) := by
  unfold sleepRecheck at h
  split at h
  · next hw =>
    split at h
    · cases h
    next c₁ out₁ h₁ =>
    split at h
    · cases h
    next c₂ out₂ h₂ =>
    split at h
    · cases h
    next c₃ out₃ h₃ =>
    simp only [Except.ok.injEq] at h
    exact .inr ⟨hw, c₁, out₁, c₂, out₂, c₃, out₃, h₁, h₂, h₃, h.symm⟩
  · next hw =>
    simp only [Except.ok.injEq] at h
    exact .inl ⟨by simpa using hw, h.symm⟩

theorem sleepWakeAll_ok {n : ℕ} {c : Context ι} {out : Replies ι} {x : Context ι × Replies ι}
    (h : sleepWakeAll n c out = .ok x) :
    c.worldSizes ≠ 0 ∧ ((c.asleep.size < n - 1 ∧ x = (c, out)) ∨
      (c.asleep.size = n - 1 ∧ c.worldSizes = 1 ∧ x = (c.wakeAll n, out ++ replyAll c.asleep .ack))) := by
  unfold sleepWakeAll at h
  split at h
  · cases h
  next h0 =>
  split at h
  · cases h
  next hle =>
  split at h
  · next heq =>
    split at h
    · cases h
    next hw =>
    simp only [Except.ok.injEq] at h
    exact ⟨h0, .inr ⟨heq, by simpa using hw, h.symm⟩⟩
  · next hne =>
    simp only [Except.ok.injEq] at h
    exact ⟨h0, .inl ⟨by omega, h.symm⟩⟩

theorem sleepHandler_ok {n : ℕ} {c : Context ι} {i : ι} {x : Context ι × Replies ι}
    (h : sleepHandler n c i = .ok x) :
    i ∉ c.asleep.dom ∧ ∃ c₁ out, sleepRecheck (c.putToSleep i) = .ok (c₁, out) ∧
      sleepWakeAll n c₁ out = .ok x := by
  unfold sleepHandler at h
  split at h
  · cases h
  next hw =>
  split at h
  · cases h
  next c₁ out hr => exact ⟨OrdMap.not_contains_iff.mp (by simpa using hw), c₁, out, hr, h⟩

/-! ## Whole-broker plumbing -/

theorem context_ok {b : Broker ι} {k : ℕ} {c : Context ι} : b.context k = .ok c ↔ b.ctxs[k]? = some c := by
  unfold context
  cases b.ctxs[k]? <;> simp

theorem onContext_ok {b : Broker ι} {k : ℕ} {f : Context ι → Handled ι}
    {x : Broker ι × Replies ι × List Publication} :
    b.onContext k f = .ok x ↔
      ∃ c c' out, b.ctxs[k]? = some c ∧ f c = .ok (c', out) ∧ x = (b.setContext k c', out, []) := by
  simp only [onContext, Trace.seq_eq_ok, context_ok, Except.ok.injEq, Prod.exists]
  constructor
  · rintro ⟨c, hc, c', out, hf, rfl⟩; exact ⟨c, c', out, hc, hf, rfl⟩
  · rintro ⟨c, c', out, hc, hf, rfl⟩; exact ⟨c, hc, c', out, hf, rfl⟩

theorem onContext_of_ok {b : Broker ι} {k : ℕ} {f : Context ι → Handled ι} {c c' : Context ι}
    {out : Replies ι} (hc : b.ctxs[k]? = some c) (hf : f c = .ok (c', out)) :
    b.onContext k f = .ok (b.setContext k c', out, []) :=
  onContext_ok.mpr ⟨c, c', out, hc, hf, rfl⟩

@[simp] theorem setContext_worldSize (b : Broker ι) (k : ℕ) (c : Context ι) :
    (b.setContext k c).worldSize = b.worldSize := rfl

@[simp] theorem setContext_ctxs (b : Broker ι) (k : ℕ) (c : Context ι) :
    (b.setContext k c).ctxs = b.ctxs.set k c := rfl

/-! ## HELLO -/

theorem helloHandler_ok {b : Broker ι} {i : ι} {k : ℕ} {parent : ℤ} {netSim : Bool}
    {x : Broker ι × Replies ι × List Publication} (h : helloHandler b i k parent netSim = .ok x) :
    (netSim = true → b.newNetSimID = none) ∧
    (((noteHello b i parent netSim).newConnections.size < b.worldSize ∧
        x = (noteHello b i parent netSim, [], [])) ∨
      ((noteHello b i parent netSim).newConnections.size = b.worldSize ∧
        helloComplete (noteHello b i parent netSim) k = .ok x)) := by
  unfold helloHandler at h
  split at h
  · cases h
  next hnet =>
  refine ⟨fun hn => by simpa [hn] using hnet, ?_⟩
  have hw : (noteHello b i parent netSim).worldSize = b.worldSize := rfl
  simp only at h
  split at h
  · cases h
  next hle =>
  split at h
  · next heq => exact .inr ⟨heq, h⟩
  · next hne =>
    simp only [Except.ok.injEq] at h
    exact .inl ⟨by omega, h.symm⟩

theorem helloComplete_ok {b : Broker ι} {k : ℕ} {x : Broker ι × Replies ι × List Publication}
    (h : helloComplete b k = .ok x) :
    b.newParents.size = 1 ∧ ∃ b₂,
      ((b.newParents.keys.head? ≠ some (-1) ∧ b₂ = b.addContext) ∨
        (b.newParents.keys.head? = some (-1) ∧ ∃ c, b.addContext.ctxs[k]? = some c ∧
          b₂ = b.addContext.setContext k (c.number b.newConnections))) ∧
      x = (b₂.clearGroup, replyAll b.newConnections (.context b.ctxs.length), []) := by
  unfold helloComplete at h
  simp only at h
  split at h
  · cases h
  next hp =>
  refine ⟨by simpa using hp, ?_⟩
  split at h
  · next hroot =>
    simp only [Trace.seq_eq_ok, Except.ok.injEq, context_ok] at h
    obtain ⟨c, hc, rfl⟩ := h
    exact ⟨_, .inr ⟨hroot, c, hc, rfl⟩, rfl⟩
  · next hroot =>
    simp only [Except.ok.injEq] at h
    exact ⟨_, .inl ⟨hroot, rfl⟩, h.symm⟩

/-- The contexts after a HELLO: the old ones and perhaps a fresh one, up to
their maps of logical ids. -/
theorem helloHandler_ctxs {b b' : Broker ι} {i : ι} {k : ℕ} {parent : ℤ} {netSim : Bool}
    {out : Replies ι} {pubs : List Publication}
    (h : helloHandler b i k parent netSim = .ok (b', out, pubs)) :
    b'.worldSize = b.worldSize ∧ ∀ c ∈ b'.ctxs, ∃ c₀ logical, c = { c₀ with logicalIDToRealID := logical } ∧
      (c₀ ∈ b.ctxs ∨ ∃ net members parents, c₀ = Context.fresh b.worldSize net members parents) := by
  have hadd : ∀ c ∈ (noteHello b i parent netSim).addContext.ctxs,
      c ∈ b.ctxs ∨ ∃ net members parents, c = Context.fresh b.worldSize net members parents := by
    intro c hc
    rcases List.mem_append.mp hc with hc | hc
    · exact .inl hc
    · exact .inr ⟨_, _, _, List.mem_singleton.mp hc⟩
  obtain ⟨-, ⟨-, hx⟩ | ⟨-, hc⟩⟩ := helloHandler_ok h
  · simp only [Prod.mk.injEq] at hx
    obtain ⟨rfl, -, -⟩ := hx
    exact ⟨rfl, fun c hc => ⟨c, _, rfl, .inl hc⟩⟩
  · obtain ⟨-, b₂, hb₂, hx⟩ := helloComplete_ok hc
    simp only [Prod.mk.injEq] at hx
    obtain ⟨rfl, -, -⟩ := hx
    rcases hb₂ with ⟨-, rfl⟩ | ⟨-, c₁, hc₁, rfl⟩
    · exact ⟨rfl, fun c hc => ⟨c, _, rfl, hadd c hc⟩⟩
    · refine ⟨rfl, fun c hc => ?_⟩
      rcases List.mem_or_eq_of_mem_set hc with hc | rfl
      · exact ⟨c, _, rfl, hadd c hc⟩
      · exact ⟨c₁, _, rfl, hadd c₁ (List.mem_of_getElem? hc₁)⟩

end Fncs.Broker

/-
Routing across forks. A `Family` is the broker together with the processes
behind its identities: which member of the initial group each descends from,
and which identities have been used.

A fork leaves in the child context the forks of the processes of the parent,
in the parent context the same processes under their new identities, each at
its logical id (`run_fork`). So an object's logical owner denotes, in every
context, the descendant of the member that registered it (`FamilyInv.routeHandler`).
-/
import Fncs.Broker.Registration

namespace Fncs.Broker

variable {ι : Type} [LinearOrder ι]

/-! ## The reports of one fork, in any order -/

/-- The reports that are still to come once the forks of `A` and the members `P` have reported. -/
structure Remaining (k : ℕ) (c : Context ι) (child parent : ι → ι) (A P : OrdSet ι) (r : List (Frame ι)) : Prop where
  nodup : r.Nodup
  mem : ∀ f, f ∈ r ↔ (∃ i ∈ c.contexts.dom, i ∉ A.dom ∧ f = childFrame k c child i) ∨
    ∃ i ∈ c.contexts.dom, i ∉ P.dom ∧ f = parentFrame k parent i

section Fork

variable {b : Broker ι} {k : ℕ} {c : Context ι} {child parent : ι → ι} {A P : OrdSet ι} {i j : ι}
  {r : List (Frame ι)}

omit [LinearOrder ι] in
theorem parentFrame_inj (h : parentFrame k parent i = parentFrame k parent j) : i = j := by
  simp only [parentFrame, Frame.mk.injEq, Request.parentReinit.injEq] at h
  exact h.2.2

theorem childFrame_inj (h : childFrame k c child i = childFrame k c child j) : i = j := by
  simp only [childFrame, Frame.mk.injEq] at h
  have hr := h.2.2
  split at hr <;> split at hr <;> simp_all

theorem childFrame_ne_parentFrame : childFrame k c child i ≠ parentFrame k parent j := by
  intro h
  simp only [childFrame, parentFrame, Frame.mk.injEq] at h
  have hr := h.2.2
  split at hr <;> cases hr

/-- All reports of a group, in some order. -/
theorem Remaining.of_perm (h : r.Perm (c.contexts.keys.map (childFrame k c child) ++
    c.contexts.keys.map (parentFrame k parent))) : Remaining k c child parent ∅ ∅ r where
  nodup := by
    rw [h.nodup_iff, List.nodup_append]
    refine ⟨c.contexts.nodup_keys.map fun _ _ => childFrame_inj, c.contexts.nodup_keys.map fun _ _ => parentFrame_inj, ?_⟩
    intro f hf f' hf'
    obtain ⟨i, -, rfl⟩ := List.mem_map.mp hf
    obtain ⟨j, -, rfl⟩ := List.mem_map.mp hf'
    exact childFrame_ne_parentFrame
  mem f := by
    rw [h.mem_iff]
    simp [OrdMap.mem_dom, eq_comm]

theorem Remaining.tail_child (h : Remaining k c child parent A P (childFrame k c child i :: r)) :
    i ∈ c.contexts.dom ∧ i ∉ A.dom ∧ Remaining k c child parent (A.add i) P r := by
  obtain ⟨hnd, hmem⟩ := h
  have hnot := (List.nodup_cons.mp hnd).1
  have hi : i ∈ c.contexts.dom ∧ i ∉ A.dom := by
    rcases (hmem _).mp List.mem_cons_self with ⟨j, hj, hjA, he⟩ | ⟨j, -, -, he⟩
    · exact childFrame_inj he ▸ ⟨hj, hjA⟩
    · exact absurd he childFrame_ne_parentFrame
  refine ⟨hi.1, hi.2, (List.nodup_cons.mp hnd).2, fun f => ?_⟩
  have hf : f ∈ r ↔ f ∈ childFrame k c child i :: r ∧ f ≠ childFrame k c child i := by
    simp only [List.mem_cons]
    exact ⟨fun hf => ⟨.inr hf, fun he => hnot (he ▸ hf)⟩, fun ⟨hf, hne⟩ => hf.resolve_left hne⟩
  rw [hf, hmem]
  constructor
  · rintro ⟨⟨j, hj, hjA, rfl⟩ | ⟨j, hj, hjP, rfl⟩, hne⟩
    · refine .inl ⟨j, hj, ?_, rfl⟩
      rw [OrdSet.dom_add, Finset.mem_insert]
      rintro (rfl | h)
      · exact hne rfl
      · exact hjA h
    · exact .inr ⟨j, hj, hjP, rfl⟩
  · rintro (⟨j, hj, hjA, rfl⟩ | ⟨j, hj, hjP, rfl⟩)
    · rw [OrdSet.dom_add, Finset.mem_insert, not_or] at hjA
      exact ⟨.inl ⟨j, hj, hjA.2, rfl⟩, fun he => hjA.1 (childFrame_inj he)⟩
    · exact ⟨.inr ⟨j, hj, hjP, rfl⟩, childFrame_ne_parentFrame.symm⟩

theorem Remaining.tail_parent (h : Remaining k c child parent A P (parentFrame k parent i :: r)) :
    i ∈ c.contexts.dom ∧ i ∉ P.dom ∧ Remaining k c child parent A (P.add i) r := by
  obtain ⟨hnd, hmem⟩ := h
  have hnot := (List.nodup_cons.mp hnd).1
  have hi : i ∈ c.contexts.dom ∧ i ∉ P.dom := by
    rcases (hmem _).mp List.mem_cons_self with ⟨j, -, -, he⟩ | ⟨j, hj, hjP, he⟩
    · exact absurd he.symm childFrame_ne_parentFrame
    · exact parentFrame_inj he ▸ ⟨hj, hjP⟩
  refine ⟨hi.1, hi.2, (List.nodup_cons.mp hnd).2, fun f => ?_⟩
  have hf : f ∈ r ↔ f ∈ parentFrame k parent i :: r ∧ f ≠ parentFrame k parent i := by
    simp only [List.mem_cons]
    exact ⟨fun hf => ⟨.inr hf, fun he => hnot (he ▸ hf)⟩, fun ⟨hf, hne⟩ => hf.resolve_left hne⟩
  rw [hf, hmem]
  constructor
  · rintro ⟨⟨j, hj, hjA, rfl⟩ | ⟨j, hj, hjP, rfl⟩, hne⟩
    · exact .inl ⟨j, hj, hjA, rfl⟩
    · refine .inr ⟨j, hj, ?_, rfl⟩
      rw [OrdSet.dom_add, Finset.mem_insert]
      rintro (rfl | h)
      · exact hne rfl
      · exact hjP h
  · rintro (⟨j, hj, hjA, rfl⟩ | ⟨j, hj, hjP, rfl⟩)
    · exact ⟨.inl ⟨j, hj, hjA, rfl⟩, childFrame_ne_parentFrame⟩
    · rw [OrdSet.dom_add, Finset.mem_insert, not_or] at hjP
      exact ⟨.inr ⟨j, hj, hjP.2, rfl⟩, fun he => hjP.1 (parentFrame_inj he)⟩

/-- Nobody is left to report. -/
theorem Remaining.nil (h : Remaining k c child parent A P []) (hA : A.dom ⊆ c.contexts.dom)
    (hP : P.dom ⊆ c.contexts.dom) : A = c.contexts ∧ P = c.contexts := by
  have hno := h.mem
  constructor
  · refine OrdSet.ext_dom (hA.antisymm fun i hi => ?_)
    by_contra hiA
    exact absurd ((hno _).mpr (.inl ⟨i, hi, hiA, rfl⟩)) (by simp)
  · refine OrdSet.ext_dom (hP.antisymm fun i hi => ?_)
    by_contra hiP
    exact absurd ((hno _).mpr (.inr ⟨i, hi, hiP, rfl⟩)) (by simp)

/-- A VALID among the replies `out` of the step from `b₁` to `b₂` comes after the child
context, number `k'`, was made: before the step, or in it and announced first. -/
def ValidAfterChild (k' : ℕ) (children : OrdSet ι) (b₁ b₂ : Broker ι) (out : Replies ι) : Prop :=
  ∀ i, (i, .valid) ∈ out → b₂.ctxs.length = k' + 1 ∧
    (b₁.ctxs.length = k' + 1 ∨ ∃ rest, out = replyAll children (.context k') ++ rest)

/-- Each step of the run `fs` from `b` replies as `Q` allows. -/
def EveryReply (Q : Broker ι → Broker ι → Replies ι → Prop) (b : Broker ι) (fs : List (Frame ι)) : Prop :=
  ∀ l f r, fs = l ++ f :: r → ∃ b₁ b₂ out, Trace.run advance b l = .ok b₁ ∧
    b₁.step f.identity f.context f.request = .ok (b₂, out, []) ∧ Q b₁ b₂ out

theorem EveryReply.cons {Q : Broker ι → Broker ι → Replies ι → Prop} {f : Frame ι} {b₂ : Broker ι} {out : Replies ι}
    (hs : b.step f.identity f.context f.request = .ok (b₂, out, [])) (hq : Q b b₂ out) (h : EveryReply Q b₂ r) :
    EveryReply Q b (f :: r) := by
  intro l f' r' he
  cases l with
  | nil =>
    obtain ⟨rfl, rfl⟩ := List.cons.inj he
    exact ⟨b, b₂, out, rfl, hs, hq⟩
  | cons f'' l =>
    obtain ⟨rfl, rfl⟩ := List.cons.inj he
    obtain ⟨b₁, b₃, out', hl, hs', hq'⟩ := h l f' r' rfl
    exact ⟨b₁, b₃, out', Trace.run_cons.mpr ⟨b₂, by simp [advance, hs, Except.map], hl⟩, hs', hq'⟩

theorem forkState_length : (b.forkState k c child parent A P).ctxs.length =
    if A = c.contexts then b.ctxs.length + 1 else b.ctxs.length := by
  by_cases hA : A = c.contexts <;> simp [forkState, hA, withChild, collecting]

theorem mem_forkReplies_valid {last : Bool} (h : (i, Reply.valid) ∈ b.forkReplies c child parent A P last) :
    A = c.contexts ∧ b.forkReplies c child parent A P last =
      (if last then replyAll (OrdSet.ofList (c.contexts.keys.map child)) (.context b.ctxs.length) else []) ++
        validReplies c parent := by
  unfold forkReplies at h ⊢
  split at h
  · next hA =>
    refine ⟨hA, ?_⟩
    rw [if_pos hA]
    by_cases hP : P = c.contexts
    · rw [if_pos hP]
    · rw [if_neg hP, List.append_nil] at h
      cases last
      · simp at h
      · rw [if_pos rfl] at h
        cases Answered.replyAll.value _ h
  · simp at h

/-- The reports of a fork, in whatever order they come. -/
theorem run_remaining (h : Forkable b k c) (hr : Remaining k c child parent A P r) (hA : A.dom ⊆ c.contexts.dom)
    (hP : P.dom ⊆ c.contexts.dom) :
    Trace.run advance (b.forkState k c child parent A P) r =
      .ok (b.forkState k c child parent c.contexts c.contexts) ∧
    EveryReply (ValidAfterChild b.ctxs.length (OrdSet.ofList (c.contexts.keys.map child)))
      (b.forkState k c child parent A P) r := by
  induction r generalizing A P with
  | nil =>
    obtain ⟨rfl, rfl⟩ := hr.nil hA hP
    exact ⟨rfl, fun l f r he => by simp at he⟩
  | cons f r ih =>
    rcases (hr.mem f).mp List.mem_cons_self with ⟨i, -, -, rfl⟩ | ⟨i, -, -, rfl⟩
    · obtain ⟨hi, hiA, hr'⟩ := hr.tail_child
      have hA' : (A.add i).dom ⊆ c.contexts.dom := by
        rw [OrdSet.dom_add]
        exact Finset.insert_subset hi hA
      have hs := step_childFrame h hA hP hi hiA child parent
      obtain ⟨hrun, hrep⟩ := ih hr' hA' hP
      refine ⟨Trace.run_cons.mpr ⟨_, by rw [advance, hs]; rfl, hrun⟩, .cons hs (fun j hj => ?_) hrep⟩
      obtain ⟨hall, hout⟩ := mem_forkReplies_valid hj
      exact ⟨by rw [forkState_length, if_pos hall], .inr ⟨_, hout⟩⟩
    · obtain ⟨hi, hiP, hr'⟩ := hr.tail_parent
      have hP' : (P.add i).dom ⊆ c.contexts.dom := by
        rw [OrdSet.dom_add]
        exact Finset.insert_subset hi hP
      have hs := step_parentFrame h hP hi hiP A child parent
      obtain ⟨hrun, hrep⟩ := ih hr' hA hP'
      refine ⟨Trace.run_cons.mpr ⟨_, by rw [advance, hs]; rfl, hrun⟩, .cons hs (fun j hj => ?_) hrep⟩
      obtain ⟨hall, -⟩ := mem_forkReplies_valid hj
      exact ⟨by rw [forkState_length, if_pos hall], .inl (by rw [forkState_length, if_pos hall])⟩

/-- A fork, from the first report to the last. -/
theorem run_fork (h : Forkable b k c) (hr : r.Perm (c.contexts.keys.map (childFrame k c child) ++
    c.contexts.keys.map (parentFrame k parent))) :
    Trace.run advance b r = .ok (b.withChild k c child (c.rename parent)) ∧
    EveryReply (ValidAfterChild b.ctxs.length (OrdSet.ofList (c.contexts.keys.map child))) b r := by
  obtain ⟨net, hnet, -⟩ := h.routable.netSim
  have hne : (∅ : OrdSet ι) ≠ c.contexts := by
    intro he
    rw [← he] at hnet
    simp at hnet
  have h0 : b.forkState k c child parent ∅ ∅ = b := by
    have hid : identities (∅ : OrdSet ι) child = ∅ := rfl
    have hset : b.ctxs.set k (c.reporting (identities ∅ parent) false) = b.ctxs := by
      have : c.reporting (identities ∅ parent) false = c := by
        rw [Context.reporting, ← h.routable.idle, show identities (∅ : OrdSet ι) parent = ∅ from rfl, ← h.routable.reinit]
      obtain ⟨hlt, hget⟩ := List.getElem?_eq_some_iff.mp h.context
      rw [this, ← hget, List.set_getElem_self]
    have hnone : (c.netSimID.bind (∅ : OrdMap ι ι).lookup) = none := by cases c.netSimID <;> rfl
    rw [forkState, if_pos hne, collecting, hid, hset, hnone, ← h.childIniMap, ← h.newNetSimID, if_pos rfl, ← h.newParents]
  have hrun := run_remaining h (.of_perm hr) (by simp) (by simp)
  rw [h0] at hrun
  simpa [forkState] using hrun

end Fork

/-! ## Families of processes -/

/-- The broker, the member of the initial group each identity descends from,
and the identities used so far. -/
structure Family (ι : Type) [LinearOrder ι] where
  broker : Broker ι
  ancestor : ι → ι
  known : Finset ι

/-- A fork of context `context`: the identities of the forks and of the
re-connected members, and their reports in the order they reach the broker. -/
structure Fork (ι : Type) where
  context : ℕ
  child : ι → ι
  parent : ι → ι
  reports : List (Frame ι)

namespace Family

def start (g : HelloGroup ι) (b : Broker ι) : Family ι where
  broker := b
  ancestor := id
  known := g.members.toFinset

/-- The identities a fork brings. -/
def newIdentities (c : Context ι) (F : Fork ι) : List ι := c.contexts.keys.map F.child ++ c.contexts.keys.map F.parent

/-- The reports are those of the members of the context, each with its true
old identity, and the new identities are distinct and fresh. -/
def allowed (s : Family ι) (F : Fork ι) : Bool :=
  match s.broker.ctxs[F.context]? with
  | none => false
  | some c =>
    F.reports.isPerm (c.contexts.keys.map (childFrame F.context c F.child) ++
      c.contexts.keys.map (parentFrame F.context F.parent)) &&
    decide (newIdentities c F).Nodup && (newIdentities c F).all fun i => decide (i ∉ s.known)

/-- The member whose fork or re-connection `j` is. -/
def origin (c : Context ι) (F : Fork ι) (j : ι) : Option ι :=
  c.contexts.keys.find? fun i => F.child i = j || F.parent i = j

def after (s : Family ι) (F : Fork ι) (c : Context ι) (b : Broker ι) : Family ι where
  broker := b
  ancestor := fun j => s.ancestor ((origin c F j).getD j)
  known := s.known ∪ (newIdentities c F).toFinset

def step (s : Family ι) (F : Fork ι) : Except Refusal (Family ι) :=
  if allowed s F then
    match s.broker.ctxs[F.context]?, Trace.run advance s.broker F.reports with
    | some c, .ok b => .ok (s.after F c b)
    | _, .error e => .error (.stopped e)
    | none, _ => .error .notAllowed
  else .error .notAllowed

theorem allowed_iff {s : Family ι} {F : Fork ι} : s.allowed F = true ↔ ∃ c, s.broker.ctxs[F.context]? = some c ∧
    F.reports.Perm (c.contexts.keys.map (childFrame F.context c F.child) ++
      c.contexts.keys.map (parentFrame F.context F.parent)) ∧
    (newIdentities c F).Nodup ∧ ∀ i ∈ newIdentities c F, i ∉ s.known := by
  unfold allowed
  cases s.broker.ctxs[F.context]? with
  | none => simp
  | some c => simp [List.isPerm_iff, and_assoc]

theorem step_ok {s s' : Family ι} {F : Fork ι} (h : s.step F = .ok s') : s.allowed F = true ∧ ∃ c b,
    s.broker.ctxs[F.context]? = some c ∧ Trace.run advance s.broker F.reports = .ok b ∧ s' = s.after F c b := by
  unfold step at h
  split at h
  · next ha =>
    split at h
    · next c b hc hb =>
      simp only [Except.ok.injEq] at h
      exact ⟨ha, c, b, hc, hb, h.symm⟩
    · cases h
    · cases h
  · cases h

section Origin

variable {c : Context ι} {F : Fork ι} {i j : ι}

theorem origin_eq_some (h : origin c F j = some i) : i ∈ c.contexts.keys ∧ (F.child i = j ∨ F.parent i = j) :=
  ⟨List.mem_of_find?_eq_some h, by simpa using List.find?_some h⟩

/-- The new identities are apart. -/
theorem newIdentities_nodup (h : (newIdentities c F).Nodup) :
    Set.InjOn F.child c.contexts.dom ∧ Set.InjOn F.parent c.contexts.dom ∧
      ∀ i ∈ c.contexts.keys, ∀ j ∈ c.contexts.keys, F.child i ≠ F.parent j := by
  obtain ⟨hc, hp, hcp⟩ := List.nodup_append.mp h
  refine ⟨fun i hi j hj he => ?_, fun i hi j hj he => ?_, fun i hi j hj => ?_⟩
  · exact List.inj_on_of_nodup_map hc (List.mem_toFinset.mp hi) (List.mem_toFinset.mp hj) he
  · exact List.inj_on_of_nodup_map hp (List.mem_toFinset.mp hi) (List.mem_toFinset.mp hj) he
  · exact hcp _ (List.mem_map_of_mem hi) _ (List.mem_map_of_mem hj)

theorem origin_child (h : (newIdentities c F).Nodup) (hi : i ∈ c.contexts.keys) : origin c F (F.child i) = some i := by
  obtain ⟨hc, -, hcp⟩ := newIdentities_nodup h
  cases ho : origin c F (F.child i) with
  | none => exact absurd (List.find?_eq_none.mp ho i hi) (by simp)
  | some i' =>
    obtain ⟨hi', he | he⟩ := origin_eq_some ho
    · exact congrArg some (hc (List.mem_toFinset.mpr hi') (List.mem_toFinset.mpr hi) he)
    · exact absurd he.symm (hcp i hi i' hi')

theorem origin_parent (h : (newIdentities c F).Nodup) (hi : i ∈ c.contexts.keys) :
    origin c F (F.parent i) = some i := by
  obtain ⟨-, hp, hcp⟩ := newIdentities_nodup h
  cases ho : origin c F (F.parent i) with
  | none => exact absurd (List.find?_eq_none.mp ho i hi) (by simp)
  | some i' =>
    obtain ⟨hi', he | he⟩ := origin_eq_some ho
    · exact absurd he (hcp i' hi' i hi)
    · exact congrArg some (hp (List.mem_toFinset.mpr hi') (List.mem_toFinset.mpr hi) he)

theorem origin_known {known : Finset ι} (h : ∀ i ∈ newIdentities c F, i ∉ known) (hj : j ∈ known) :
    origin c F j = none := by
  cases ho : origin c F j with
  | none => rfl
  | some i =>
    obtain ⟨hi, he⟩ := origin_eq_some ho
    refine absurd hj (h j ?_)
    rcases he with rfl | rfl <;> simp only [newIdentities, List.mem_append]
    · exact .inl (List.mem_map_of_mem hi)
    · exact .inr (List.mem_map_of_mem hi)

end Origin

end Family

/-! ## Runs of forks -/

/-- The entries of a context whose members descend, logical id by logical id, from the initial group. -/
structure Descends (g : HelloGroup ι) (ancestor : ι → ι) (known : Finset ι) (c : Context ι) : Prop where
  routable : Routable g.size c
  known : c.contexts.dom ⊆ known
  logical : ∀ l i, c.logicalIDToRealID.lookup l = some i → g.context.logicalIDToRealID.lookup l = some (ancestor i)
  netSim : ∀ i, c.netSimID = some i → ancestor i = g.netSim

structure FamilyInv (g : HelloGroup ι) (objs : List (ι × String)) (s : Family ι) : Prop where
  worldSize : s.broker.worldSize = g.size
  childIniMap : s.broker.childIniMap = ∅
  newConnections : s.broker.newConnections = ∅
  newParents : s.broker.newParents = ∅
  newNetSimID : s.broker.newNetSimID = none
  owner : ∀ e ∈ objs, e.1 ≠ g.netSim → ∃ l, s.broker.objToID.lookup e.2 = some l ∧
    g.context.logicalIDToRealID.lookup l = some e.1
  descends : ∀ c ∈ s.broker.ctxs, Descends g s.ancestor s.known c

section Runs

variable {g : HelloGroup ι} {objs : List (ι × String)} {s : Family ι}

theorem FamilyInv.start {b : Broker ι} (h : Registered g objs b) : FamilyInv g objs (Family.start g b) := by
  obtain ⟨hb, ho⟩ := h
  refine ⟨?_, ?_, ?_, ?_, ?_, ho, ?_⟩
  · exact (congrArg Broker.worldSize hb).trans rfl
  · exact (congrArg Broker.childIniMap hb).trans rfl
  · exact (congrArg Broker.newConnections hb).trans rfl
  · exact (congrArg Broker.newParents hb).trans rfl
  · exact (congrArg Broker.newNetSimID hb).trans rfl
  · intro c hc
    have hctxs : b.ctxs = [{ g.context with netSimObjCount := (objectsOf objs g.netSim).length }] :=
      congrArg Broker.ctxs hb
    obtain rfl : c = { g.context with netSimObjCount := (objectsOf objs g.netSim).length } := by
      simpa [Family.start, hctxs] using hc
    have hr := g.routable
    refine ⟨⟨hr.valid, hr.idle, hr.reinit, hr.size, hr.logical_dom, hr.logical_mem, hr.logical_inj, hr.logical_surj,
      hr.netSim⟩, ?_, fun l i hl => hl, ?_⟩
    · simp [Family.start, HelloGroup.context, Context.number, Context.fresh]
    · intro i hi
      exact (Option.some.inj hi).symm

theorem FamilyInv.forkable (h : FamilyInv g objs s) {k : ℕ} {c : Context ι} (hc : s.broker.ctxs[k]? = some c) :
    Forkable s.broker k c where
  context := hc
  routable := by
    rw [h.worldSize]
    exact (h.descends c (List.mem_of_getElem? hc)).routable
  childIniMap := h.childIniMap
  newConnections := h.newConnections
  newParents := h.newParents
  newNetSimID := h.newNetSimID

/-- A context renamed by a fork descends as before. -/
theorem Descends.renamed {ancestor ancestor' : ι → ι} {known known' : Finset ι} {c c' : Context ι} {f : ι → ι}
    (h : Descends g ancestor known c) (hr : Routable g.size c')
    (hc : c'.contexts = OrdSet.ofList (c.contexts.keys.map f))
    (hl : c'.logicalIDToRealID = c.logicalIDToRealID.map fun _ i => f i) (hn : c'.netSimID = c.netSimID.map f)
    (hknown : ∀ i ∈ c.contexts.keys, f i ∈ known') (hanc : ∀ i ∈ c.contexts.keys, ancestor' (f i) = ancestor i) :
    Descends g ancestor' known' c' := by
  refine ⟨hr, ?_, fun l i hi => ?_, fun i hi => ?_⟩
  · intro i hi
    rw [hc, OrdSet.dom_ofList, List.mem_toFinset] at hi
    obtain ⟨j, hj, rfl⟩ := List.mem_map.mp hi
    exact hknown j hj
  · rw [hl, OrdMap.lookup_map, Option.map_eq_some_iff] at hi
    obtain ⟨j, hj, rfl⟩ := hi
    rw [hanc j (List.mem_toFinset.mp (h.routable.logical_mem l j hj))]
    exact h.logical l j hj
  · rw [hn, Option.map_eq_some_iff] at hi
    obtain ⟨j, hj, rfl⟩ := hi
    obtain ⟨net, hnet, hid⟩ := h.routable.netSim
    rw [hj, Option.some.injEq] at hid
    rw [hanc j (hid ▸ List.mem_toFinset.mp hnet)]
    exact h.netSim j hj

theorem FamilyInv.fork (h : FamilyInv g objs s) {F : Fork ι} {c : Context ι} (hc : s.broker.ctxs[F.context]? = some c)
    (hnd : (Family.newIdentities c F).Nodup) (hfresh : ∀ i ∈ Family.newIdentities c F, i ∉ s.known) :
    FamilyInv g objs (s.after F c (s.broker.withChild F.context c F.child (c.rename F.parent))) := by
  have hd := h.descends c (List.mem_of_getElem? hc)
  obtain ⟨hci, hpi, -⟩ := Family.newIdentities_nodup hnd
  refine ⟨h.worldSize, h.childIniMap, h.newConnections, h.newParents, h.newNetSimID, h.owner, fun d hdm => ?_⟩
  have hdm : d ∈ s.broker.ctxs ∨ d = c.rename F.parent ∨ d = c.childOf s.broker.worldSize F.context F.child := by
    rcases List.mem_append.mp hdm with hdm | hdm
    · rcases List.mem_or_eq_of_mem_set hdm with hdm | rfl
      · exact .inl hdm
      · exact .inr (.inl rfl)
    · exact .inr (.inr (List.mem_singleton.mp hdm))
  rcases hdm with hdm | rfl | rfl
  · obtain ⟨hr, hk, hl, hn⟩ := h.descends d hdm
    have hanc : ∀ i ∈ d.contexts.dom, (s.after F c
        (s.broker.withChild F.context c F.child (c.rename F.parent))).ancestor i = s.ancestor i := by
      intro i hi
      simp [Family.after, Family.origin_known hfresh (hk hi)]
    refine ⟨hr, hk.trans Finset.subset_union_left, fun l i hli => ?_, fun i hi => ?_⟩
    · rw [hanc i (hr.logical_mem l i hli)]
      exact hl l i hli
    · obtain ⟨net, hnet, hid⟩ := hr.netSim
      rw [hi, Option.some.injEq] at hid
      rw [hanc i (hid ▸ hnet)]
      exact hn i hi
  · refine hd.renamed (hd.routable.renamed hpi hd.routable.valid hd.routable.idle hd.routable.reinit rfl rfl rfl)
      rfl rfl rfl (fun i hi => ?_) (fun i hi => ?_)
    · exact Finset.mem_union_right _ (List.mem_toFinset.mpr (List.mem_append_right _ (List.mem_map_of_mem hi)))
    · simp [Family.after, Family.origin_parent hnd hi]
  · refine hd.renamed (hd.routable.renamed hci rfl rfl rfl rfl rfl rfl) rfl rfl rfl (fun i hi => ?_) (fun i hi => ?_)
    · exact Finset.mem_union_right _ (List.mem_toFinset.mpr (List.mem_append_left _ (List.mem_map_of_mem hi)))
    · simp [Family.after, Family.origin_child hnd hi]

/-- The logical ids of a context are a bijection onto its members. -/
def LogicalBijection (n : ℕ) (c : Context ι) : Prop :=
  ∃ real : ℕ → ι, (∀ l < n, c.logicalIDToRealID.lookup l = some (real l)) ∧
    (∀ l, n ≤ l → c.logicalIDToRealID.lookup l = none) ∧ Set.BijOn real (Set.Iio n) c.contexts.dom

theorem Routable.bijection {n : ℕ} {c : Context ι} (h : Routable n c) : LogicalBijection n c := by
  obtain ⟨net, -, -⟩ := h.netSim
  have hreal : ∀ l < n, c.logicalIDToRealID.lookup l = some ((c.logicalIDToRealID.lookup l).getD net) := by
    intro l hl
    obtain ⟨i, hi⟩ := OrdMap.mem_dom.mp ((h.logical_dom l).mpr hl)
    simp [hi]
  refine ⟨fun l => (c.logicalIDToRealID.lookup l).getD net, hreal, fun l hl => ?_, ?_, ?_, ?_⟩
  · rw [OrdMap.lookup_eq_none, h.logical_dom]
    omega
  · exact fun l hl => h.logical_mem l _ (hreal l hl)
  · exact fun l hl l' hl' he => h.logical_inj l l' _ (hreal l hl) ((hreal l' hl').trans (congrArg some he.symm))
  · intro i hi
    obtain ⟨l, hl⟩ := h.logical_surj i hi
    exact ⟨l, (h.logical_dom l).mp (OrdMap.mem_dom_of_lookup hl), by simp [hl]⟩

/-- What a fork of context `k`, with entries `c`, leaves: the processes of the
parent context re-connected, their forks in a new context, both at the logical
ids they had, and the other contexts as they were. -/
structure Forked (b b' : Broker ι) (c : Context ι) (F : Fork ι) : Prop where
  parent : ∃ d, b'.ctxs[F.context]? = some d ∧ d.contexts.dom = c.contexts.dom.image F.parent ∧
    d.netSimID = c.netSimID.map F.parent ∧
    ∀ l, d.logicalIDToRealID.lookup l = (c.logicalIDToRealID.lookup l).map F.parent
  child : ∃ d, b'.ctxs[b.ctxs.length]? = some d ∧ d.contexts.dom = c.contexts.dom.image F.child ∧
    d.netSimID = c.netSimID.map F.child ∧
    ∀ l, d.logicalIDToRealID.lookup l = (c.logicalIDToRealID.lookup l).map F.child
  others : ∀ k, k ≠ F.context → k < b.ctxs.length → b'.ctxs[k]? = b.ctxs[k]?
  size : b'.ctxs.length = b.ctxs.length + 1

theorem withChild_forked {b : Broker ι} {c : Context ι} {F : Fork ι} (hc : b.ctxs[F.context]? = some c) :
    Forked b (b.withChild F.context c F.child (c.rename F.parent)) c F := by
  have hlt := (List.getElem?_eq_some_iff.mp hc).1
  have himage : ∀ f : ι → ι, (OrdSet.ofList (c.contexts.keys.map f)).dom = c.contexts.dom.image f := by
    intro f
    rw [OrdSet.dom_ofList]
    ext i
    simp [OrdMap.mem_dom]
  refine ⟨⟨_, withChild_context hlt _ _ _, himage _, rfl, fun l => OrdMap.lookup_map _ _ _⟩,
    ⟨c.childOf b.worldSize F.context F.child, ?_, himage _, rfl, fun l => OrdMap.lookup_map _ _ _⟩, ?_, ?_⟩
  · simp [withChild]
  · intro k hk hkl
    simp [withChild, List.getElem?_append, hkl, hk.symm]
  · simp [withChild]

/-- Every context has its logical ids and its net sim, and any further fork works
out, no parent being answered VALID before the child context is there. -/
structure RoutingCorrect (g : HelloGroup ι) (s : Family ι) : Prop where
  logical : ∀ c ∈ s.broker.ctxs, LogicalBijection g.size c
  netSim : ∀ c ∈ s.broker.ctxs, ∃ i ∈ c.contexts.dom, c.netSimID = some i ∧ s.ancestor i = g.netSim
  fork : ∀ F c, s.broker.ctxs[F.context]? = some c → s.allowed F = true →
    ∃ b', Trace.run advance s.broker F.reports = .ok b' ∧ Forked s.broker b' c F ∧
      EveryReply (ValidAfterChild s.broker.ctxs.length (OrdSet.ofList (c.contexts.keys.map F.child)))
        s.broker F.reports

theorem FamilyInv.routing (h : FamilyInv g objs s) : RoutingCorrect g s where
  logical c hc := (h.descends c hc).routable.bijection
  netSim c hc := by
    obtain ⟨i, hi, hid⟩ := (h.descends c hc).routable.netSim
    exact ⟨i, hi, hid, (h.descends c hc).netSim i hid⟩
  fork F c hc ha := by
    obtain ⟨c', hc', hperm, -, -⟩ := Family.allowed_iff.mp ha
    obtain rfl : c = c' := Option.some.inj (hc.symm.trans hc')
    obtain ⟨hrun, hrep⟩ := run_fork (h.forkable hc) hperm
    exact ⟨_, hrun, withChild_forked hc, hrep⟩

/-- The tables of every context lead from an object to the one member that descends from the object's owner. -/
theorem FamilyInv.routeHandler (h : FamilyInv g objs s) {k : ℕ} {c : Context ι} (hc : s.broker.ctxs[k]? = some c)
    {e : ι × String} (he : e ∈ objs) (hne : e.1 ≠ g.netSim) : ∃ i, s.broker.routeHandler k e.2 = .ok i ∧
      ∀ j, j ∈ c.contexts.dom ∧ s.ancestor j = e.1 ↔ j = i := by
  have hd := h.descends c (List.mem_of_getElem? hc)
  obtain ⟨l, hl, hg⟩ := h.owner e he hne
  obtain ⟨i, hi⟩ := OrdMap.mem_dom.mp
    ((hd.routable.logical_dom l).mpr ((g.routable.logical_dom l).mp (OrdMap.mem_dom_of_lookup hg)))
  have hanc : s.ancestor i = e.1 := Option.some.inj ((hd.logical l i hi).symm.trans hg)
  refine ⟨i, ?_, fun j => ⟨fun ⟨hj, hja⟩ => ?_, fun hj => hj ▸ ⟨hd.routable.logical_mem l i hi, hanc⟩⟩⟩
  · simp [Broker.routeHandler, context_ok.mpr hc, bind, Except.bind, hl, hi]
  · obtain ⟨l', hl'⟩ := hd.routable.logical_surj j hj
    have := g.routable.logical_inj l' l e.1 (hja ▸ hd.logical l' j hl') hg
    rw [this, hi] at hl'
    exact (Option.some.inj hl').symm

theorem FamilyInv.step {s' : Family ι} {F : Fork ι} (h : FamilyInv g objs s) (hs : s.step F = .ok s') :
    FamilyInv g objs s' := by
  obtain ⟨ha, c, b, hc, hb, rfl⟩ := Family.step_ok hs
  obtain ⟨c', hc', hperm, hnd, hfresh⟩ := Family.allowed_iff.mp ha
  obtain rfl : c = c' := Option.some.inj (hc.symm.trans hc')
  have hrun := (run_fork (h.forkable hc) hperm).1
  rw [hb, Except.ok.injEq] at hrun
  subst hrun
  exact h.fork hc hnd hfresh

/-- The invariant in every broker that an initial group, its registrations and
any number of successive forks lead to. -/
theorem familyInv_of_run {b : Broker ι} {Fs : List (Fork ι)}
    (hstart : Trace.run advance (init g.size) (g.frames ++ objs.map registerFrame) = .ok b)
    (hrun : Trace.run Family.step (Family.start g b) Fs = .ok s) : FamilyInv g objs s :=
  Trace.run_invariant (I := FamilyInv g objs) (fun _ _ _ h hs => h.step hs) (.start (registered_of_run hstart)) hrun

/-- Contexts are added, never removed. -/
theorem FamilyInv.ctxs_ne_nil {s' : Family ι} {F : Fork ι} (h : FamilyInv g objs s) (hs : s.step F = .ok s') :
    s'.broker.ctxs ≠ [] := by
  obtain ⟨-, c, b, hc, hb, rfl⟩ := Family.step_ok hs
  obtain ⟨b', hb', hforked, -⟩ := h.routing.fork F c hc (Family.step_ok hs).1
  obtain rfl : b = b' := Except.ok.inj (hb.symm.trans hb')
  exact List.ne_nil_of_length_eq_add_one hforked.size

theorem ctxs_ne_nil_of_run {b : Broker ι} {Fs : List (Fork ι)}
    (hstart : Trace.run advance (init g.size) (g.frames ++ objs.map registerFrame) = .ok b)
    (hrun : Trace.run Family.step (Family.start g b) Fs = .ok s) : s.broker.ctxs ≠ [] := by
  have hreg := registered_of_run hstart
  refine (Trace.run_invariant (I := fun s => FamilyInv g objs s ∧ s.broker.ctxs ≠ [])
    (fun _ _ _ h hs => ⟨h.1.step hs, h.1.ctxs_ne_nil hs⟩) ⟨.start hreg, ?_⟩ hrun).2
  simp [Family.start, congrArg Broker.ctxs hreg.broker]

/-- Two forks, the second one of the child context of the first. -/
def twoForks : List (Fork ℕ) :=
  [{ context := 0, child := (· + 10), parent := (· + 20),
     reports := [⟨20, 0, .parentReinit 0⟩, ⟨12, 0, .childInit 0 2⟩, ⟨13, 0, .childInitNetSim 0 3⟩,
       ⟨21, 0, .parentReinit 1⟩, ⟨23, 0, .parentReinit 3⟩, ⟨22, 0, .parentReinit 2⟩, ⟨10, 0, .childInit 0 0⟩,
       ⟨11, 0, .childInit 0 1⟩] },
   { context := 1, child := (· + 100), parent := (· + 200),
     reports := [⟨113, 0, .childInitNetSim 1 13⟩, ⟨110, 0, .childInit 1 10⟩, ⟨112, 0, .childInit 1 12⟩,
       ⟨111, 0, .childInit 1 11⟩, ⟨210, 1, .parentReinit 10⟩, ⟨213, 1, .parentReinit 13⟩, ⟨212, 1, .parentReinit 12⟩,
       ⟨211, 1, .parentReinit 11⟩] }]

end Runs

end Fncs.Broker

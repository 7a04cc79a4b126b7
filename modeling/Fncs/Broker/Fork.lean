/-
Forking a context: every member sends CHILD_INIT from its fork and
PARENT_REINIT from itself, each under a new identity, in any interleaving.

`forkState A P` is the broker once the forks of the members `A` and the
members `P` themselves have reported. A report takes it to the state of one
more member whatever the order, and the last report leaves the child context
and the renamed parent context.
-/
import Fncs.Broker.Formation

namespace Fncs.Broker

variable {ι : Type} [LinearOrder ι]

/-! ## Logical ids -/

/-- A context of `n` members, each with one logical id, that nobody is forking. -/
structure Routable (n : ℕ) (c : Context ι) : Prop where
  valid : c.validContexts = true
  idle : c.childInitComplete = false
  reinit : c.reinitMap = ∅
  size : c.contexts.size = n
  logical_dom : ∀ l, l ∈ c.logicalIDToRealID.dom ↔ l < n
  logical_mem : ∀ l i, c.logicalIDToRealID.lookup l = some i → i ∈ c.contexts.dom
  logical_inj : ∀ l l' i, c.logicalIDToRealID.lookup l = some i → c.logicalIDToRealID.lookup l' = some i → l = l'
  logical_surj : ∀ i ∈ c.contexts.dom, ∃ l, c.logicalIDToRealID.lookup l = some i
  netSim : ∃ i ∈ c.contexts.dom, c.netSimID = some i

/-- The entries with every member `i` renamed `f i`. -/
def Context.rename (c : Context ι) (f : ι → ι) : Context ι :=
  { c with
    contexts := .ofList (c.contexts.keys.map f)
    netSimID := c.netSimID.map f
    logicalIDToRealID := c.logicalIDToRealID.map fun _ i => f i }

/-- The entries of the child context. -/
def Context.childOf (c : Context ι) (worldSize k : ℕ) (f : ι → ι) : Context ι :=
  { Context.fresh worldSize (c.netSimID.map f) ∅ (.ofList [(k : ℤ)]) with
    contexts := .ofList (c.contexts.keys.map f)
    logicalIDToRealID := c.logicalIDToRealID.map fun _ i => f i }

section Logical

variable {n : ℕ} {c : Context ι}

theorem Routable.logical_size (h : Routable n c) : c.logicalIDToRealID.size = n := by
  have : c.logicalIDToRealID.dom = Finset.range n := by
    ext l
    rw [h.logical_dom, Finset.mem_range]
  rw [← OrdMap.card_dom, this, Finset.card_range]

/-- Every logical id follows its process, whichever is renamed first. -/
theorem remap_eq {why : Death} {f : ι → ι} (h : Routable n c) :
    remap (c.contexts.map fun i _ => f i) why c.logicalIDToRealID =
      .ok (c.logicalIDToRealID.map fun _ i => f i) := by
  have key : ∀ j ≤ n, ∃ m, (List.range j).foldlM (remapOne (c.contexts.map fun i _ => f i) why)
      c.logicalIDToRealID = .ok m ∧
      ∀ l, m.lookup l = if l < j then (c.logicalIDToRealID.lookup l).map f else c.logicalIDToRealID.lookup l := by
    intro j hj
    induction j with
    | zero => exact ⟨_, rfl, by simp⟩
    | succ j ih =>
      obtain ⟨m, hm, hl⟩ := ih (by omega)
      obtain ⟨i, hi⟩ := OrdMap.mem_dom.mp ((h.logical_dom j).mpr (by omega))
      obtain ⟨u, hu⟩ := OrdMap.mem_dom.mp (h.logical_mem j i hi)
      have hstep : remapOne (c.contexts.map fun i _ => f i) why m j = .ok (m.insert j (f i)) := by
        simp [remapOne, hl j, hi, hu]
      refine ⟨m.insert j (f i), ?_, fun l => ?_⟩
      · rw [List.range_succ, List.foldlM_append, hm]
        simp only [bind, Except.bind, List.foldlM_cons, List.foldlM_nil, hstep, pure, Except.pure]
      · rw [OrdMap.lookup_insert, hl l]
        by_cases hlj : l = j
        · simp [hlj, hi]
        · have : l < j + 1 ↔ l < j := by omega
          simp [hlj, this]
  obtain ⟨m, hm, hl⟩ := key n le_rfl
  rw [remap, h.logical_size, hm, Except.ok.injEq]
  refine OrdMap.ext_lookup fun l => ?_
  rw [hl l, OrdMap.lookup_map]
  split
  · rfl
  · next hn =>
    have : c.logicalIDToRealID.lookup l = none := by
      rw [OrdMap.lookup_eq_none, h.logical_dom]
      exact hn
    rw [this]
    rfl

/-- Renaming the members apart keeps the logical ids a bijection. -/
theorem Routable.renamed {c' : Context ι} (h : Routable n c) {f : ι → ι}
    (hf : Set.InjOn f c.contexts.dom) (hv : c'.validContexts = true) (hi : c'.childInitComplete = false)
    (hr : c'.reinitMap = ∅) (hc : c'.contexts = .ofList (c.contexts.keys.map f))
    (hl : c'.logicalIDToRealID = c.logicalIDToRealID.map fun _ i => f i) (hn : c'.netSimID = c.netSimID.map f) :
    Routable n c' := by
  have hdom : c'.contexts.dom = c.contexts.dom.image f := by
    rw [hc, OrdSet.dom_ofList]
    ext i
    simp [OrdMap.mem_dom]
  have hlook : ∀ l i, c'.logicalIDToRealID.lookup l = some i ↔ ∃ j, c.logicalIDToRealID.lookup l = some j ∧ f j = i := by
    intro l i
    rw [hl, OrdMap.lookup_map, Option.map_eq_some_iff]
  refine ⟨hv, hi, hr, ?_, ?_, ?_, ?_, ?_, ?_⟩
  · rw [← OrdMap.card_dom, hdom, Finset.card_image_of_injOn hf, OrdMap.card_dom, h.size]
  · intro l
    rw [hl, OrdMap.dom_map, h.logical_dom]
  · intro l i hi
    obtain ⟨j, hj, rfl⟩ := (hlook l i).mp hi
    rw [hdom]
    exact Finset.mem_image_of_mem f (h.logical_mem l j hj)
  · intro l l' i hi hi'
    obtain ⟨j, hj, rfl⟩ := (hlook l i).mp hi
    obtain ⟨j', hj', he⟩ := (hlook l' _).mp hi'
    have := hf (h.logical_mem l' j' hj') (h.logical_mem l j hj) he
    exact h.logical_inj l l' j hj (this ▸ hj')
  · intro i hi
    rw [hdom] at hi
    obtain ⟨j, hj, rfl⟩ := Finset.mem_image.mp hi
    obtain ⟨l, hl⟩ := h.logical_surj j hj
    exact ⟨l, (hlook l _).mpr ⟨j, hl, rfl⟩⟩
  · obtain ⟨j, hj, hn'⟩ := h.netSim
    exact ⟨f j, by rw [hdom]; exact Finset.mem_image_of_mem f hj, by rw [hn, hn']; rfl⟩

end Logical

/-! ## One fork -/

/-- The pairs (old id, new id) of the members `s`. -/
def identities (s : OrdSet ι) (f : ι → ι) : OrdMap ι ι := s.map fun i _ => f i

/-- A broker with nothing pending, and the context to be forked. -/
structure Forkable (b : Broker ι) (k : ℕ) (c : Context ι) : Prop where
  context : b.ctxs[k]? = some c
  routable : Routable b.worldSize c
  childIniMap : b.childIniMap = ∅
  newConnections : b.newConnections = ∅
  newParents : b.newParents = ∅
  newNetSimID : b.newNetSimID = none

/-- The entries while the members report. -/
def Context.reporting (c : Context ι) (pairs : OrdMap ι ι) (childInitComplete : Bool) : Context ι :=
  { c with reinitMap := pairs, childInitComplete := childInitComplete }

/-- The broker while the forks of `A` have sent CHILD_INIT, and others have yet to. -/
def collecting (b : Broker ι) (k : ℕ) (c : Context ι) (child parent : ι → ι) (A P : OrdSet ι) : Broker ι :=
  { b with
    childIniMap := identities A child
    newParents := if A = ∅ then ∅ else OrdSet.ofList [(k : ℤ)]
    newNetSimID := c.netSimID.bind (identities A child).lookup
    ctxs := b.ctxs.set k (c.reporting (identities P parent) false) }

/-- The broker with the child context, and `d` for the parent. -/
def withChild (b : Broker ι) (k : ℕ) (c : Context ι) (child : ι → ι) (d : Context ι) : Broker ι :=
  { b with ctxs := b.ctxs.set k d ++ [c.childOf b.worldSize k child] }

/-- The broker once the forks of `A` have sent CHILD_INIT and the members of
`P` PARENT_REINIT, `child` and `parent` giving the new identities. -/
def forkState (b : Broker ι) (k : ℕ) (c : Context ι) (child parent : ι → ι) (A P : OrdSet ι) : Broker ι :=
  if A ≠ c.contexts then b.collecting k c child parent A P
  else b.withChild k c child
    (if P ≠ c.contexts then c.reporting (identities P parent) true else c.rename parent)

/-- The parents' replies. -/
def validReplies (c : Context ι) (parent : ι → ι) : Replies ι :=
  (identities c.contexts parent).vals.map fun i => (i, .valid)

section Fork

variable {b : Broker ι} {k : ℕ} {c : Context ι} {child parent : ι → ι} {A P : OrdSet ι} {i : ι}

theorem identities_add : identities (A.add i) child = (identities A child).insert i (child i) := by
  refine OrdMap.ext_lookup fun j => ?_
  by_cases hj : j = i <;> simp [identities, OrdSet.add, hj]

theorem identities_vals : (identities A child).vals = A.keys.map child := by
  simp [identities, OrdMap.vals, OrdMap.map, OrdMap.keys]

@[simp] theorem identities_size : (identities A child).size = A.size := OrdMap.size_map _ _

@[simp] theorem identities_dom : (identities A child).dom = A.dom := OrdMap.dom_map _ _

/-- A part of the members as large as the whole is the whole. -/
theorem Forkable.size_eq (h : Forkable b k c) (hA : A.dom ⊆ c.contexts.dom) :
    A.size = b.worldSize ↔ A = c.contexts := by
  constructor
  · intro hs
    refine OrdSet.ext_dom (Finset.eq_of_subset_of_card_le hA ?_)
    rw [OrdMap.card_dom, OrdMap.card_dom, h.routable.size, hs]
  · rintro rfl
    exact h.routable.size

theorem Forkable.size_le (h : Forkable b k c) (hA : A.dom ⊆ c.contexts.dom) : A.size ≤ b.worldSize := by
  rw [← h.routable.size, ← OrdMap.card_dom, ← OrdMap.card_dom]
  exact Finset.card_le_card hA

theorem Forkable.lt (h : Forkable b k c) : k < b.ctxs.length := (List.getElem?_eq_some_iff.mp h.context).1

theorem withChild_context (hk : k < b.ctxs.length) (child : ι → ι) (c d : Context ι) : (b.withChild k c child d).ctxs[k]? = some d := by
  simp [withChild, List.getElem?_append, hk]

theorem withChild_setContext (hk : k < b.ctxs.length) (d d' : Context ι) :
    (b.withChild k c child d).setContext k d' = b.withChild k c child d' := by
  simp [withChild, setContext, hk]

/-- The parents wait. -/
theorem parentReinitChecker_wait {d : Context ι} (hk : b.ctxs[k]? = some d)
    (hw : d.childInitComplete = false ∨ d.reinitMap.size ≠ b.worldSize) :
    parentReinitChecker b k = .ok (b, [], []) := by
  simp only [parentReinitChecker, context_ok.mpr hk, bind, Except.bind, hw, if_true]

/-- The parents take the place of their old identities. -/
theorem parentReinitChecker_replace (hr : Routable b.worldSize c)
    (hk : b.ctxs[k]? = some (c.reporting (identities c.contexts parent) true)) :
    parentReinitChecker b k = .ok (b.setContext k (c.rename parent), validReplies c parent, []) := by
  obtain ⟨net, hnet, hid⟩ := hr.netSim
  obtain ⟨u, hu⟩ := OrdMap.mem_dom.mp hnet
  have hlook : (identities c.contexts parent).lookup net = some (parent net) := by simp [identities, hu]
  have hvals : (identities c.contexts parent).vals = c.contexts.keys.map parent := identities_vals
  have hremap : remap (identities c.contexts parent) .oldParentIdNotInLogicalMap c.logicalIDToRealID = _ :=
    remap_eq hr
  simp only [parentReinitChecker, context_ok.mpr hk, bind, Except.bind, Context.reporting, identities_size, hr.size,
    hr.valid, hid, Option.bind_some, hlook, hremap]
  simp only [Bool.true_eq_false, ne_eq, not_true_eq_false, or_self, if_false, Except.ok.injEq]
  refine Prod.ext ?_ rfl
  simp only [Context.rename, hid, Option.map_some, ← hvals, hr.idle, hr.reinit]
  congr 2
  simp [hr.valid]

/-- The parents' check, once the child context is there. -/
theorem parentReinitChecker_withChild (h : Forkable b k c) (hP : P.dom ⊆ c.contexts.dom) (child parent : ι → ι) :
    parentReinitChecker (b.withChild k c child (c.reporting (identities P parent) true)) k =
      .ok (b.forkState k c child parent c.contexts P, if P = c.contexts then validReplies c parent else [], []) := by
  have hk := withChild_context h.lt child c (c.reporting (identities P parent) true)
  by_cases hPc : P = c.contexts
  · subst hPc
    rw [parentReinitChecker_replace (b := b.withChild k c child _) h.routable hk, withChild_setContext h.lt]
    simp [forkState]
  · rw [parentReinitChecker_wait hk (.inr ?_)]
    · simp [forkState, hPc]
    · exact fun hs => hPc ((h.size_eq hP).mp (identities_size.symm.trans hs))

theorem collecting_addChild (h : Forkable b k c) (hne : c.contexts ≠ ∅) :
    ((b.collecting k c child parent c.contexts P).addChild (OrdSet.ofList (c.contexts.keys.map child))
      (c.logicalIDToRealID.map fun _ i => child i)).setContext k (c.reporting (identities P parent) true) =
      b.withChild k c child (c.reporting (identities P parent) true) := by
  obtain ⟨net, hnet, hid⟩ := h.routable.netSim
  obtain ⟨u, hu⟩ := OrdMap.mem_dom.mp hnet
  have hlook : (identities c.contexts child).lookup net = some (child net) := by simp [identities, hu]
  have hlt := h.lt
  simp only [addChild, collecting, setContext, withChild, Context.childOf, hid, Option.bind_some, hlook, hne,
    h.newConnections, h.childIniMap, h.newParents, h.newNetSimID, Option.map_some, if_false]
  simp [hlt]

/-- The last fork creates the child context; then the parents are checked. -/
theorem childInitChecker_complete (h : Forkable b k c) (hP : P.dom ⊆ c.contexts.dom) (hne : c.contexts ≠ ∅) :
    childInitChecker (b.collecting k c child parent c.contexts P) k =
      .ok (b.forkState k c child parent c.contexts P,
        replyAll (OrdSet.ofList (c.contexts.keys.map child)) (.context b.ctxs.length) ++
          (if P = c.contexts then validReplies c parent else []), []) := by
  obtain ⟨net, hnet, hid⟩ := h.routable.netSim
  obtain ⟨u, hu⟩ := OrdMap.mem_dom.mp hnet
  have hlook : (identities c.contexts child).lookup net = some (child net) := by simp [identities, hu]
  have hvals : (identities c.contexts child).vals = c.contexts.keys.map child := identities_vals
  have hremap : remap (identities c.contexts child) .parentIdNotInLogicalMap
      (c.reporting (identities P parent) false).logicalIDToRealID =
      .ok (c.logicalIDToRealID.map fun _ i => child i) := remap_eq h.routable
  have hk : (b.collecting k c child parent c.contexts P).ctxs[k]? =
      some (c.reporting (identities P parent) false) := by simp [collecting, h.lt]
  have h1 : (OrdSet.ofList [(k : ℤ)]).size = 1 := rfl
  have hmap : (b.collecting k c child parent c.contexts P).childIniMap = identities c.contexts child := rfl
  have hlen : (b.collecting k c child parent c.contexts P).ctxs.length = b.ctxs.length := by simp [collecting]
  have hparents : parentReinitChecker (((b.collecting k c child parent c.contexts P).addChild
      (OrdSet.ofList (c.contexts.keys.map child)) (c.logicalIDToRealID.map fun _ i => child i)).setContext k
      { c.reporting (identities P parent) false with childInitComplete := true }) k = _ :=
    (congrArg (parentReinitChecker · k) (collecting_addChild h hne)).trans
      (parentReinitChecker_withChild h hP child parent)
  rw [childInitChecker, if_neg (by simp [collecting, h.routable.size]), if_neg (by simp)]
  simp only [Int.toNat_natCast, context_ok.mpr hk, bind, Except.bind]
  rw [if_neg (by simp [collecting, Context.reporting, h.routable.valid, h.newConnections, hne, hid, hlook, h1])]
  simp only [hmap, hremap, hvals, hlen, hparents]

/-! ## One report -/

/-- The CHILD_INIT of `i`'s fork. -/
def childFrame (k : ℕ) (c : Context ι) (child : ι → ι) (i : ι) : Frame ι :=
  ⟨child i, 0, if some i = c.netSimID then .childInitNetSim k i else .childInit k i⟩

/-- The PARENT_REINIT of `i`. -/
def parentFrame (k : ℕ) (parent : ι → ι) (i : ι) : Frame ι := ⟨parent i, k, .parentReinit i⟩

/-- The replies once `A` and `P` are complete. -/
def forkReplies (b : Broker ι) (c : Context ι) (child parent : ι → ι) (A P : OrdSet ι) (last : Bool) : Replies ι :=
  if A = c.contexts then
    (if last then replyAll (OrdSet.ofList (c.contexts.keys.map child)) (.context b.ctxs.length) else []) ++
      (if P = c.contexts then validReplies c parent else [])
  else []

theorem add_ne_empty : A.add i ≠ ∅ := by
  intro he
  have hi : i ∈ (A.add i).dom := by simp
  rw [he] at hi
  simp at hi

/-- `childInitHandler` notes the child of one more fork. -/
theorem collecting_add (h : Forkable b k c) (A P : OrdSet ι) (i : ι) (child parent : ι → ι) :
    { b.collecting k c child parent A P with
      newParents := (b.collecting k c child parent A P).newParents.add (k : ℤ)
      newNetSimID := if decide (some i = c.netSimID) = true then some (child i)
        else (b.collecting k c child parent A P).newNetSimID
      childIniMap := (b.collecting k c child parent A P).childIniMap.insert i (child i) } =
      b.collecting k c child parent (A.add i) P := by
  obtain ⟨net, -, hid⟩ := h.routable.netSim
  have hpar : (if A = ∅ then (∅ : OrdSet ℤ) else OrdSet.ofList [(k : ℤ)]).add (k : ℤ) = OrdSet.ofList [(k : ℤ)] := by
    split <;> exact OrdSet.ext_dom (by simp)
  simp only [collecting, hpar, identities_add, add_ne_empty, if_false, hid, Option.bind_some, OrdMap.lookup_insert]
  congr 1
  by_cases hin : net = i
  · simp [hin]
  · simp [hin, Ne.symm hin]

theorem step_childInit (b : Broker ι) (k : ℕ) (c : Context ι) (child : ι → ι) (i : ι) :
    b.step (childFrame k c child i).identity (childFrame k c child i).context (childFrame k c child i).request =
      b.childInitHandler (child i) k i (decide (some i = c.netSimID)) := by
  unfold step
  rw [if_neg (by simp [childFrame])]
  by_cases hin : some i = c.netSimID <;> simp [childFrame, hin]

theorem step_childFrame (h : Forkable b k c) (hA : A.dom ⊆ c.contexts.dom) (hP : P.dom ⊆ c.contexts.dom)
    (hi : i ∈ c.contexts.dom) (hiA : i ∉ A.dom) (child parent : ι → ι) :
    (b.forkState k c child parent A P).step (childFrame k c child i).identity (childFrame k c child i).context
      (childFrame k c child i).request =
      .ok (b.forkState k c child parent (A.add i) P, b.forkReplies c child parent (A.add i) P true, []) := by
  have hAc : A ≠ c.contexts := fun he => hiA (he ▸ hi)
  have hstate : b.forkState k c child parent A P = b.collecting k c child parent A P := if_pos hAc
  have hadd : (A.add i).dom ⊆ c.contexts.dom := by
    rw [OrdSet.dom_add]
    exact Finset.insert_subset hi hA
  rw [hstate, step_childInit, childInitHandler, if_neg ?_, if_neg ?_]
  rotate_left
  · rw [OrdMap.contains_iff]
    simpa [collecting] using hiA
  · simpa [collecting] using h.size_le hA
  show childInitChecker _ (k : ℤ) = _
  rw [collecting_add h]
  by_cases hlast : A.add i = c.contexts
  · rw [hlast, childInitChecker_complete h hP (fun he => add_ne_empty (hlast.trans he))]
    simp [forkReplies]
  · have hsize : (b.collecting k c child parent (A.add i) P).childIniMap.size ≠
        (b.collecting k c child parent (A.add i) P).worldSize := by
      simp only [collecting, identities_size]
      exact fun hs => hlast ((h.size_eq hadd).mp hs)
    rw [childInitChecker, if_pos hsize]
    simp [forkState, forkReplies, hlast]

/-- `parentReinitHandler` notes one more parent. -/
theorem step_parentReinit (h : Forkable b k c) (hP : P.dom ⊆ c.contexts.dom) (hiP : i ∉ P.dom) (parent : ι → ι)
    {b₁ : Broker ι} {done : Bool} (hk : b₁.ctxs[k]? = some (c.reporting (identities P parent) done))
    (hw : b₁.worldSize = b.worldSize) :
    b₁.step (parentFrame k parent i).identity (parentFrame k parent i).context (parentFrame k parent i).request =
      parentReinitChecker (b₁.setContext k (c.reporting (identities (P.add i) parent) done)) k := by
  have hlen : k < b₁.ctxs.length := (List.getElem?_eq_some_iff.mp hk).1
  have hsize : ¬ (c.reporting (identities P parent) done).reinitMap.size > b₁.worldSize := by
    rw [hw]
    simpa [Context.reporting] using h.size_le hP
  have hnew : ¬ (c.reporting (identities P parent) done).reinitMap.contains i = true := by
    rw [OrdMap.contains_iff]
    simpa [Context.reporting] using hiP
  have hset : { c.reporting (identities P parent) done with
      reinitMap := (c.reporting (identities P parent) done).reinitMap.insert i (parent i) } =
      c.reporting (identities (P.add i) parent) done := by
    rw [identities_add]
    rfl
  unfold step
  rw [if_neg ?_]
  rotate_left
  · simp only [parentFrame, Int.toNat_natCast]
    omega
  simp only [parentFrame, parentReinitHandler, Int.toNat_natCast, context_ok.mpr hk, bind, Except.bind]
  rw [if_neg hsize, if_neg hnew, hset]

theorem step_parentFrame (h : Forkable b k c) (hP : P.dom ⊆ c.contexts.dom)
    (hi : i ∈ c.contexts.dom) (hiP : i ∉ P.dom) (A : OrdSet ι) (child parent : ι → ι) :
    (b.forkState k c child parent A P).step (parentFrame k parent i).identity (parentFrame k parent i).context
      (parentFrame k parent i).request =
      .ok (b.forkState k c child parent A (P.add i), b.forkReplies c child parent A (P.add i) false, []) := by
  have hPc : P ≠ c.contexts := fun he => hiP (he ▸ hi)
  have hadd : (P.add i).dom ⊆ c.contexts.dom := by
    rw [OrdSet.dom_add]
    exact Finset.insert_subset hi hP
  have hlt := h.lt
  by_cases hAc : A = c.contexts
  · subst hAc
    have hstate : b.forkState k c child parent c.contexts P =
        b.withChild k c child (c.reporting (identities P parent) true) := by simp [forkState, hPc]
    have hk := withChild_context hlt child c (c.reporting (identities P parent) true)
    rw [hstate, step_parentReinit h hP hiP parent hk rfl, withChild_setContext hlt,
      parentReinitChecker_withChild h hadd]
    simp [forkReplies]
  · have hstate : ∀ Q, b.forkState k c child parent A Q = b.collecting k c child parent A Q := fun Q => if_pos hAc
    have hk : (b.collecting k c child parent A P).ctxs[k]? = some (c.reporting (identities P parent) false) := by
      simp [collecting, hlt]
    rw [hstate, hstate, step_parentReinit h hP hiP parent hk rfl]
    have hset : (b.collecting k c child parent A P).setContext k (c.reporting (identities (P.add i) parent) false) =
        b.collecting k c child parent A (P.add i) := by simp [collecting, setContext]
    rw [hset, parentReinitChecker_wait (d := c.reporting (identities (P.add i) parent) false)
      (by simp [collecting, hlt]) (.inl rfl)]
    simp [forkReplies, hAc]

end Fork

end Fncs.Broker

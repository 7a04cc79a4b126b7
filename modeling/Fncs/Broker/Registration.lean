/-
Registration in the initial group: the members get their logical ids in the
order of their identities, and an object is recorded under the logical id of
the member that registers it. Net sim objects are only counted.
-/
import Fncs.Broker.Fork

namespace Fncs.Broker

variable {ι : Type} [LinearOrder ι]

/-! ## The initial logical ids -/

omit [LinearOrder ι] in
theorem lookup_numberMembers_from (l : List ι) (s : ℕ) (m : OrdMap ℕ ι) (i : ℕ) :
    ((l.zipIdx s).foldl (fun m e => insertNew m e.2 e.1) m).lookup i =
      (m.lookup i).or (if s ≤ i then l[i - s]? else none) := by
  induction l generalizing s m with
  | nil => simp
  | cons a l ih =>
    rw [List.zipIdx_cons, List.foldl_cons, ih]
    have hnew : (insertNew m s a).lookup i = (m.lookup i).or (if i = s then some a else none) := by
      unfold insertNew
      split
      · next hc =>
        obtain ⟨v, hv⟩ := OrdMap.mem_dom.mp (OrdMap.contains_iff.mp hc)
        by_cases hi : i = s
        · simp [hi, hv]
        · simp [hi]
      · next hc =>
        have hn : m.lookup s = none := by rw [OrdMap.lookup_eq_none, ← OrdMap.contains_iff]; exact hc
        rw [OrdMap.lookup_insert]
        by_cases hi : i = s
        · simp [hi, hn]
        · simp [hi]
    rw [hnew, Option.or_assoc]
    congr 1
    rcases lt_trichotomy i s with hlt | rfl | hgt
    · rw [if_neg (by omega), if_neg (by omega), if_neg (by omega)]
      rfl
    · simp
    · have hsub : i - s = (i - (s + 1)) + 1 := by omega
      rw [if_neg (by omega), if_pos (by omega), if_pos (by omega), hsub, List.getElem?_cons_succ]
      rfl

omit [LinearOrder ι] in
theorem lookup_numberMembers (l : List ι) (i : ℕ) : (numberMembers ∅ l).lookup i = l[i]? := by
  have := lookup_numberMembers_from l 0 ∅ i
  simpa [numberMembers] using this

namespace HelloGroup

theorem lookup_logical (g : HelloGroup ι) (l : ℕ) :
    g.context.logicalIDToRealID.lookup l = (OrdSet.ofList g.members).keys[l]? := lookup_numberMembers _ _

/-- The initial group can be routed to, and forked. -/
theorem routable (g : HelloGroup ι) : Routable g.size g.context where
  valid := rfl
  idle := rfl
  reinit := rfl
  size := size_ofList g.nodup
  logical_dom l := by
    have hlen : (OrdSet.ofList g.members).keys.length = g.size := by
      rw [OrdMap.keys, List.length_map]
      exact size_ofList g.nodup
    rw [OrdMap.mem_dom, g.lookup_logical, ← hlen]
    constructor
    · rintro ⟨_, hv⟩
      exact (List.getElem?_eq_some_iff.mp hv).1
    · exact fun hl => ⟨_, List.getElem?_eq_getElem hl⟩
  logical_mem l i h := by
    rw [g.lookup_logical] at h
    exact List.mem_toFinset.mpr (List.mem_of_getElem? h)
  logical_inj l l' i h h' := by
    rw [g.lookup_logical] at h h'
    obtain ⟨hl, h⟩ := List.getElem?_eq_some_iff.mp h
    obtain ⟨hl', h'⟩ := List.getElem?_eq_some_iff.mp h'
    exact (OrdMap.nodup_keys _).getElem_inj_iff.mp (h.trans h'.symm)
  logical_surj i hi := by
    obtain ⟨l, hl⟩ := List.mem_iff_getElem?.mp (List.mem_toFinset.mp (show i ∈ (OrdSet.ofList g.members).keys.toFinset from hi))
    exact ⟨l, by rw [g.lookup_logical, hl]⟩
  netSim := ⟨g.netSim, by simp [context, Context.number, Context.fresh, g.netSim_mem], rfl⟩

end HelloGroup

/-! ## Registering objects -/

/-- Member `e.1` registers the object `e.2`. -/
def registerFrame (e : ι × String) : Frame ι := ⟨e.1, 0, .registerObject e.2⟩

/-- The objects of a member. -/
def objectsOf (objs : List (ι × String)) (i : ι) : List String := (objs.filter fun e => e.1 = i).map Prod.snd

/-- The group's broker once the objects `objs` are registered: the net sim's are
counted, and an object of another member is recorded under its owner's logical id. -/
structure Registered (g : HelloGroup ι) (objs : List (ι × String)) (b : Broker ι) : Prop where
  broker : b = { g.formed with
    objToID := b.objToID, ctxs := [{ g.context with netSimObjCount := (objectsOf objs g.netSim).length }] }
  owner : ∀ e ∈ objs, e.1 ≠ g.netSim → ∃ l, b.objToID.lookup e.2 = some l ∧
    g.context.logicalIDToRealID.lookup l = some e.1

/-- What a registration does: a net sim's object is counted, and any other
object, which must be new, is recorded under a logical id of its owner. -/
theorem registerHandler_ok {b b' : Broker ι} {c : Context ι} {i : ι} {k : ℕ} {name : String} {out : Replies ι}
    {pubs : List Publication} (hc : b.ctxs[k]? = some c) (h : b.registerHandler i k name = .ok (b', out, pubs)) :
    (some i = c.netSimID ∧ b' = b.setContext k { c with netSimObjCount := c.netSimObjCount + 1 }) ∨
      (some i ≠ c.netSimID ∧ name ∉ b.objToID.dom ∧
        ∃ l, c.logicalIDToRealID.lookup l = some i ∧ b' = { b with objToID := b.objToID.insert name l }) := by
  rw [registerHandler] at h
  simp only [context_ok.mpr hc, bind, Except.bind] at h
  split at h
  · next hnet =>
    simp only [Except.ok.injEq, Prod.mk.injEq] at h
    exact .inl ⟨hnet, h.1.symm⟩
  · next hnet =>
    split at h
    · cases h
    next hnew =>
    split at h
    · cases h
    next e hfind =>
    simp only [Except.ok.injEq, Prod.mk.injEq] at h
    have hei : e.2 = i := by simpa using List.find?_some hfind
    have hlook : c.logicalIDToRealID.lookup e.1 = some e.2 :=
      OrdMap.lookup_eq_some.mpr (List.mem_of_find?_eq_some hfind)
    exact .inr ⟨hnet, fun hd => hnew (OrdMap.contains_iff.mpr hd), e.1, hei ▸ hlook, h.1.symm⟩

theorem Registered.step {g : HelloGroup ι} {objs : List (ι × String)} {b b' : Broker ι} {e : ι × String}
    (h : Registered g objs b) (hs : advance b (registerFrame e) = .ok b') : Registered g (objs ++ [e]) b' := by
  obtain ⟨i, name⟩ := e
  obtain ⟨hb, ho⟩ := h
  have hctx : b.ctxs[0]? = some { g.context with netSimObjCount := (objectsOf objs g.netSim).length } := by rw [hb]; rfl
  have hstep : b.step i 0 (.registerObject name) = b.registerHandler i 0 name := by
    unfold Broker.step
    rw [if_neg (by rw [hb]; simp)]
    rfl
  obtain ⟨out, pubs, hreg⟩ := advance_ok.mp hs
  rw [registerFrame, hstep] at hreg
  obtain ⟨hnet, rfl⟩ | ⟨hnet, hnew, l, hl, rfl⟩ := registerHandler_ok hctx hreg
  · have hi : i = g.netSim := Option.some.inj hnet
    refine ⟨?_, fun e he hne => ?_⟩
    · rw [hb]
      simp [objectsOf, hi, setContext]
    · rcases List.mem_append.mp he with he | he
      · exact ho e he hne
      · rw [List.mem_singleton.mp he] at hne
        exact absurd hi hne
  · have hin : i ≠ g.netSim := fun hin => hnet (congrArg some hin)
    refine ⟨?_, fun e he hne => ?_⟩
    · rw [hb]
      simp [objectsOf, hin]
    · rcases List.mem_append.mp he with he | he
      · obtain ⟨l', hl', hg⟩ := ho e he hne
        have hname : e.2 ≠ name := fun hn => hnew (hn ▸ OrdMap.mem_dom_of_lookup hl')
        exact ⟨l', by simp [hname, hl'], hg⟩
      · rw [List.mem_singleton.mp he]
        exact ⟨l, by simp, hl⟩

/-- The initial group, connected and registered. -/
theorem registered_of_run {g : HelloGroup ι} {objs : List (ι × String)} {b : Broker ι}
    (h : Trace.run advance (init g.size) (g.frames ++ objs.map registerFrame) = .ok b) : Registered g objs b := by
  obtain ⟨b₀, hform, hreg⟩ := Trace.run_append.mp h
  rw [g.run_frames, Except.ok.injEq] at hform
  subst hform
  have key : ∀ (r l : List (ι × String)) (b₁ : Broker ι), objs = l ++ r → Registered g l b₁ →
      Trace.run advance b₁ (r.map registerFrame) = .ok b → Registered g objs b := by
    intro r
    induction r with
    | nil =>
      intro l b₁ hl hb₁ hrun
      cases hrun
      rw [hl, List.append_nil]
      exact hb₁
    | cons e r ih =>
      intro l b₁ hl hb₁ hrun
      obtain ⟨b₂, hs, hrun⟩ := Trace.run_cons.mp hrun
      exact ih (l ++ [e]) b₂ (by simp [hl]) (hb₁.step hs) hrun
  exact key objs [] g.formed rfl ⟨rfl, by simp⟩ hreg

end Fncs.Broker

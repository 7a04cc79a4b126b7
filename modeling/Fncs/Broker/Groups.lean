/-
Successive groups of simulators that connect with HELLO and HELLO_NETSIM, in
any order within a group. A group is complete with the last of `world_size`
requests: `hello_handler` then adds a context, tells every simulator of the
group its number, and, for simulators without a parent, numbers them in the
map of the context the last request names. The main loop takes a request only
if that context exists already or no context does.
-/
import Fncs.Broker.Registration

namespace Fncs.Broker

variable {ι : Type} [LinearOrder ι]

/-- A HELLO or HELLO_NETSIM with parent -1. -/
structure Hello (ι : Type) where
  identity : ι
  context : ℤ
  netSim : Bool
  deriving DecidableEq, Repr

def Hello.frame (h : Hello ι) : Frame ι :=
  ⟨h.identity, h.context, if h.netSim then .helloNetSim (-1) else .hello (-1)⟩

def helloFrames (hs : List (Hello ι)) : List (Frame ι) := hs.map Hello.frame

/-- The simulators of a group. -/
def groupIds (group : List (Hello ι)) : List ι := group.map Hello.identity

/-- `m` numbers the members from 0 on, and nobody else. -/
structure Numbers (m : OrdMap ℕ ι) (n : ℕ) (members : Finset ι) : Prop where
  dom : ∀ l, l ∈ m.dom ↔ l < n
  bij : Set.BijOn m.lookup (Set.Iio n) (some '' (members : Set ι))

/-- Nothing is pending from an earlier group. -/
structure Ready (b : Broker ι) : Prop where
  connections : b.newConnections = ∅
  parents : b.newParents = ∅
  netSim : b.newNetSimID = none

/-- The group forms context `c`: what the claim of `hello_handler` is about. -/
structure Forms (group : List (Hello ι)) (b b' : Broker ι) (out : Replies ι) : Prop where
  /-- Exactly one new context, of exactly the group. -/
  context : ∃ c, b'.ctxs.length = b.ctxs.length + 1 ∧ b'.ctxs[b.ctxs.length]? = some c ∧
    c.contexts.dom = (groupIds group).toFinset ∧
    (∃ i ∈ groupIds group, c.netSimID = some i) ∧
    Numbers c.logicalIDToRealID group.length (groupIds group).toFinset ∧
    -- wherever the map is kept, registration finds the logical id of a member
    ∀ (b'' : Broker ι) (k : ℕ) (c'' : Context ι) (i : ι) (name : String), b''.ctxs[k]? = some c'' →
      c''.logicalIDToRealID = c.logicalIDToRealID → i ∈ groupIds group →
      registerHandler b'' i k name ≠ death .noLogicalId
  /-- Every member is sent its number once. -/
  answered : Answered out (groupIds group).toFinset fun _ => .context b.ctxs.length
  /-- The maps of the other contexts stay. -/
  others : ∀ (k : ℕ) (c : Context ι), b.ctxs[k]? = some c → b'.ctxs[k]? = some c
  ready : Ready b'

/-! ## One group -/

/-- The broker with the HELLOs `l` noted. -/
def noted (b : Broker ι) (l : List (Hello ι)) : Broker ι :=
  l.foldl (fun b h => noteHello b h.identity (-1) h.netSim) b

theorem noted_fields (b : Broker ι) (l : List (Hello ι)) :
    (noted b l).worldSize = b.worldSize ∧ (noted b l).ctxs = b.ctxs ∧ (noted b l).objToID = b.objToID := by
  induction l generalizing b with
  | nil => exact ⟨rfl, rfl, rfl⟩
  | cons h l ih => exact ih (noteHello b h.identity (-1) h.netSim)

theorem noted_snoc (b : Broker ι) (l : List (Hello ι)) (h : Hello ι) :
    noted b (l ++ [h]) = noteHello (noted b l) h.identity (-1) h.netSim := by
  simp [noted, List.foldl_append]

theorem noted_connections (b : Broker ι) (l : List (Hello ι)) :
    (noted b l).newConnections.dom = b.newConnections.dom ∪ (groupIds l).toFinset := by
  induction l generalizing b with
  | nil => simp [noted, groupIds]
  | cons h l ih =>
    show (noted (noteHello b h.identity (-1) h.netSim) l).newConnections.dom = _
    rw [ih]
    simp only [noteHello, OrdSet.dom_add, groupIds, List.map_cons, List.toFinset_cons]
    ext j
    simp only [Finset.mem_union, Finset.mem_insert, List.mem_toFinset]
    tauto

theorem noted_parents {b : Broker ι} (hb : b.newParents = ∅) {l : List (Hello ι)} (hne : l ≠ []) :
    (noted b l).newParents = .ofList [-1] := by
  have key : ∀ (l : List (Hello ι)) (b : Broker ι), (noted b l).newParents.dom =
      b.newParents.dom ∪ if l = [] then ∅ else {-1} := by
    intro l
    induction l with
    | nil => intro b; simp [noted]
    | cons h l ih =>
      intro b
      show (noted (noteHello b h.identity (-1) h.netSim) l).newParents.dom = _
      rw [ih]
      simp only [noteHello, OrdSet.dom_add]
      by_cases hl : l = [] <;> simp [hl]
  refine OrdSet.ext_dom ?_
  rw [key, hb, if_neg hne]
  simp

/-- The net sim noted is the group's. -/
theorem noted_netSim {b : Broker ι} (hb : b.newNetSimID = none) (l : List (Hello ι)) :
    ((∃ h ∈ l, h.netSim = true) ↔ (noted b l).newNetSimID.isSome = true) ∧
      ∀ i, (noted b l).newNetSimID = some i → i ∈ groupIds l := by
  induction l using List.reverseRecOn with
  | nil => simp [noted, hb]
  | append_singleton l h ih =>
    rw [noted_snoc]
    cases hn : h.netSim with
    | true => simp [noteHello, hn, groupIds]
    | false =>
      simp only [noteHello, Bool.false_eq_true, if_false]
      refine ⟨by rw [← ih.1]; simp [hn], fun i hi => ?_⟩
      have := ih.2 i hi
      simp only [groupIds, List.map_append, List.mem_append] at this ⊢
      exact .inl this

/-- A HELLO is taken in a context that exists, or when there is none. -/
theorem step_hello {b b' : Broker ι} {h : Hello ι} {out : Replies ι} {pubs : List Publication}
    (hs : b.step h.identity h.context h.frame.request = .ok (b', out, pubs)) :
    (h.context.toNat < b.ctxs.length ∨ b.ctxs = []) ∧
      helloHandler b h.identity h.context.toNat (-1) h.netSim = .ok (b', out, pubs) := by
  unfold step at hs
  split at hs
  · cases hs
  next hctx =>
  refine ⟨?_, ?_⟩
  · by_contra hn
    rw [not_or, not_lt] at hn
    exact hctx (.inr hn)
  · cases hn : h.netSim <;> simpa [Hello.frame, hn] using hs

/-- While the group is not complete, its HELLOs are noted; the last one completes it. -/
theorem serve_group {b : Broker ι} (hb : Ready b) {group : List (Hello ι)} (hnd : (groupIds group).Nodup)
    (hlen : group.length = b.worldSize) {b' : Broker ι} {out : Replies ι}
    (hs : handleAll b (helloFrames group) = .ok (b', out)) (hne : group ≠ []) :
    ∃ h ∈ group, (h.context.toNat < b.ctxs.length ∨ b.ctxs = []) ∧
      helloComplete (noted b group) h.context.toNat = .ok (b', out, []) := by
  have hsize (l : List (Hello ι)) (hl : (groupIds l).Nodup) : (noted b l).newConnections.size = l.length := by
    rw [← OrdMap.card_dom, noted_connections, hb.connections, OrdMap.dom_empty, Finset.empty_union,
      List.toFinset_card_of_nodup hl, groupIds, List.length_map]
  have key : ∀ (r l : List (Hello ι)) (out : Replies ι), group = l ++ r → r ≠ [] →
      handleAll (noted b l) (helloFrames r) = .ok (b', out) →
      ∃ h ∈ group, (h.context.toNat < b.ctxs.length ∨ b.ctxs = []) ∧
        helloComplete (noted b group) h.context.toNat = .ok (b', out, []) := by
    intro r
    induction r with
    | nil => exact fun _ _ _ hr => absurd rfl hr
    | cons h r ih =>
      intro l out hl _ hs
      simp only [helloFrames, List.map_cons, handleAll, Trace.seq_eq_ok] at hs
      obtain ⟨⟨b₁, out₁, pubs⟩, hstep, ⟨b₂, out₂⟩, hrest, heq⟩ := hs
      simp only [Except.ok.injEq, Prod.mk.injEq] at heq
      obtain ⟨rfl, rfl⟩ := heq
      obtain ⟨hctx, hhello⟩ := step_hello hstep
      obtain ⟨hw, hctxs, -⟩ := noted_fields b l
      rw [hctxs] at hctx
      have hnd' : (groupIds (l ++ [h])).Nodup := by
        have hsub : (groupIds (l ++ [h])).Sublist (groupIds group) := by
          rw [hl]
          exact List.Sublist.map _ (by simp)
        exact hnd.sublist hsub
      have hsz : (noteHello (noted b l) h.identity (-1) h.netSim).newConnections.size = l.length + 1 := by
        rw [← noted_snoc, hsize _ hnd', List.length_append, List.length_singleton]
      have hlen' : l.length + (r.length + 1) = b.worldSize := by rw [← hlen, hl]; simp
      obtain ⟨-, ⟨hlt, hx⟩ | ⟨heq, hc⟩⟩ := helloHandler_ok hhello
      · simp only [Prod.mk.injEq] at hx
        obtain ⟨rfl, rfl, -⟩ := hx
        rw [hsz, hw] at hlt
        rw [← noted_snoc] at hrest
        exact ih (l ++ [h]) out₂ (by simp [hl]) (by rintro rfl; simp at hlen'; omega) hrest
      · rw [hsz, hw] at heq
        obtain rfl : r = [] := List.length_eq_zero_iff.mp (by omega)
        simp only [List.map_nil, handleAll, Except.ok.injEq, Prod.mk.injEq] at hrest
        obtain ⟨rfl, rfl⟩ := hrest
        have hpubs : pubs = [] := by
          obtain ⟨-, b₂, -, hx⟩ := helloComplete_ok hc
          exact (Prod.mk.inj (Prod.mk.inj hx).2).2
        subst hpubs
        refine ⟨h, by simp [hl], hctx, ?_⟩
        rw [hl, noted_snoc, List.append_nil]
        exact hc
  exact key group [] out rfl hne hs

/-- What a completed group leaves. -/
theorem serve_group_ok {b : Broker ι} (hb : Ready b) {group : List (Hello ι)} (hnd : (groupIds group).Nodup)
    (hlen : group.length = b.worldSize) {b' : Broker ι} {out : Replies ι}
    (hs : handleAll b (helloFrames group) = .ok (b', out)) (hne : group ≠ []) :
    ∃ k c, (noted b group).addContext.ctxs[k]? = some c ∧ (k < b.ctxs.length ∨ b.ctxs = []) ∧
      b' = ((noted b group).addContext.setContext k (c.number (noted b group).newConnections)).clearGroup ∧
      out = replyAll (noted b group).newConnections (.context b.ctxs.length) := by
  obtain ⟨h, -, hctx, hc⟩ := serve_group hb hnd hlen hs hne
  obtain ⟨hsize, b₂, hcase, hx⟩ := helloComplete_ok hc
  simp only [Prod.mk.injEq, and_true] at hx
  obtain ⟨rfl, rfl⟩ := hx
  have hparents : (noted b group).newParents.keys.head? = some (-1) := by
    rw [noted_parents hb.parents hne]
    rfl
  rcases hcase with ⟨hno, -⟩ | ⟨-, c, hget, rfl⟩
  · exact absurd hparents hno
  · exact ⟨_, c, hget, hctx, rfl, by rw [(noted_fields b group).2.1]⟩

/-! ## Successive groups -/

/-- A whole number of groups leaves as many new contexts, and nothing pending. -/
theorem handleAll_groups {n : ℕ} (hn : 0 < n) {b' : Broker ι} :
    ∀ (groups : List (List (Hello ι))) (b : Broker ι) (out : Replies ι), Ready b → b.worldSize = n →
      (∀ g ∈ groups, g.length = n) → (groupIds groups.flatten).Nodup →
      handleAll b (helloFrames groups.flatten) = .ok (b', out) →
      Ready b' ∧ b'.worldSize = n ∧ b'.ctxs.length = b.ctxs.length + groups.length := by
  intro groups
  induction groups with
  | nil =>
    intro b out hb hw _ _ h
    simp only [List.flatten_nil, helloFrames, List.map_nil, handleAll, Except.ok.injEq, Prod.mk.injEq] at h
    obtain ⟨rfl, -⟩ := h
    exact ⟨hb, hw, rfl⟩
  | cons g groups ih =>
    intro b out hb hw hlen hnd h
    simp only [List.flatten_cons, helloFrames, List.map_append] at h
    obtain ⟨b₁, out₁, out₂, h1, h2, -⟩ := handleAll_append.mp h
    simp only [List.flatten_cons, groupIds, List.map_append] at hnd
    have hg : g.length = n := hlen g (by simp)
    have hne : g ≠ [] := by rintro rfl; simp at hg; omega
    obtain ⟨k, c, -, -, rfl, -⟩ := serve_group_ok hb (List.nodup_append.mp hnd).1 (hg.trans hw.symm) h1 hne
    obtain ⟨hr, hw', hl⟩ := ih
      ((noted b g).addContext.setContext k (c.number (noted b g).newConnections)).clearGroup out₂
      ⟨rfl, rfl, rfl⟩ ((noted_fields b g).1.trans hw)
      (fun g' hg' => hlen g' (by simp [hg'])) (List.nodup_append.mp hnd).2.1 h2
    refine ⟨hr, hw', hl.trans ?_⟩
    have hctxs := congrArg List.length (noted_fields b g).2.1
    simp only [clearGroup, setContext, List.length_set, addContext, List.length_append, List.length_cons,
      List.length_nil] at hctxs ⊢
    omega

theorem numbers_numberMembers {members : OrdSet ι} {n : ℕ} (hn : members.size = n) :
    Numbers (numberMembers ∅ members.keys) n members.dom where
  dom l := by
    have hlen : members.keys.length = n := (List.length_map _).trans hn
    rw [OrdMap.mem_dom, lookup_numberMembers, ← hlen]
    exact ⟨fun ⟨_, hv⟩ => (List.getElem?_eq_some_iff.mp hv).1, fun hl => ⟨_, List.getElem?_eq_getElem hl⟩⟩
  bij := by
    have hlen : members.keys.length = n := (List.length_map _).trans hn
    refine ⟨fun l hl => ?_, fun l hl l' hl' heq => ?_, ?_⟩
    · rw [Set.mem_Iio, ← hlen] at hl
      rw [lookup_numberMembers, List.getElem?_eq_getElem hl]
      exact ⟨_, List.mem_toFinset.mpr (List.getElem_mem hl), rfl⟩
    · rw [Set.mem_Iio, ← hlen] at hl hl'
      simp only [lookup_numberMembers, List.getElem?_eq_getElem hl, List.getElem?_eq_getElem hl',
        Option.some.injEq] at heq
      exact (OrdMap.nodup_keys members).getElem_inj_iff.mp heq
    · rintro - ⟨i, hi, rfl⟩
      obtain ⟨l, hl⟩ := List.mem_iff_getElem?.mp (List.mem_toFinset.mp hi)
      refine ⟨l, ?_, by rw [lookup_numberMembers, hl]⟩
      rw [Set.mem_Iio, ← hlen]
      exact (List.getElem?_eq_some_iff.mp hl).1

/-- A numbered member registers its objects under its logical id. -/
theorem registerHandler_of_numbers {b : Broker ι} {k n : ℕ} {c : Context ι} {members : Finset ι} {i : ι}
    (hc : b.ctxs[k]? = some c) (hnum : Numbers c.logicalIDToRealID n members) (hi : i ∈ members) (name : String) :
    registerHandler b i k name ≠ death .noLogicalId := by
  obtain ⟨l, -, hl⟩ := hnum.bij.surjOn ⟨i, hi, rfl⟩
  intro hreg
  rw [registerHandler] at hreg
  simp only [context_ok.mpr hc, bind, Except.bind] at hreg
  split at hreg
  · cases hreg
  split at hreg
  · cases hreg
  split at hreg
  · next hfind =>
    have := List.find?_eq_none.mp hfind (l, i) (OrdMap.lookup_eq_some.mp hl)
    simp at this
  · cases hreg

section Completed

variable {b b' : Broker ι} {group : List (Hello ι)} {out : Replies ι}

theorem noted_ctxs (b : Broker ι) (group : List (Hello ι)) : (noted b group).addContext.ctxs = b.ctxs ++
    [Context.fresh (noted b group).worldSize (noted b group).newNetSimID (noted b group).newConnections
      (noted b group).newParents] := by
  rw [addContext, (noted_fields b group).2.1]

theorem noted_dom (hb : Ready b) (group : List (Hello ι)) :
    (noted b group).newConnections.dom = (groupIds group).toFinset := by
  rw [noted_connections, hb.connections, OrdMap.dom_empty, Finset.empty_union]

variable (hb : Ready b) (hnd : (groupIds group).Nodup) (hsize : group.length = b.worldSize) (hne : group ≠ [])
  (hs : handleAll b (helloFrames group) = .ok (b', out))

include hb hnd hsize hne hs

/-- After other groups the map is kept in a context of theirs, and the new one has no logical ids. -/
theorem first_of_forms (hf : Forms group b b' out) : b.ctxs = [] := by
  obtain ⟨k, c, -, hk, rfl, rfl⟩ := serve_group_ok hb hnd hsize hs hne
  obtain ⟨c', -, hc', -, -, hnum, -⟩ := hf.context
  simp only [clearGroup, setContext, noted_ctxs] at hc'
  rcases hk with hlt | hnil
  · rw [List.getElem?_set_ne hlt.ne, List.getElem?_append_right le_rfl, Nat.sub_self] at hc'
    obtain rfl := Option.some.inj hc'
    have := (hnum.dom 0).mpr (List.length_pos_iff.mpr hne)
    simp [Context.fresh] at this
  · exact hnil

/-- The first group is numbered in its own context. -/
theorem serve_first_group (hnil : b.ctxs = []) : ∃ c,
    c = Context.fresh (noted b group).worldSize (noted b group).newNetSimID (noted b group).newConnections
      (noted b group).newParents ∧
    b' = ((noted b group).addContext.setContext 0 (c.number (noted b group).newConnections)).clearGroup ∧
    out = replyAll (noted b group).newConnections (.context b.ctxs.length) := by
  obtain ⟨k, c, hget, -, rfl, rfl⟩ := serve_group_ok hb hnd hsize hs hne
  rw [noted_ctxs, hnil] at hget
  obtain rfl : k = 0 := by
    have := (List.getElem?_eq_some_iff.mp hget).1
    simpa using this
  simp only [List.nil_append, List.getElem?_cons_zero, Option.some.injEq] at hget
  exact ⟨c, hget.symm, rfl, rfl⟩

theorem netSim_of_forms (hf : Forms group b b' out) : ∃ h ∈ group, h.netSim = true := by
  have hnil := first_of_forms hb hnd hsize hne hs hf
  obtain ⟨c, rfl, rfl, rfl⟩ := serve_first_group hb hnd hsize hne hs hnil
  obtain ⟨c', -, hc', -, ⟨i, -, hi⟩, -⟩ := hf.context
  simp only [clearGroup, setContext, noted_ctxs, hnil, List.nil_append, List.set_cons_zero, List.length_nil,
    List.getElem?_cons_zero, Option.some.injEq] at hc'
  subst hc'
  have hi : (noted b group).newNetSimID = some i := hi
  refine (noted_netSim hb.netSim group).1.mpr ?_
  rw [hi]
  rfl

theorem forms_of_first (hnil : b.ctxs = []) (hh : ∃ h ∈ group, h.netSim = true) : Forms group b b' out := by
  have hnet := noted_netSim hb.netSim group
  have hdom := noted_dom hb group
  obtain ⟨i, hi⟩ := Option.isSome_iff_exists.mp (hnet.1.mp hh)
  obtain ⟨c, hc, rfl, rfl⟩ := serve_first_group hb hnd hsize hne hs hnil
  have hcard : (noted b group).newConnections.size = group.length := by
    rw [← OrdMap.card_dom, hdom, List.toFinset_card_of_nodup hnd, groupIds, List.length_map]
  have hnum : Numbers (c.number (noted b group).newConnections).logicalIDToRealID group.length
      (groupIds group).toFinset := by
    rw [← hdom, hc]
    exact numbers_numberMembers hcard
  refine ⟨⟨c.number (noted b group).newConnections, ?_, ?_, ?_, ⟨i, hnet.2 i hi, ?_⟩, hnum, ?_⟩, ?_, ?_, ⟨rfl, rfl, rfl⟩⟩
  · simp [clearGroup, setContext, noted_ctxs]
  · simp [clearGroup, setContext, noted_ctxs, hnil]
  · rw [hc]
    exact hdom
  · rw [hc]
    exact hi
  · intro b'' k c'' i name hc'' heq hi
    exact registerHandler_of_numbers hc'' (heq ▸ hnum) (List.mem_toFinset.mpr hi) name
  · rw [← hdom]
    exact .replyAll
  · intro k c hc
    rw [hnil] at hc
    simp at hc

end Completed

/-- A group that completes forms its context exactly if it is the first one and has a net sim. -/
theorem hello_forms_iff {n : ℕ} {groups : List (List (Hello ι))} {group : List (Hello ι)}
    (hlen : ∀ g ∈ groups, g.length = n) (hgroup : group.length = n)
    (hnd : (groupIds (groups.flatten ++ group)).Nodup) {b b' : Broker ι} {out₀ out : Replies ι}
    (h₀ : handleAll (init n) (helloFrames groups.flatten) = .ok (b, out₀))
    (h : handleAll b (helloFrames group) = .ok (b', out)) :
    Forms group b b' out ↔ groups = [] ∧ ∃ h ∈ group, h.netSim = true := by
  rcases Nat.eq_zero_or_pos n with rfl | hn
  · -- an empty group forms nothing
    obtain rfl := List.length_eq_zero_iff.mp hgroup
    simp only [helloFrames, List.map_nil, handleAll, Except.ok.injEq, Prod.mk.injEq] at h
    obtain ⟨rfl, rfl⟩ := h
    constructor
    · rintro ⟨⟨c, hctx, -⟩, -⟩
      omega
    · rintro ⟨-, h, hh, -⟩
      cases hh
  simp only [groupIds, List.map_append] at hnd
  have hnd' : (groupIds group).Nodup := (List.nodup_append.mp hnd).2.1
  obtain ⟨hb, hw, hctxs⟩ := handleAll_groups hn groups (init n) out₀ ⟨rfl, rfl, rfl⟩ rfl hlen
    (List.nodup_append.mp hnd).1 h₀
  have hsize : group.length = b.worldSize := hgroup.trans hw.symm
  have hne : group ≠ [] := List.length_pos_iff.mp (hgroup ▸ hn)
  have hgroups : groups = [] ↔ b.ctxs = [] := by
    rw [← List.length_eq_zero_iff, ← List.length_eq_zero_iff, hctxs]
    simp [init]
  rw [hgroups]
  constructor
  · exact fun hf => ⟨first_of_forms hb hnd' hsize hne h hf, netSim_of_forms hb hnd' hsize hne h hf⟩
  · rintro ⟨hnil, hh⟩
    exact forms_of_first hb hnd' hsize hne h hnil hh

/-- Simulators `first`, .., of which the last is the net sim. -/
def groupFrom (first : ℕ) : List (Hello ℕ) :=
  [⟨first, 0, false⟩, ⟨first + 1, 0, false⟩, ⟨first + 2, 0, false⟩, ⟨first + 3, 0, true⟩]

/-- Simulator `i` of context `k` registers an object, and has no logical id. -/
def unnumbered (i : ℕ) (k : ℕ) (x : Except Stop (Broker ℕ × Replies ℕ)) : Bool :=
  match x with
  | .ok (b, _) =>
    match registerHandler b i k "meter" with
    | .error (.gracefulDeath .noLogicalId) => true
    | _ => false
  | .error _ => false

theorem of_unnumbered {i k : ℕ} {x : Except Stop (Broker ℕ × Replies ℕ)} (h : unnumbered i k x = true) :
    ∃ b out, x = .ok (b, out) ∧ registerHandler b i k "meter" = death .noLogicalId := by
  unfold unnumbered at h
  split at h
  · next b out =>
    split at h
    · next hr => exact ⟨b, out, rfl, hr⟩
    · cases h
  · cases h

/-- Nobody of the second group of four has a logical id: its first registration stops the broker. -/
theorem second_group_unnumbered : ∃ b out b' out',
    handleAll (init 4) (helloFrames (groupFrom 0)) = .ok (b, out) ∧
    handleAll b (helloFrames (groupFrom 4)) = .ok (b', out') ∧
    registerHandler b' 4 1 "meter" = death .noLogicalId ∧ ¬ Forms (groupFrom 4) b b' out' := by
  obtain ⟨b', o, hrun, hreg⟩ := of_unnumbered (i := 4) (k := 1)
    (x := handleAll (init 4) (helloFrames (groupFrom 0) ++ helloFrames (groupFrom 4))) (by decide +kernel)
  obtain ⟨b, out, out', h, h', -⟩ := handleAll_append.mp hrun
  have hlen : b.ctxs.length = 1 := (handleAll_groups (n := 4) (by decide) [groupFrom 0] (init 4) out
    ⟨rfl, rfl, rfl⟩ rfl (by decide) (by decide) h).2.2
  refine ⟨b, out, b', out', h, h', hreg, fun hf => ?_⟩
  obtain ⟨⟨c, -, hc, -, -, -, hnum⟩, -⟩ := hf
  rw [hlen] at hc
  exact hnum b' 1 c 4 "meter" hc rfl (by decide) hreg

theorem first_group_forms : ∃ b' out, handleAll (init 4) (helloFrames (groupFrom 0)) = .ok (b', out) ∧
    Forms (groupFrom 0) (init 4) b' out := by
  have hrun : ∃ x, handleAll (init 4) (helloFrames (groupFrom 0)) = .ok x := by
    cases hr : handleAll (init 4) (helloFrames (groupFrom 0)) with
    | ok x => exact ⟨x, rfl⟩
    | error e =>
      have : (handleAll (init 4) (helloFrames (groupFrom 0))).isOk = true := by decide +kernel
      rw [hr] at this
      cases this
  obtain ⟨⟨b', out⟩, h⟩ := hrun
  exact ⟨b', out, h, (hello_forms_iff (n := 4) (List.forall_mem_nil _) (by decide) (by decide) rfl h).mpr
    ⟨rfl, by decide⟩⟩

end Fncs.Broker

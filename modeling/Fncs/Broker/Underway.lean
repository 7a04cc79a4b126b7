/-
Runs of a broker whose contexts work and fork at the same time.

The invariant speaks of the broker as it is once the fork is over
(`Underlies`): until the child context is there, of the broker without the
fork's reports, and from then on of the broker with the parents renamed. A
collective of another context leaves it a collective ahead, whichever of the
two it is.

Objects are addressed by messages over the wire (`Wire.Routed`), whose names may
be too long to get through.
-/
import Fncs.Broker.Forest
import Fncs.Wire.Routes

namespace Fncs.Broker

open Pending

variable {ι : Type} [LinearOrder ι]

/-! ## A fork under way -/

/-- What the members of a context that forks leave as it is until they have all reported. -/
structure Begun (n : ℕ) (s : Forest ι) (F : Fork ι) (c : Context ι) : Prop where
  routable : Routable n c
  asleep : c.asleep = ∅
  idle : ∀ i, s.pending F.context i = none
  branching : Branching s.family F c

/-- `V` is the broker with the fork that is under way over, or, while the child context is missing, before it. -/
inductive Underlies (s : Forest ι) (V : Broker ι) : Prop
  | still (under : s.underway = none) (broker : s.family.broker = V)
  | forks (F : Fork ι) (c : Context ι) (rest : List (Frame ι)) (A P : OrdSet ι) (under : s.underway = some ⟨F, c, rest⟩)
      (begun : Begun V.worldSize s F c)
      (broker : s.family.broker = V.collecting F.context c F.child F.parent A P) (entries : V.ctxs[F.context]? = some c)
      (forked : A.dom ⊆ c.contexts.dom) (missing : A ≠ c.contexts) (reported : P.dom ⊆ c.contexts.dom)
      (remaining : Remaining F.context c F.child F.parent A P rest)
  | parents (F : Fork ι) (c : Context ι) (rest : List (Frame ι)) (P : OrdSet ι) (under : s.underway = some ⟨F, c, rest⟩)
      (begun : Begun V.worldSize s F c)
      (broker : s.family.broker = V.setContext F.context (c.reporting (identities P F.parent) true))
      (entries : V.ctxs[F.context]? = some (c.rename F.parent)) (reported : P.dom ⊆ c.contexts.dom)
      (missing : P ≠ c.contexts) (remaining : Remaining F.context c F.child F.parent c.contexts P rest)

/-- Every context agrees with what its members wait for. -/
structure Agreeing (n : ℕ) (s : Forest ι) (V : Broker ι) : Prop where
  groups : ∀ k c, V.ctxs[k]? = some c →
    ∃ g : HelloGroup ι, g.size = n ∧ Agrees g (s.pending k) (s.sentSum k) (s.recvSum k) c
  rest : ∀ k, V.ctxs.length ≤ k → s.pending k = (fun _ => none) ∧ s.sentSum k = 0 ∧ s.recvSum k = 0

structure ForestInv (g : HelloGroup ι) (objs : List (ι × String)) (s : Forest ι) (V : Broker ι) : Prop where
  underlies : Underlies s V
  family : FamilyInv g objs { s.family with broker := V.roused }
  agreeing : Agreeing g.size s V

section Steps

variable {g : HelloGroup ι} {objs : List (ι × String)} {s s' : Forest ι} {V : Broker ι} {k : ℕ} {c : Context ι}

theorem collecting_setContext {b : Broker ι} {K : ℕ} {d : Context ι} {child parent : ι → ι} {A P : OrdSet ι} (hk : k ≠ K) :
    (b.setContext k d).collecting K c child parent A P = (b.collecting K c child parent A P).setContext k d := by
  simp only [collecting, setContext, List.set_comm _ _ hk]

theorem setContext_comm {b : Broker ι} {K : ℕ} {d d' : Context ι} (hk : k ≠ K) :
    (b.setContext k d).setContext K d' = (b.setContext K d').setContext k d := by
  simp only [setContext, List.set_comm _ _ hk]

theorem forking_of {F : Fork ι} {rest : List (Frame ι)} (h : s.underway = some ⟨F, c, rest⟩) (hk : s.forking k = false) :
    k ≠ F.context := by
  rintro rfl
  simp [Forest.forking, h] at hk

/-- Outside the context that forks, nothing is hidden. -/
theorem Underlies.context (h : Underlies s V) (hk : s.forking k = false) :
    V.ctxs[k]? = s.family.broker.ctxs[k]? := by
  cases h with
  | still _ hb => rw [hb]
  | forks F c rest A P hu _ hb _ _ _ _ _ =>
    rw [hb]
    simp [collecting, List.getElem?_set_ne (forking_of hu hk).symm]
  | parents F c rest P hu _ hb _ _ _ _ =>
    rw [hb]
    simp [List.getElem?_set_ne (forking_of hu hk).symm]

theorem Underlies.worldSize (h : Underlies s V) : s.family.broker.worldSize = V.worldSize := by
  cases h with
  | still _ hb => rw [hb]
  | forks _ _ _ _ _ _ _ hb _ _ _ _ _ => rw [hb]; rfl
  | parents _ _ _ _ _ _ hb _ _ _ _ => rw [hb]; rfl

theorem Underlies.length (h : Underlies s V) : s.family.broker.ctxs.length = V.ctxs.length := by
  cases h with
  | still _ hb => rw [hb]
  | forks _ _ _ _ _ _ _ hb _ _ _ _ _ => rw [hb]; simp [collecting]
  | parents _ _ _ _ _ _ hb _ _ _ _ => rw [hb]; simp

/-- Another context changes, and what its members wait for. -/
theorem Underlies.setContext (h : Underlies s V) (hk : s.forking k = false) (d : Context ι)
    (hf : s'.family = { s.family with broker := s.family.broker.setContext k d }) (hu : s'.underway = s.underway)
    (hp : ∀ j, j ≠ k → s'.pending j = s.pending j) : Underlies s' (V.setContext k d) := by
  have begun {F : Fork ι} {c : Context ι} (hne : k ≠ F.context) (hb : Begun V.worldSize s F c) :
      Begun (V.setContext k d).worldSize s' F c := by
    obtain ⟨h1, h2, h3, h4⟩ := hb
    refine ⟨h1, h2, fun i => by rw [hp _ hne.symm, h3], ?_⟩
    rw [hf]
    exact ⟨h4.nodup, h4.known, h4.child, h4.parent⟩
  cases h with
  | still hn hb => exact .still (hu.trans hn) (by rw [hf, hb])
  | forks F c rest A P hun hbegun hb hc hA hmiss hP hr =>
    have hne := forking_of hun hk
    refine .forks F c rest A P (hu.trans hun) (begun hne hbegun) ?_ ?_ hA hmiss hP hr
    · rw [hf, hb, collecting_setContext hne]
    · simp [List.getElem?_set_ne hne, hc]
  | parents F c rest P hun hbegun hb hc hP hmiss hr =>
    have hne := forking_of hun hk
    refine .parents F c rest P (hu.trans hun) (begun hne hbegun) ?_ ?_ hP hmiss hr
    · rw [hf, hb, setContext_comm hne]
    · simp [List.getElem?_set_ne hne, hc]

theorem mayAsk_iff {f : Frame ι} : s.mayAsk f = true ↔ ∃ c netSim,
    s.family.broker.ctxs[f.context.toNat]? = some c ∧ 0 ≤ f.context ∧ s.forking f.context.toNat = false ∧
    c.netSimID = some netSim ∧ collectivesOnly netSim (s.session f.context.toNat c) f.alone = true := by
  unfold Forest.mayAsk
  cases s.family.broker.ctxs[f.context.toNat]? with
  | none => simp
  | some c => cases hn : c.netSimID <;> simp [hn, and_assoc]

omit [LinearOrder ι] in
theorem isCollective_ownContext {r : Request ι} (h : r.isCollective = true) : r.ownContext = true := by
  cases r <;> first | rfl | cases h

/-- A collective changes its own context, and releases nothing or one collective of it. -/
structure ServedInContext (s : Forest ι) (f : Frame ι) (b : Broker ι) (out : Replies ι) (c c' : Context ι) : Prop where
  context : s.family.broker.ctxs[f.context.toNat]? = some c
  broker : b = s.family.broker.setContext f.context.toNat c'
  release : out = [] ∨ ∃ netSim, c.netSimID = some netSim ∧ Release netSim (awakeFor c f)
    (post (s.pending f.context.toNat) f.identity f.request) (s.sentSum f.context.toNat) (s.recvSum f.context.toNat) out

theorem ForestInv.ask (h : ForestInv g objs s V) {f : Frame ι} {b : Broker ι} {out : Replies ι}
    {pubs : List Publication} (ha : s.mayAsk f = true)
    (hs : s.family.broker.step f.identity f.context f.request = .ok (b, out, pubs)) :
    pubs = [] ∧ ∃ c c', ServedInContext s f b out c c' ∧ ForestInv g objs (s.answered f b out) (V.setContext f.context.toNat c') := by
  obtain ⟨c, netSim, hc, h0, hk, hnet, hcoll⟩ := mayAsk_iff.mp ha
  obtain ⟨i, context, r⟩ := f
  obtain ⟨k, rfl⟩ := Int.eq_ofNat_of_zero_le h0
  simp only [Int.toNat_natCast] at hc hk hcoll hs ⊢
  have hcV : V.ctxs[k]? = some c := (h.underlies.context hk).trans hc
  obtain ⟨gk, hsize, hag⟩ := h.agreeing.groups k c hcV
  obtain rfl : netSim = gk.netSim := Option.some.inj (hnet.symm.trans hag.roster.netSimID)
  have hr : r.isCollective = true := by
    simp only [collectivesOnly, Bool.and_eq_true] at hcoll
    exact hcoll.1.1.2
  -- the broker serves it as the context alone would
  obtain ⟨e, hx, -⟩ | ⟨c', out', pubs', hx, hy⟩ := step_own (isCollective_ownContext hr) hc i
  · cases hx.symm.trans hs
  obtain ⟨rfl, rfl, rfl⟩ : s.family.broker.setContext k c' = b ∧ out' = out ∧ pubs' = pubs := by
    simpa only [Except.ok.injEq, Prod.mk.injEq] using hx.symm.trans hs
  obtain ⟨hproc, rfl⟩ := collective_processes hr hag.roster.valid hy
  have hworld : s.family.broker.worldSize = gk.size := by
    rw [h.underlies.worldSize, hsize]
    exact h.family.worldSize
  obtain ⟨c'', hb, hag', hrel⟩ := step_handles (s := s.session k c) (f := (⟨i, k, r⟩ : Frame ι).alone) hworld rfl hag hcoll hy
  obtain rfl : c' = c'' := (List.cons.inj (congrArg Broker.ctxs hb)).1
  refine ⟨rfl, c, c', ⟨hc, rfl, hrel.imp_right fun hrel => ⟨_, hnet, hrel⟩⟩, ?_, ?_, ?_⟩
  · exact h.underlies.setContext hk c' rfl rfl fun j hj => Function.update_of_ne hj _ _
  · have hd : Descends g s.family.ancestor s.family.known c.roused :=
      h.family.descends _ (List.mem_of_getElem? (roused_context hcV))
    rw [roused_setContext]
    refine h.family.setContext (hd.congr ?_ hproc)
    refine OrdSet.ext_dom ?_
    simp only [Context.roused, OrdMap.dom_union, hag.roster.union, hag'.roster.union]
  · have hlt := (List.getElem?_eq_some_iff.mp hcV).1
    constructor
    · intro j d hd
      by_cases hj : j = k
      · subst hj
        obtain rfl : c' = d := by simpa [hlt] using hd
        simp only [Forest.answered, Int.toNat_natCast, Function.update_self]
        exact ⟨gk, hsize, hag'⟩
      · simp only [setContext_ctxs, List.getElem?_set_ne (Ne.symm hj)] at hd
        simp only [Forest.answered, Int.toNat_natCast, Function.update_of_ne hj]
        exact h.agreeing.groups j d hd
    · intro j hj
      simp only [setContext_ctxs, List.length_set] at hj
      have hjk : j ≠ k := by omega
      simp only [Forest.answered, Int.toNat_natCast, Function.update_of_ne hjk]
      exact h.agreeing.rest j hj

/-- Nothing of a fork has reached the broker. -/
theorem collecting_none {b : Broker ι} {child parent : ι → ι} (h : Forkable b k c) :
    b.collecting k c child parent ∅ ∅ = b := by
  have hset : b.ctxs.set k (c.reporting (identities ∅ parent) false) = b.ctxs := by
    have hsame : c.reporting (identities ∅ parent) false = c := by
      rw [Context.reporting, ← h.routable.idle, show identities (∅ : OrdSet ι) parent = ∅ from rfl, ← h.routable.reinit]
    obtain ⟨hlt, hget⟩ := List.getElem?_eq_some_iff.mp h.context
    rw [hsame, ← hget, List.set_getElem_self]
  have hnone : c.netSimID.bind (∅ : OrdMap ι ι).lookup = none := by cases c.netSimID <;> rfl
  rw [collecting, show identities (∅ : OrdSet ι) child = ∅ from rfl, hset, hnone, ← h.childIniMap, ← h.newNetSimID,
    if_pos rfl, ← h.newParents]

/-- A context of the broker that is to come, all its members awake, can be forked. -/
theorem forkable_of (h : FamilyInv g objs { s.family with broker := V.roused }) (hc : V.ctxs[k]? = some c)
    (hasleep : c.asleep = ∅) : Forkable V k c where
  context := hc
  routable := by
    have hd := h.descends _ (List.mem_of_getElem? (roused_context hc))
    rw [Context.roused_of_awake hasleep] at hd
    have hw : V.worldSize = g.size := h.worldSize
    rw [hw]
    exact hd.routable
  childIniMap := h.childIniMap
  newConnections := h.newConnections
  newParents := h.newParents
  newNetSimID := h.newNetSimID

/-- Nobody in a context whose members are idle waits. -/
theorem idle_pending {gk : HelloGroup ι} (h : Agrees gk (s.pending k) (s.sentSum k) (s.recvSum k) c)
    (hc : s.family.broker.ctxs[k]? = some c) (hidle : s.idle k = true) (i : ι) : s.pending k i = none := by
  simp only [Forest.idle, hc, List.all_eq_true, List.mem_append, Option.isNone_iff_eq_none] at hidle
  by_contra hn
  obtain ⟨r, hr⟩ := Option.ne_none_iff_exists'.mp hn
  refine hn (hidle i ?_)
  have hi : i ∈ c.contexts.dom ∪ c.asleep.dom := by
    rw [h.roster.union]
    exact List.mem_toFinset.mpr (h.proper.members i r hr)
  simpa [OrdMap.mem_dom] using hi

theorem ForestInv.begun (h : ForestInv g objs s V) {F : Fork ι} (hs : s.fork F = .ok s') : ForestInv g objs s' V := by
  obtain ⟨⟨hu, ha, hidle⟩, c, hc, rfl⟩ := Forest.fork_ok.mp hs
  obtain ⟨c', hc', hperm, hnd, hfresh⟩ := Family.allowed_iff.mp ha
  obtain rfl : c = c' := Option.some.inj (hc.symm.trans hc')
  cases h.underlies with
  | forks _ _ _ _ _ hun => cases hu.symm.trans hun
  | parents _ _ _ _ hun => cases hu.symm.trans hun
  | still _ hb =>
    have hcV : V.ctxs[F.context]? = some c := hb ▸ hc
    obtain ⟨gk, hsize, hag⟩ := h.agreeing.groups _ c hcV
    have hpend := idle_pending hag hc hidle
    have hasleep := hag.awake_of_idle fun i _ => hpend i
    have hfork := forkable_of h.family hcV hasleep
    have hd := h.family.descends _ (List.mem_of_getElem? (roused_context hcV))
    rw [Context.roused_of_awake hasleep] at hd
    have hne : (∅ : OrdSet ι) ≠ c.contexts := by
      intro he
      obtain ⟨net, hnet, -⟩ := hfork.routable.netSim
      rw [← he] at hnet
      simp at hnet
    refine ⟨.forks F c F.reports ∅ ∅ rfl ⟨hfork.routable, hasleep, hpend, .begun hnd hfresh hd.known⟩ ?_ hcV (by simp) hne
      (by simp) (.of_perm hperm), h.family.begun hfresh, h.agreeing.groups, h.agreeing.rest⟩
    rw [collecting_none hfork]
    exact hb

/-- The child context, and the parents renamed. -/
theorem ForestInv.branched (h : ForestInv g objs s V) {F : Fork ι} (hc : V.ctxs[F.context]? = some c)
    (hb : Begun V.worldSize s F c) :
    FamilyInv g objs { s.family with broker := (V.withChild F.context c F.child (c.rename F.parent)).roused } ∧
      Agreeing g.size s (V.withChild F.context c F.child (c.rename F.parent)) := by
  have hlt := (List.getElem?_eq_some_iff.mp hc).1
  have hworld : V.worldSize = g.size := h.family.worldSize
  have hrouse : V.roused.ctxs[F.context]? = some c := by
    rw [roused_context hc, Context.roused_of_awake hb.asleep]
  constructor
  · have hw : (c.rename F.parent).asleep = ∅ := hb.asleep
    rw [roused_withChild hw]
    have hbr := hb.branching
    exact h.family.branched hrouse ⟨hbr.nodup, hbr.known, hbr.child, hbr.parent⟩
  · obtain ⟨gk, hsize, hag⟩ := h.agreeing.groups _ c hc
    obtain ⟨hci, hpi, -⟩ := Family.newIdentities_nodup hb.branching.nodup
    constructor
    · intro j d hd
      simp only [withChild] at hd
      rcases lt_trichotomy j V.ctxs.length with hj | rfl | hj
      · rw [List.getElem?_append_left (by simpa using hj)] at hd
        by_cases hjk : j = F.context
        · subst hjk
          obtain rfl : c.rename F.parent = d := by simpa [hlt] using hd
          obtain ⟨g', hsize', hag'⟩ := hag.renamed hb.idle hpi
          exact ⟨g', hsize'.trans hsize, hag'⟩
        · rw [List.getElem?_set_ne (Ne.symm hjk)] at hd
          exact h.agreeing.groups j d hd
      · obtain rfl : c.childOf V.worldSize F.context F.child = d := by simpa using hd
        obtain ⟨g', hsize', hag'⟩ := hag.child (k := F.context) hb.asleep hci
        obtain ⟨hp, hs, hr⟩ := h.agreeing.rest _ le_rfl
        rw [hp, hs, hr, hworld, ← hsize]
        exact ⟨g', hsize', hag'⟩
      · rw [List.getElem?_eq_none (by simp; omega)] at hd
        cases hd
    · intro j hj
      refine h.agreeing.rest j ?_
      simp only [withChild, List.length_append, List.length_set, List.length_singleton] at hj
      omega

theorem Remaining.nil_iff {child parent : ι → ι} {A P : OrdSet ι} {r : List (Frame ι)}
    (h : Remaining k c child parent A P r) (hA : A.dom ⊆ c.contexts.dom) (hP : P.dom ⊆ c.contexts.dom) :
    r = [] ↔ A = c.contexts ∧ P = c.contexts := by
  constructor
  · rintro rfl
    exact h.nil hA hP
  · rintro ⟨rfl, rfl⟩
    refine List.eq_nil_iff_forall_not_mem.mpr fun f hf => ?_
    rcases (h.mem f).mp hf with ⟨i, hi, hn, -⟩ | ⟨i, hi, hn, -⟩ <;> exact hn hi

theorem Begun.reported {n : ℕ} {F : Fork ι} (h : Begun n s F c) (u : Underway ι) (b : Broker ι) (rest : List (Frame ι)) :
    Begun n (s.reported u b rest) F c :=
  ⟨h.routable, h.asleep, h.idle, ⟨h.branching.nodup, h.branching.known, h.branching.child, h.branching.parent⟩⟩

theorem reported_none {u : Underway ι} {b : Broker ι} {rest : List (Frame ι)} (h : rest = []) :
    (s.reported u b rest).underway = none := if_pos h

theorem reported_some {F : Fork ι} {b : Broker ι} {f : Frame ι} {rest : List (Frame ι)} (h : rest ≠ []) :
    (s.reported ⟨F, c, f :: rest⟩ b rest).underway = some ⟨F, c, rest⟩ := if_neg h

section Reports

variable {F : Fork ι} {rest : List (Frame ι)} {A P : OrdSet ι} {i : ι}

/-- The report of a child while the child context is missing. -/
theorem ForestInv.childFrame (h : ForestInv g objs s V)
    (hu : s.underway = some ⟨F, c, childFrame F.context c F.child i :: rest⟩) (hbegun : Begun V.worldSize s F c)
    (hb : s.family.broker = V.collecting F.context c F.child F.parent A P) (hc : V.ctxs[F.context]? = some c)
    (hA : A.dom ⊆ c.contexts.dom) (hmiss : A ≠ c.contexts) (hP : P.dom ⊆ c.contexts.dom)
    (hr : Remaining F.context c F.child F.parent A P (Broker.childFrame F.context c F.child i :: rest)) :
    ∃ s' V', s.report = .ok s' ∧ ForestInv g objs s' V' := by
  have hfork := forkable_of h.family hc hbegun.asleep
  obtain ⟨hi, hiA, hr'⟩ := hr.tail_child
  have hadd : (A.add i).dom ⊆ c.contexts.dom := by
    rw [OrdSet.dom_add]
    exact Finset.insert_subset hi hA
  have hs := step_childFrame hfork hA hP hi hiA F.child F.parent
  rw [forkState, if_pos hmiss, ← hb] at hs
  have htaken := Forest.report_ok.mpr ⟨_, _, _, _, _, _, hu, rfl, hs, rfl⟩
  by_cases hlast : A.add i = c.contexts
  · obtain ⟨hfam, hagree⟩ := h.branched hc hbegun
    rw [hlast] at hr' htaken
    refine ⟨_, V.withChild F.context c F.child (c.rename F.parent), htaken, ?_, hfam, hagree.groups, hagree.rest⟩
    by_cases hall : P = c.contexts
    · refine .still (reported_none ((hr'.nil_iff subset_rfl hP).mpr ⟨rfl, hall⟩)) ?_
      simp [Forest.reported, forkState, hall]
    · refine .parents F c rest P (reported_some fun hn => hall ((hr'.nil_iff subset_rfl hP).mp hn).2)
        (hbegun.reported _ _ _) ?_ (withChild_context hfork.lt ..) hP hall hr'
      rw [withChild_setContext hfork.lt]
      simp [Forest.reported, forkState, hall]
  · refine ⟨_, V, htaken, ?_, h.family, h.agreeing.groups, h.agreeing.rest⟩
    refine .forks F c rest (A.add i) P (reported_some fun hn => hlast ((hr'.nil_iff hadd hP).mp hn).1)
      (hbegun.reported _ _ _) ?_ hc hadd hlast hP hr'
    simp [Forest.reported, forkState, hlast]

/-- The report of a parent while the child context is missing. -/
theorem ForestInv.parentFrame (h : ForestInv g objs s V)
    (hu : s.underway = some ⟨F, c, parentFrame F.context F.parent i :: rest⟩) (hbegun : Begun V.worldSize s F c)
    (hb : s.family.broker = V.collecting F.context c F.child F.parent A P) (hc : V.ctxs[F.context]? = some c)
    (hA : A.dom ⊆ c.contexts.dom) (hmiss : A ≠ c.contexts) (hP : P.dom ⊆ c.contexts.dom)
    (hr : Remaining F.context c F.child F.parent A P (Broker.parentFrame F.context F.parent i :: rest)) :
    ∃ s' V', s.report = .ok s' ∧ ForestInv g objs s' V' := by
  have hfork := forkable_of h.family hc hbegun.asleep
  obtain ⟨hi, hiP, hr'⟩ := hr.tail_parent
  have hadd : (P.add i).dom ⊆ c.contexts.dom := by
    rw [OrdSet.dom_add]
    exact Finset.insert_subset hi hP
  have hs := step_parentFrame hfork hP hi hiP A F.child F.parent
  rw [forkState, if_pos hmiss, ← hb] at hs
  have htaken := Forest.report_ok.mpr ⟨_, _, _, _, _, _, hu, rfl, hs, rfl⟩
  refine ⟨_, V, htaken, ?_, h.family, h.agreeing.groups, h.agreeing.rest⟩
  refine .forks F c rest A (P.add i) (reported_some fun hn => hmiss ((hr'.nil_iff hA hadd).mp hn).1)
    (hbegun.reported _ _ _) ?_ hc hA hmiss hadd hr'
  simp [Forest.reported, forkState, hmiss]

/-- The report of a parent once the child context is there. -/
theorem ForestInv.lateParentFrame (h : ForestInv g objs s V)
    (hu : s.underway = some ⟨F, c, Broker.parentFrame F.context F.parent i :: rest⟩) (hbegun : Begun V.worldSize s F c)
    (hb : s.family.broker = V.setContext F.context (c.reporting (identities P F.parent) true))
    (hc : V.ctxs[F.context]? = some (c.rename F.parent)) (hP : P.dom ⊆ c.contexts.dom)
    (hr : Remaining F.context c F.child F.parent c.contexts P (Broker.parentFrame F.context F.parent i :: rest)) :
    ∃ s' V', s.report = .ok s' ∧ ForestInv g objs s' V' := by
  have hlt := (List.getElem?_eq_some_iff.mp hc).1
  have hfork : Forkable (V.setContext F.context c) F.context c :=
    ⟨by simp [hlt], hbegun.routable, h.family.childIniMap, h.family.newConnections, h.family.newParents,
      h.family.newNetSimID⟩
  obtain ⟨hi, hiP, hr'⟩ := hr.tail_parent
  have hadd : (P.add i).dom ⊆ c.contexts.dom := by
    rw [OrdSet.dom_add]
    exact Finset.insert_subset hi hP
  have hk : s.family.broker.ctxs[F.context]? = some (c.reporting (identities P F.parent) true) := by
    rw [hb]
    simp [hlt]
  have hs := step_parentReinit hfork hP hiP F.parent hk h.underlies.worldSize
  have hset : s.family.broker.setContext F.context (c.reporting (identities (P.add i) F.parent) true) =
      V.setContext F.context (c.reporting (identities (P.add i) F.parent) true) := by
    rw [hb]
    simp [setContext]
  have hk' : (V.setContext F.context (c.reporting (identities (P.add i) F.parent) true)).ctxs[F.context]? =
      some (c.reporting (identities (P.add i) F.parent) true) := by simp [hlt]
  rw [hset] at hs
  by_cases hall : P.add i = c.contexts
  · rw [hall] at hs hk' hr'
    rw [parentReinitChecker_replace (b := V.setContext F.context _) hbegun.routable hk'] at hs
    refine ⟨_, V, Forest.report_ok.mpr ⟨_, _, _, _, _, _, hu, rfl, hs, rfl⟩, ?_, h.family, h.agreeing.groups,
      h.agreeing.rest⟩
    refine .still (reported_none ((hr'.nil_iff subset_rfl subset_rfl).mpr ⟨rfl, rfl⟩)) ?_
    obtain ⟨_, hget⟩ := List.getElem?_eq_some_iff.mp hc
    simp [Forest.reported, setContext, ← hget]
  · rw [parentReinitChecker_wait hk' (.inr fun hn => hall ((hfork.size_eq hadd).mp (identities_size.symm.trans hn)))] at hs
    refine ⟨_, V, Forest.report_ok.mpr ⟨_, _, _, _, _, _, hu, rfl, hs, rfl⟩, ?_, h.family, h.agreeing.groups,
      h.agreeing.rest⟩
    exact .parents F c rest (P.add i) (reported_some fun hn => hall ((hr'.nil_iff subset_rfl hadd).mp hn).2)
      (hbegun.reported _ _ _) rfl hc hadd hall hr'

/-- The broker takes every report, and the last one ends the fork. -/
theorem ForestInv.reported (h : ForestInv g objs s V) (hu : s.underway ≠ none) :
    ∃ s' V', s.report = .ok s' ∧ ForestInv g objs s' V' := by
  cases h.underlies with
  | still hun _ => exact absurd hun hu
  | forks F c rest A P hun hbegun hb hc hA hmiss hP hr =>
    cases rest with
    | nil => exact absurd (hr.nil hA hP).1 hmiss
    | cons f rest =>
      rcases (hr.mem f).mp List.mem_cons_self with ⟨i, -, -, rfl⟩ | ⟨i, -, -, rfl⟩
      · exact h.childFrame hun hbegun hb hc hA hmiss hP hr
      · exact h.parentFrame hun hbegun hb hc hA hmiss hP hr
  | parents F c rest P hun hbegun hb hc hP hmiss hr =>
    cases rest with
    | nil => exact absurd (hr.nil subset_rfl hP).2 hmiss
    | cons f rest =>
      rcases (hr.mem f).mp List.mem_cons_self with ⟨i, hi, hn, -⟩ | ⟨i, -, -, rfl⟩
      · exact absurd hi hn
      · exact h.lateParentFrame hun hbegun hb hc hP hr

end Reports

end Steps

/-! ## Runs -/

section Runs

variable {g : HelloGroup ι} {objs : List (ι × String)} {s s' : Forest ι} {V : Broker ι} {k : ℕ} {c : Context ι}

theorem ForestInv.start {b : Broker ι} (h : Registered g objs b) : ForestInv g objs (Forest.start g b) b := by
  have hctxs : b.ctxs = [{ g.context with netSimObjCount := (objectsOf objs g.netSim).length }] :=
    congrArg Broker.ctxs h.broker
  have hrouse : b.roused = b := by
    rw [roused, hctxs, List.map_singleton, Context.roused_of_awake rfl, ← hctxs]
  refine ⟨.still rfl rfl, ?_, fun k c hc => ?_, fun k _ => ⟨rfl, rfl, rfl⟩⟩
  · rw [hrouse]
    exact FamilyInv.start h
  · obtain rfl : c = { g.context with netSimObjCount := (objectsOf objs g.netSim).length } := by
      have hmem := List.mem_of_getElem? hc
      rw [hctxs] at hmem
      exact List.mem_singleton.mp hmem
    obtain ⟨⟨h1, h2, h3, h4, h5, h6⟩, ⟨t1, t2, t3, t4, t5, t6, t7⟩, hp, hs, hr⟩ := Agrees.formed g
    exact ⟨g, rfl, ⟨h1, h2, h3, h4, h5, h6⟩, ⟨t1, t2, t3, t4, t5, t6, t7⟩, hp, hs, hr⟩

theorem ForestInv.step (h : ForestInv g objs s V) {e : Happening ι} (hs : Forest.step s e = .ok s') :
    ∃ V', ForestInv g objs s' V' := by
  cases e with
  | ask f =>
    obtain ⟨ha, b, out, pubs, hb, rfl⟩ := Forest.ask_ok.mp hs
    obtain ⟨-, c, c', -, h'⟩ := h.ask ha hb
    exact ⟨_, h'⟩
  | fork F => exact ⟨V, h.begun hs⟩
  | report =>
    have hu : s.underway ≠ none := by
      obtain ⟨u, f, rest, b, out, pubs, hu, -⟩ := Forest.report_ok.mp hs
      simp [hu]
    obtain ⟨t, V', ht, h'⟩ := h.reported hu
    obtain rfl := Except.ok.inj (ht.symm.trans hs)
    exact ⟨V', h'⟩

/-- A context's members descend one to one from the initial group. -/
theorem Descends.bijOn {ancestor : ι → ι} {known : Finset ι} (h : Descends g ancestor known c) :
    Set.BijOn ancestor c.contexts.dom g.members.toFinset := by
  have hg := g.routable
  have hmembers : g.context.contexts.dom = g.members.toFinset := by
    simp [HelloGroup.context, Context.number, Context.fresh]
  refine ⟨fun i hi => ?_, fun i hi j hj he => ?_, fun m hm => ?_⟩
  · obtain ⟨l, hl⟩ := h.routable.logical_surj i hi
    exact hmembers ▸ hg.logical_mem l _ (h.logical l i hl)
  · obtain ⟨l, hl⟩ := h.routable.logical_surj i hi
    obtain ⟨l', hl'⟩ := h.routable.logical_surj j hj
    obtain rfl := hg.logical_inj l l' (ancestor i) (h.logical l i hl) (he ▸ h.logical l' j hl')
    exact Option.some.inj (hl.symm.trans hl')
  · rw [← hmembers] at hm
    obtain ⟨l, hl⟩ := hg.logical_surj m hm
    have hdom : l ∈ c.logicalIDToRealID.dom := by
      rw [h.routable.logical_dom, ← hg.logical_dom]
      exact OrdMap.mem_dom_of_lookup hl
    obtain ⟨i, hi⟩ := OrdMap.mem_dom.mp hdom
    exact ⟨i, h.routable.logical_mem l i hi, Option.some.inj ((h.logical l i hi).symm.trans hl)⟩

/-- A context of the broker at work: its members, awake or asleep, descend one to one from the initial group, the
collectives wait for the awake ones, and a message to an object that is not the net sim's is routed to the member that
descends from the object's owner exactly when it fits. -/
structure AtWork (g : HelloGroup ι) (objs : List (ι × Wire.Name)) (s : Forest ι) (k : ℕ) (c : Context ι) : Prop where
  disjoint : Disjoint c.contexts.dom c.asleep.dom
  worldSizes : c.worldSizes = c.contexts.dom.card
  members : Set.BijOn s.family.ancestor (c.contexts.dom ∪ c.asleep.dom : Finset ι) g.members.toFinset
  netSim : ∃ net ∈ c.contexts.dom, c.netSimID = some net ∧ s.family.ancestor net = g.netSim
  route : ∀ e ∈ objs, e.1 ≠ g.netSim →
    ∃ owner, (∀ j, j ∈ c.contexts.dom ∪ c.asleep.dom ∧ s.family.ancestor j = e.1 ↔ j = owner) ∧
      ∀ m, m.msgTo = e.2 → ∀ i iAmNetSim, Wire.IsRoute iAmNetSim m →
        (Wire.Routed s.family.broker i k iAmNetSim m owner ↔ Wire.Fits m)

theorem Underlies.routeHandler (h : Underlies s V) (hk : s.forking k = false) (hc : s.family.broker.ctxs[k]? = some c)
    (dest : String) : V.roused.routeHandler k dest = s.family.broker.routeHandler k dest := by
  have hobj : s.family.broker.objToID = V.objToID := by
    cases h with
    | still _ hb => rw [hb]
    | forks _ _ _ _ _ _ _ hb _ _ _ _ _ => rw [hb]; rfl
    | parents _ _ _ _ _ _ hb _ _ _ _ => rw [hb]; rfl
  have hr := roused_context ((h.context hk).trans hc)
  have hobj' : V.roused.objToID = V.objToID := rfl
  unfold Broker.routeHandler
  rw [hobj', hobj]
  simp only [context_ok.mpr hr, context_ok.mpr hc, bind, Except.bind, Context.roused]

theorem ForestInv.atWork {objs : List (ι × Wire.Name)} (h : ForestInv g (objs.map Wire.recorded) s V)
    (hc : s.family.broker.ctxs[k]? = some c) (hk : s.forking k = false) : AtWork g objs s k c := by
  have hcV := (h.underlies.context hk).trans hc
  obtain ⟨gk, -, hag⟩ := h.agreeing.groups k c hcV
  have hd := h.family.descends _ (List.mem_of_getElem? (roused_context hcV))
  have hdom : c.roused.contexts.dom = c.contexts.dom ∪ c.asleep.dom := OrdMap.dom_union _ _
  refine ⟨hag.roster.disjoint, by rw [hag.roster.worldSizes, OrdMap.card_dom], hdom ▸ hd.bijOn,
    ⟨gk.netSim, hag.roster.netSim_awake, hag.roster.netSimID, hd.netSim _ hag.roster.netSimID⟩, fun e he hne => ?_⟩
  obtain ⟨owner, howner, huniq⟩ :=
    h.family.routeHandler (roused_context hcV) (List.mem_map_of_mem (f := Wire.recorded) he) hne
  refine ⟨owner, by rwa [hdom] at huniq, fun m hm i _ hr => ?_⟩
  exact Wire.routed_iff (by rw [hm]; exact (h.underlies.routeHandler hk hc _).symm.trans howner)
    (List.getElem?_eq_some_iff.mp hc).1 i hr

/-- Every context that is not being forked is at work; a collective of one of them leaves the other contexts alone
and releases nothing or one collective of its own; and a fork that has begun goes through. -/
structure ForestCorrect (g : HelloGroup ι) (objs : List (ι × Wire.Name)) (s : Forest ι) : Prop where
  atWork : ∀ k c, s.family.broker.ctxs[k]? = some c → s.forking k = false → AtWork g objs s k c
  ask : ∀ f b out pubs, s.mayAsk f = true → s.family.broker.step f.identity f.context f.request = .ok (b, out, pubs) →
    pubs = [] ∧ ∃ c c', ServedInContext s f b out c c'
  report : s.underway ≠ none → ∃ s', s.report = .ok s'

/-- The collectives of all contexts agree, and messages are routed to the right process of every context, in every
state that collectives and forks lead to from a registered group, however the reports of a fork are interleaved with
the collectives of the contexts that do not fork. A context forks when all its members are awake and none waits. -/
theorem forest_correct (g : HelloGroup ι) {objs : List (ι × Wire.Name)} {b : Broker ι} {es : List (Happening ι)}
    {s : Forest ι} (hstart : Trace.run advance (init g.size)
      (g.frames ++ (objs.map Wire.recorded).map registerFrame) = .ok b)
    (hrun : Trace.run Forest.step (Forest.start g b) es = .ok s) : ForestCorrect g objs s := by
  obtain ⟨V, h⟩ := Trace.run_invariant (I := fun s => ∃ V, ForestInv g (objs.map Wire.recorded) s V)
    (fun _ _ _ ⟨_, h⟩ hs => h.step hs) ⟨b, .start (registered_of_run hstart)⟩ hrun
  refine ⟨fun k c hc hk => h.atWork hc hk, fun f b out pubs ha hb => ?_, fun hu => ?_⟩
  · obtain ⟨hp, c, c', hasked, -⟩ := h.ask ha hb
    exact ⟨hp, c, c', hasked⟩
  · obtain ⟨s', -, hs', -⟩ := h.reported hu
    exact ⟨s', hs'⟩

/-- A reduction, a fork, and a fork of the child context. While the second fork is reported the first parents pass a
barrier, and once the grandchildren are there two of them ask for a reduction. -/
def busyForks : List (Happening ℕ) :=
  List.flatten [
    [.ask ⟨0, 0, .reduceMinTime 5⟩, .ask ⟨3, 0, .reduceMinTime 7⟩, .ask ⟨2, 0, .reduceMinTime 6⟩,
      .ask ⟨1, 0, .reduceMinTime 9⟩],
    (twoForks.take 1).map .fork, List.replicate 8 .report, (twoForks.drop 1).map .fork,
    [.report, .ask ⟨20, 0, .barrier⟩, .report, .ask ⟨23, 0, .barrier⟩, .ask ⟨21, 0, .barrier⟩, .report, .report,
      .ask ⟨112, 2, .reduceMinTime 4⟩, .report, .ask ⟨22, 0, .barrier⟩, .report, .ask ⟨110, 2, .reduceMinTime 3⟩]]

/-- Objects of two simulators and of the net sim. -/
def threeObjects : List (ℕ × Wire.Name) := [(0, Wire.letters 1), (2, Wire.letters 2), (3, Wire.letters 3)]

theorem forest_correct_busy : ∃ b s,
    Trace.run advance (init 4) (fourMembers.frames ++ (threeObjects.map Wire.recorded).map registerFrame) = .ok b ∧
    Trace.run Forest.step (Forest.start fourMembers b) busyForks = .ok s ∧
    s.family.broker.ctxs.length = 3 ∧ s.underway.isSome ∧ s.pending 2 110 = some (.reduceMinTime 3) ∧
    ForestCorrect fourMembers threeObjects s := by
  obtain ⟨b, hb, hcheck⟩ := Trace.exists_run_of_check advance (init 4)
    (fourMembers.frames ++ (threeObjects.map Wire.recorded).map registerFrame)
    (fun b => Trace.endsIn (fun s => s.family.broker.ctxs.length == 3 && s.underway.isSome &&
      s.pending 2 110 == some (.reduceMinTime 3)) (Trace.run Forest.step (Forest.start fourMembers b) busyForks))
    (by decide +kernel)
  obtain ⟨s, hs, hlen⟩ := Trace.exists_run_of_check Forest.step (Forest.start fourMembers b) busyForks _ hcheck
  simp only [Bool.and_eq_true, beq_iff_eq] at hlen
  exact ⟨b, s, hb, hs, hlen.1.1, hlen.1.2, hlen.2, forest_correct fourMembers hb hs⟩

end Runs

end Fncs.Broker

/-
Registering and finalizing: every simulator registers its objects and then
finalizes, in any interleaving with the others. The last FINALIZE_REGISTRATIONS
is answered to everybody with the number of the net sim's objects, all of which
have been counted by then.
-/
import Fncs.Broker.Registration

namespace Fncs.Broker

variable {ι : Type} [LinearOrder ι]

/-- A REGISTER_OBJECT or the FINALIZE_REGISTRATIONS of a simulator. -/
inductive Registration (ι : Type)
  | object (i : ι) (name : String)
  | done (i : ι)
  deriving DecidableEq, Repr

namespace Registration

def sender : Registration ι → ι
  | .object i _ => i
  | .done i => i

def frame : Registration ι → Frame ι
  | .object i name => registerFrame (i, name)
  | .done i => ⟨i, 0, .finalizeRegistrations⟩

/-- What simulator `i` asks for, in its order. -/
def program (objs : ι → List String) (i : ι) : List (Registration ι) := (objs i).map (.object i) ++ [.done i]

/-- The requests of `i` among others. -/
def ofSender (i : ι) (rs : List (Registration ι)) : List (Registration ι) := rs.filter fun r => r.sender = i

/-- The objects `i` has registered so far. -/
def names (i : ι) (rs : List (Registration ι)) : List String :=
  rs.filterMap fun
    | .object j name => if j = i then some name else none
    | .done _ => none

/-- Who has finalized so far. -/
def finalizers (rs : List (Registration ι)) : List ι :=
  rs.filterMap fun
    | .object _ _ => none
    | .done i => some i

end Registration

open Registration

/-- `rs` is an interleaving of what the members of the group ask for. -/
structure Interleaves (g : HelloGroup ι) (objs : ι → List String) (rs : List (Registration ι)) : Prop where
  member : ∀ r ∈ rs, r.sender ∈ g.members
  order : ∀ i ∈ g.members, ofSender i rs = program objs i

/-- Names are unique in every simulator, and among the simulators that are not the net sim. -/
structure UniqueNames (g : HelloGroup ι) (objs : ι → List String) : Prop where
  nodup : ∀ i ∈ g.members, (objs i).Nodup
  disjoint : ∀ i ∈ g.members, ∀ j ∈ g.members, i ≠ g.netSim → j ≠ g.netSim → i ≠ j → ∀ name ∈ objs i, name ∉ objs j

/-- What everybody is answered. -/
def counts (g : HelloGroup ι) (objs : ι → List String) : Replies ι :=
  (OrdSet.ofList g.members).keys.map fun i => (i, .objectCount (objs g.netSim).length)

/-- The group's broker once it has handled `rs`. -/
structure Tallied (g : HelloGroup ι) (rs : List (Registration ι)) (b : Broker ι) : Prop where
  broker : b = { g.formed with
    objToID := b.objToID
    ctxs := [{ g.context with
      netSimObjCount := (names g.netSim rs).length
      finalized := .ofList (finalizers rs) }] }
  registered : ∀ name ∈ b.objToID.dom, ∃ i ∈ g.members, i ≠ g.netSim ∧ name ∈ names i rs

/-! ## Prefixes of an interleaving -/

section Prefix

variable {g : HelloGroup ι} {objs : ι → List String} {rs p q : List (Registration ι)} {i : ι} {name : String}

@[simp] theorem ofSender_append (i : ι) (p q : List (Registration ι)) :
    ofSender i (p ++ q) = ofSender i p ++ ofSender i q := List.filter_append _ _

@[simp] theorem names_append (i : ι) (p q : List (Registration ι)) : names i (p ++ q) = names i p ++ names i q :=
  List.filterMap_append

omit [LinearOrder ι] in
@[simp] theorem finalizers_append (p q : List (Registration ι)) :
    finalizers (p ++ q) = finalizers p ++ finalizers q := List.filterMap_append

omit [LinearOrder ι] in
theorem mem_finalizers : i ∈ finalizers rs ↔ .done i ∈ rs := by
  simp only [finalizers, List.mem_filterMap]
  constructor
  · rintro ⟨r, hr, h⟩
    cases r with
    | object j name => cases h
    | done j =>
      obtain rfl := Option.some.inj h
      exact hr
  · intro h
    exact ⟨_, h, rfl⟩

/-- The names of a simulator are in its own requests. -/
theorem names_ofSender (i : ι) (rs : List (Registration ι)) : names i (ofSender i rs) = names i rs := by
  rw [names, ofSender, List.filterMap_filter]
  refine List.filterMap_congr fun r _ => ?_
  cases r with
  | object j name => by_cases hj : j = i <;> simp [sender, hj]
  | done j => simp

@[simp] theorem names_objects (i : ι) (l : List String) : names i (l.map (.object i)) = l := by
  induction l with
  | nil => rfl
  | cons name l ih => simp [names]

theorem Interleaves.names_le (h : Interleaves g objs (p ++ q)) (hi : i ∈ g.members) :
    names i p ++ names i q = objs i := by
  have hall := congrArg (names i) (h.order i hi)
  rw [names_ofSender, names_append, program, names_append, names_objects] at hall
  simpa [names] using hall

/-- What comes before a simulator's FINALIZE_REGISTRATIONS is all it registers, and nothing of it comes after. -/
theorem Interleaves.done (h : Interleaves g objs (p ++ Registration.done i :: q)) :
    i ∉ finalizers p ∧ names i p = objs i ∧ ofSender i q = [] := by
  have hi : i ∈ g.members := h.member (.done i) (by simp)
  have hsplit := h.order i hi
  have hhere : ofSender i (.done i :: q) = .done i :: ofSender i q := by simp [ofSender, sender]
  rw [ofSender_append, hhere, program] at hsplit
  have hno : (Registration.done i) ∉ (objs i).map (.object i) := by
    intro hmem
    obtain ⟨name, -, hname⟩ := List.mem_map.mp hmem
    cases hname
  have hlast : ofSender i q = [] := by
    rcases List.eq_nil_or_concat (ofSender i q) with hnil | ⟨q', r, hq⟩
    · exact hnil
    · rw [hq, List.concat_eq_append, ← List.cons_append, ← List.append_assoc] at hsplit
      have hbody := List.append_inj_left' hsplit rfl
      rw [← hbody] at hno
      exact absurd (List.mem_append_right _ List.mem_cons_self) hno
  rw [hlast] at hsplit
  have hbefore : ofSender i p = (objs i).map (.object i) := List.append_inj_left' hsplit rfl
  refine ⟨fun hdone => hno ?_, ?_, hlast⟩
  · rw [← hbefore]
    exact List.mem_filter.mpr ⟨mem_finalizers.mp hdone, by simp [sender]⟩
  · rw [← names_ofSender, hbefore, names_objects]

/-- Who has finalized has registered everything. -/
theorem Interleaves.finalized (h : Interleaves g objs (p ++ q)) (hi : i ∈ finalizers p) :
    names i p = objs i ∧ ofSender i q = [] := by
  obtain ⟨p₁, p₂, rfl⟩ := List.append_of_mem (mem_finalizers.mp hi)
  rw [List.append_assoc, List.cons_append] at h
  obtain ⟨-, hnames, hrest⟩ := h.done
  rw [ofSender_append, List.append_eq_nil_iff] at hrest
  have hnone : names i p₂ = [] := by
    rw [← names_ofSender, hrest.1]
    rfl
  refine ⟨?_, hrest.2⟩
  have hdone : names i (.done i :: p₂) = names i p₂ := rfl
  rw [names_append, hdone, hnone, List.append_nil, hnames]

/-- Everybody has finalized exactly at the end. -/
theorem Interleaves.all_finalized_iff (h : Interleaves g objs (p ++ q)) :
    (finalizers p).toFinset = g.members.toFinset ↔ q = [] := by
  constructor
  · intro hall
    by_contra hne
    obtain ⟨r, hr⟩ := List.exists_mem_of_ne_nil q hne
    have hmem : r.sender ∈ g.members := h.member r (List.mem_append_right p hr)
    have hdone : r.sender ∈ finalizers p := List.mem_toFinset.mp (hall ▸ List.mem_toFinset.mpr hmem)
    have hin : r ∈ ofSender r.sender q := List.mem_filter.mpr ⟨hr, by simp⟩
    rw [(h.finalized hdone).2] at hin
    cases hin
  · rintro rfl
    ext i
    rw [List.mem_toFinset, List.mem_toFinset, mem_finalizers]
    constructor
    · intro hi
      exact h.member (.done i) (by simpa using hi)
    · intro hi
      have hlast : Registration.done i ∈ ofSender i (p ++ []) := by
        rw [h.order i hi]
        simp [program]
      simpa using (List.mem_filter.mp hlast).1

end Prefix

/-! ## The broker -/

section Steps

variable {g : HelloGroup ι} {objs : ι → List String} {rs p q : List (Registration ι)} {b : Broker ι} {i : ι}

theorem Tallied.context (h : Tallied g p b) : b.ctxs[0]? = some { g.context with
    netSimObjCount := (names g.netSim p).length
    finalized := .ofList (finalizers p) } := by
  rw [h.broker]
  rfl

/-- A registration is handled by its handler. -/
theorem Tallied.step_frame (h : Tallied g p b) (r : Registration ι) :
    b.step r.frame.identity r.frame.context r.frame.request =
      match r with
      | .object i name => b.registerHandler i 0 name
      | .done i => b.onContext 0 (finalizeHandler · i) := by
  cases r <;> rw [h.broker] <;> rfl

/-- An object of the net sim is counted. -/
theorem Tallied.object_netSim (h : Tallied g p b) (name : String) :
    ∃ b', b.registerHandler g.netSim 0 name = .ok (b', [], []) ∧
      Tallied g (p ++ [Registration.object g.netSim name]) b' := by
  refine ⟨b.setContext 0 { g.context with
    netSimObjCount := (names g.netSim p).length + 1
    finalized := .ofList (finalizers p) }, ?_, ?_, fun x hx => ?_⟩
  · rw [registerHandler]
    simp only [context_ok.mpr h.context, bind, Except.bind]
    rw [if_pos (show some g.netSim = g.context.netSimID from rfl)]
  · rw [h.broker]
    simp [setContext, names, finalizers]
  · obtain ⟨j, hj, hne, hmem⟩ := h.registered x hx
    exact ⟨j, hj, hne, by simp [hmem]⟩

/-- The next object of a simulator that is not the net sim is new. -/
theorem Tallied.new_name (h : Tallied g p b) {name : String}
    (hl : Interleaves g objs (p ++ Registration.object i name :: q)) (hu : UniqueNames g objs) (hi : i ≠ g.netSim) : name ∉ b.objToID.dom := by
  have him : i ∈ g.members := hl.member (.object i name) (by simp)
  have hnames : names i p ++ name :: names i q = objs i := by
    have := hl.names_le him
    rwa [show names i (.object i name :: q) = name :: names i q by simp [names]] at this
  intro hd
  obtain ⟨j, hj, hjn, hmem⟩ := h.registered name hd
  by_cases hji : j = i
  · have hnd := hu.nodup i him
    rw [← hnames, List.nodup_append] at hnd
    exact hnd.2.2 name (hji ▸ hmem) name List.mem_cons_self rfl
  · have hin : name ∈ objs j := by
      rw [← hl.names_le hj]
      exact List.mem_append_left _ hmem
    have hin' : name ∈ objs i := by
      rw [← hnames]
      simp
    exact hu.disjoint i him j hj hi hjn (Ne.symm hji) name hin' hin

/-- It is registered under the simulator's logical identity. -/
theorem Tallied.object_other (h : Tallied g p b) {name : String}
    (hl : Interleaves g objs (p ++ Registration.object i name :: q)) (hu : UniqueNames g objs) (hi : i ≠ g.netSim) :
    ∃ b', b.registerHandler i 0 name = .ok (b', [], []) ∧ Tallied g (p ++ [Registration.object i name]) b' := by
  have him : i ∈ g.members := hl.member (.object i name) (by simp)
  have hnew := h.new_name hl hu hi
  obtain ⟨l, hlook⟩ := g.routable.logical_surj i (by
    rw [show g.context.contexts = OrdSet.ofList g.members from rfl, OrdSet.dom_ofList]
    exact List.mem_toFinset.mpr him)
  have hfound : ∃ e, g.context.logicalIDToRealID.entries.find? (fun e => decide (e.2 = i)) = some e := by
    rw [← Option.isSome_iff_exists, List.find?_isSome]
    exact ⟨(l, i), OrdMap.lookup_eq_some.mp hlook, by simp⟩
  obtain ⟨e, he⟩ := hfound
  refine ⟨{ b with objToID := b.objToID.insert name e.1 }, ?_, ?_, fun x hx => ?_⟩
  · have hnet : ¬ some i = g.context.netSimID := fun hin => hi (Option.some.inj hin)
    rw [registerHandler]
    simp only [context_ok.mpr h.context, bind, Except.bind]
    rw [if_neg hnet, if_neg (by rw [OrdMap.contains_iff]; exact hnew)]
    simp only [he]
  · rw [h.broker]
    simp [names, finalizers, hi]
  · rw [OrdMap.dom_insert, Finset.mem_insert] at hx
    rcases hx with rfl | hx
    · exact ⟨i, him, hi, by simp [names]⟩
    · obtain ⟨j, hj, hne, hmem⟩ := h.registered x hx
      exact ⟨j, hj, hne, by simp [hmem]⟩

/-- The finalized simulators once one more has finalized, counted against the group. -/
theorem Interleaves.finalized_count (hl : Interleaves g objs ((p ++ [Registration.done i]) ++ q)) :
    (finalizers (p ++ [Registration.done i])).toFinset.card ≤ g.members.toFinset.card ∧
      ((finalizers (p ++ [Registration.done i])).toFinset.card = g.members.toFinset.card ↔ q = []) := by
  have hsub : (finalizers (p ++ [Registration.done i])).toFinset ⊆ g.members.toFinset := by
    intro j hj
    rw [List.mem_toFinset, mem_finalizers] at hj
    exact List.mem_toFinset.mpr (hl.member _ (List.mem_append_left q hj))
  refine ⟨Finset.card_le_card hsub, ?_⟩
  rw [← hl.all_finalized_iff]
  exact ⟨fun h => Finset.eq_of_subset_of_card_le hsub h.ge, fun h => congrArg Finset.card h⟩

/-- When everybody has finalized, every object of the net sim has been counted. -/
theorem Interleaves.counted (hl : Interleaves g objs (p ++ [Registration.done i])) :
    names g.netSim p = objs g.netSim ∧
      OrdSet.ofList (finalizers (p ++ [Registration.done i])) = OrdSet.ofList g.members := by
  have hl : Interleaves g objs ((p ++ [Registration.done i]) ++ []) := by rwa [List.append_nil]
  have hall := hl.all_finalized_iff.mpr rfl
  have hnet : g.netSim ∈ finalizers (p ++ [Registration.done i]) :=
    List.mem_toFinset.mp (hall ▸ List.mem_toFinset.mpr g.netSim_mem)
  have hnames := (hl.finalized hnet).1
  rw [names_append, show names g.netSim [.done i] = [] from rfl, List.append_nil] at hnames
  refine ⟨hnames, OrdSet.ext_dom ?_⟩
  rw [OrdSet.dom_ofList, OrdSet.dom_ofList, hall]

/-- A FINALIZE_REGISTRATIONS is answered, to everybody, when it is the last request of all. -/
theorem Tallied.done (h : Tallied g p b) (hl : Interleaves g objs (p ++ Registration.done i :: q)) :
    ∃ b', b.onContext 0 (finalizeHandler · i) = .ok (b', if q = [] then counts g objs else [], []) ∧
      Tallied g (p ++ [Registration.done i]) b' := by
  have hl' : Interleaves g objs ((p ++ [Registration.done i]) ++ q) := by rwa [List.append_assoc]
  have hfin : finalizers (p ++ [Registration.done i]) = finalizers p ++ [i] := finalizers_append p _
  have hadd : (OrdSet.ofList (finalizers p)).add i = .ofList (finalizers (p ++ [Registration.done i])) := by
    rw [HelloGroup.ofList_snoc, hfin]
  have hsize : (OrdSet.ofList (finalizers (p ++ [Registration.done i]))).size =
      (finalizers (p ++ [Registration.done i])).toFinset.card := by
    rw [← OrdMap.card_dom, OrdSet.dom_ofList]
  have hworld : g.context.worldSizes = g.members.toFinset.card := (List.toFinset_card_of_nodup g.nodup).symm
  obtain ⟨hle, hwhole⟩ := hl'.finalized_count
  have hhandled : finalizeHandler { g.context with
        netSimObjCount := (names g.netSim p).length
        finalized := .ofList (finalizers p) } i =
      .ok ({ g.context with
        netSimObjCount := (names g.netSim p).length
        finalized := .ofList (finalizers (p ++ [Registration.done i])) }, if q = [] then counts g objs else []) := by
    simp only [finalizeHandler, hadd, hsize, hworld]
    rw [if_neg (Nat.not_lt.mpr hle)]
    by_cases hq : q = []
    · subst hq
      obtain ⟨hnames, hsame⟩ := hl.counted
      rw [if_pos (hwhole.mpr rfl), if_pos rfl, hnames, hsame]
      rfl
    · rw [if_neg (fun h => hq (hwhole.mp h)), if_neg hq]
  refine ⟨_, onContext_of_ok h.context hhandled, ?_, fun x hx => ?_⟩
  · rw [h.broker]
    simp [setContext, names]
  · obtain ⟨j, hj, hne, hmem⟩ := h.registered x hx
    exact ⟨j, hj, hne, by simp [hmem]⟩

/-- One request of an interleaving. -/
theorem Tallied.step {r : Registration ι} (h : Tallied g p b) (hl : Interleaves g objs (p ++ r :: q))
    (hu : UniqueNames g objs) :
    ∃ b', b.step r.frame.identity r.frame.context r.frame.request =
        .ok (b', if q = [] then counts g objs else [], []) ∧ Tallied g (p ++ [r]) b' := by
  rw [h.step_frame]
  cases r with
  | done i => exact h.done hl
  | object i name =>
    have hmore : q ≠ [] := by
      rintro rfl
      have hi : i ∈ g.members := hl.member (.object i name) (by simp)
      have hend := hl.order i hi
      rw [ofSender_append, show ofSender i [.object i name] = [.object i name] by simp [ofSender, sender],
        program] at hend
      have := List.append_inj_right' hend rfl
      cases List.singleton_inj.mp this
    rw [if_neg hmore]
    by_cases hi : i = g.netSim
    · subst hi
      exact h.object_netSim name
    · exact h.object_other hl hu hi

/-- Whatever the interleaving, the broker handles all requests, and its only answers are the counts at the end;
induction on the requests left. -/
theorem Tallied.handleAll (h : Tallied g p b) (hl : Interleaves g objs (p ++ q)) (hu : UniqueNames g objs)
    (hq : q ≠ []) : ∃ b', handleAll b (q.map frame) = .ok (b', counts g objs) := by
  induction q generalizing p b with
  | nil => exact absurd rfl hq
  | cons r q ih =>
    obtain ⟨b₁, hstep, h₁⟩ := h.step hl hu
    have hl₁ : Interleaves g objs ((p ++ [r]) ++ q) := by rwa [List.append_assoc]
    by_cases hq : q = []
    · subst hq
      rw [if_pos rfl] at hstep
      refine ⟨b₁, ?_⟩
      have := handleAll_cons hstep (show Broker.handleAll b₁ [] = .ok (b₁, []) from rfl)
      rwa [List.append_nil] at this
    · rw [if_neg hq] at hstep
      obtain ⟨b₂, hrest⟩ := ih h₁ hl₁ hq
      exact ⟨b₂, handleAll_cons hstep hrest⟩

end Steps

theorem Tallied.formed (g : HelloGroup ι) : Tallied g [] g.formed where
  broker := rfl
  registered := fun name hname => by cases hname

/-- Everybody is answered the number of the net sim's objects, once. -/
theorem handleAll_registrations {g : HelloGroup ι} {objs : ι → List String} {rs : List (Registration ι)}
    (hl : Interleaves g objs rs) (hu : UniqueNames g objs) :
    ∃ b, handleAll g.formed (rs.map frame) = .ok (b, counts g objs) := by
  refine (Tallied.formed g).handleAll hl hu ?_
  rintro rfl
  have := hl.order g.netSim g.netSim_mem
  simp [ofSender, program] at this

omit [LinearOrder ι] in
theorem sender_program {objs : ι → List String} {i : ι} {r : Registration ι} (h : r ∈ program objs i) :
    r.sender = i := by
  rcases List.mem_append.mp h with h | h
  · obtain ⟨name, -, rfl⟩ := List.mem_map.mp h
    rfl
  · rw [List.mem_singleton.mp h]
    rfl

theorem ofSender_program (objs : ι → List String) (i j : ι) :
    ofSender i (program objs j) = if j = i then program objs j else [] := by
  split
  · next h => exact List.filter_eq_self.mpr fun r hr => decide_eq_true ((sender_program hr).trans h)
  · next h => exact List.filter_eq_nil_iff.mpr fun r hr hi => h ((sender_program hr).symm.trans (of_decide_eq_true hi))

/-- One simulator after the other is an interleaving. -/
theorem interleaves_program (g : HelloGroup ι) (objs : ι → List String) :
    Interleaves g objs (g.members.flatMap (program objs)) where
  member r hr := by
    obtain ⟨i, hi, hr⟩ := List.mem_flatMap.mp hr
    rwa [sender_program hr]
  order i hi := by
    obtain ⟨l, r, hl⟩ := List.append_of_mem hi
    have hnd := g.nodup
    rw [hl, List.nodup_append] at hnd
    have hnone (l : List ι) (h : i ∉ l) : ofSender i (l.flatMap (program objs)) = [] := by
      rw [ofSender, List.filter_flatMap, List.flatMap_eq_nil_iff]
      intro j hj
      rw [← ofSender, ofSender_program, if_neg (show j ≠ i from fun h' => h (h' ▸ hj))]
    rw [hl, List.flatMap_append, List.flatMap_cons, ofSender_append, ofSender_append, ofSender_program, if_pos rfl,
      hnone l fun h => hnd.2.2 i h i List.mem_cons_self rfl, hnone r (List.nodup_cons.mp hnd.2.1).1]
    simp

end Fncs.Broker

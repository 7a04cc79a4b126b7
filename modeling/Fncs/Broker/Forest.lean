/-
A broker whose contexts work and fork at the same time: the members of every
context take part in its collectives, and one fork at a time is reported, in
any interleaving with the collectives of the other contexts and, once it is
there, of the child context.

A collective leaves the processes of its context as they are
(`collective_processes`), and a fork nobody waits in the context it is of, so
that the child context and the renamed one agree with what their members wait
for (`Agrees.renamed`, `Agrees.child`).
-/
import Fncs.Broker.Agreement
import Fncs.Broker.Isolation
import Fncs.Broker.Routing

namespace Fncs.Broker

open Pending

variable {ι : Type} [LinearOrder ι]

/-- A fork that has begun: the entries of its context when it did, and the reports still to come. -/
structure Underway (ι : Type) [LinearOrder ι] where
  fork : Fork ι
  entries : Context ι
  remaining : List (Frame ι)

/-- The broker, the processes behind its identities, and context by context the unanswered requests and what the
completed rounds of REDUCE_SEND_RECV were given. -/
structure Forest (ι : Type) [LinearOrder ι] where
  family : Family ι
  pending : ℕ → ι → Option (Request ι)
  sentSum : ℕ → ℕ
  recvSum : ℕ → ℕ
  underway : Option (Underway ι)

inductive Happening (ι : Type)
  /-- A member asks for a collective of its context. -/
  | ask (f : Frame ι)
  /-- The members of a context fork; nothing has reached the broker yet. -/
  | fork (F : Fork ι)
  /-- The next report of the fork reaches the broker. -/
  | report

namespace Forest

def start (g : HelloGroup ι) (b : Broker ι) : Forest ι where
  family := .start g b
  pending := fun _ _ => none
  sentSum := fun _ => 0
  recvSum := fun _ => 0
  underway := none

/-- Context `k` is being forked. -/
def forking (s : Forest ι) (k : ℕ) : Bool := s.underway.any fun u => u.fork.context == k

/-- What the members of context `k` wait for. -/
def session (s : Forest ι) (k : ℕ) (c : Context ι) : Session ι where
  broker := alone s.family.broker.worldSize c
  pending := s.pending k
  sentSum := s.sentSum k
  recvSum := s.recvSum k

/-- A collective that a member of a context may ask for while the members of the context do not fork. -/
def mayAsk (s : Forest ι) (f : Frame ι) : Bool :=
  match s.family.broker.ctxs[f.context.toNat]? with
  | none => false
  | some c => decide (0 ≤ f.context) && !s.forking f.context.toNat &&
      (c.netSimID.elim false fun netSim => collectivesOnly netSim (s.session f.context.toNat c) f.alone)

/-- Nobody in the context waits. -/
def idle (s : Forest ι) (k : ℕ) : Bool :=
  match s.family.broker.ctxs[k]? with
  | none => false
  | some c => (c.contexts.keys ++ c.asleep.keys).all fun i => (s.pending k i).isNone

/-- The broker has answered `f` with `out`. -/
def answered (s : Forest ι) (f : Frame ι) (b : Broker ι) (out : Replies ι) : Forest ι :=
  let k := f.context.toNat
  let p := post (s.pending k) f.identity f.request
  { s with
    family := { s.family with broker := b }
    pending := Function.update s.pending k (Session.answered p out)
    sentSum := Function.update s.sentSum k (s.sentSum k + Session.roundSent p out)
    recvSum := Function.update s.recvSum k (s.recvSum k + Session.roundRecv p out) }

/-- The processes of a fork that begins. -/
def begun (s : Forest ι) (F : Fork ι) (c : Context ι) : Forest ι :=
  { s with
    family := s.family.after F c s.family.broker
    underway := some ⟨F, c, F.reports⟩ }

/-- The broker has taken a report of `u`, and `rest` are still to come. -/
def reported (s : Forest ι) (u : Underway ι) (b : Broker ι) (rest : List (Frame ι)) : Forest ι :=
  { s with
    family := { s.family with broker := b }
    underway := if rest = [] then none else some { u with remaining := rest } }

def ask (s : Forest ι) (f : Frame ι) : Except Refusal (Forest ι) :=
  if s.mayAsk f then
    match s.family.broker.step f.identity f.context f.request with
    | .error e => .error (.stopped e)
    | .ok (b, out, _) => .ok (s.answered f b out)
  else .error .notAllowed

def fork (s : Forest ι) (F : Fork ι) : Except Refusal (Forest ι) :=
  if s.underway = none ∧ s.family.allowed F = true ∧ s.idle F.context = true then
    match s.family.broker.ctxs[F.context]? with
    | none => .error .notAllowed
    | some c => .ok (s.begun F c)
  else .error .notAllowed

def report (s : Forest ι) : Except Refusal (Forest ι) :=
  match s.underway with
  | none => .error .notAllowed
  | some u =>
    match u.remaining with
    | [] => .error .notAllowed
    | f :: rest =>
      match s.family.broker.step f.identity f.context f.request with
      | .error e => .error (.stopped e)
      | .ok (b, _, _) => .ok (s.reported u b rest)

def step (s : Forest ι) : Happening ι → Except Refusal (Forest ι)
  | .ask f => s.ask f
  | .fork F => s.fork F
  | .report => s.report

variable {s s' : Forest ι}

theorem ask_ok {f : Frame ι} : s.ask f = .ok s' ↔ s.mayAsk f = true ∧ ∃ b out pubs,
    s.family.broker.step f.identity f.context f.request = .ok (b, out, pubs) ∧ s' = s.answered f b out := by
  unfold ask
  split
  · next h =>
    cases s.family.broker.step f.identity f.context f.request with
    | error e => simp
    | ok x =>
      obtain ⟨b, out, pubs⟩ := x
      simp [h, eq_comm]
  · next h => simp [h]

theorem fork_ok {F : Fork ι} : s.fork F = .ok s' ↔ (s.underway = none ∧ s.family.allowed F = true ∧
    s.idle F.context = true) ∧ ∃ c, s.family.broker.ctxs[F.context]? = some c ∧ s' = s.begun F c := by
  unfold fork
  split
  · next h => cases s.family.broker.ctxs[F.context]? <;> simp [h, eq_comm]
  · next h => simp [h]

theorem report_ok : s.report = .ok s' ↔ ∃ u f rest b out pubs, s.underway = some u ∧ u.remaining = f :: rest ∧
    s.family.broker.step f.identity f.context f.request = .ok (b, out, pubs) ∧ s' = s.reported u b rest := by
  unfold report
  cases hu : s.underway with
  | none => simp
  | some u =>
    cases hr : u.remaining with
    | nil => simp [hr]
    | cons f rest =>
      cases hb : s.family.broker.step f.identity f.context f.request with
      | error e => simp [hr, hb]
      | ok x =>
        obtain ⟨b, out, pubs⟩ := x
        simp [hr, hb, eq_comm]

end Forest

/-! ## What a collective leaves alone -/

/-- The entries that tell which process is which, which of them is the net sim, how far a fork has come, and who
has finished. -/
def Context.processes (c : Context ι) : Bool × Option ι × OrdMap ℕ ι × OrdMap ι ι × Bool × OrdSet ι :=
  (c.validContexts, c.netSimID, c.logicalIDToRealID, c.reinitMap, c.childInitComplete, c.finished)

section Processes

variable {c c' : Context ι} {x : Context ι × Replies ι}

theorem barrierChecker_processes (h : barrierChecker c = .ok x) : x.1.processes = c.processes := by
  obtain ⟨rfl, -⟩ | ⟨-, -, rfl⟩ := barrierChecker_ok h <;> rfl

theorem reduceMinTimeChecker_processes (h : reduceMinTimeChecker c = .ok x) : x.1.processes = c.processes := by
  obtain ⟨rfl, -⟩ | ⟨-, _, -, rfl⟩ := reduceMinTimeChecker_ok h <;> rfl

theorem reduceMinTimeActionChecker_processes (h : reduceMinTimeActionChecker c = .ok x) :
    x.1.processes = c.processes := by
  obtain ⟨rfl, -⟩ | ⟨-, rfl⟩ := reduceMinTimeActionChecker_ok h <;> rfl

theorem reduceSendRecvChecker_processes (h : reduceSendRecvChecker c = .ok x) : x.1.processes = c.processes := by
  obtain ⟨rfl, -⟩ | ⟨-, -, rfl⟩ := reduceSendRecvChecker_ok h <;> rfl

theorem allGatherChecker_processes (h : allGatherChecker c = .ok x) : x.1.processes = c.processes := by
  obtain ⟨rfl, -⟩ | ⟨-, rfl⟩ := allGatherChecker_ok h <;> rfl

theorem sleepRecheck_processes (h : sleepRecheck c = .ok x) : x.1.processes = c.processes := by
  obtain ⟨-, rfl⟩ | ⟨-, c₁, _, c₂, _, c₃, _, h₁, h₂, h₃, rfl⟩ := sleepRecheck_ok h
  · rfl
  · have h₁ : c₁.processes = c.processes := barrierChecker_processes h₁
    have h₂ : c₂.processes = c₁.processes := reduceMinTimeChecker_processes h₂
    have h₃ : c₃.processes = c₂.processes := reduceSendRecvChecker_processes h₃
    exact h₃.trans (h₂.trans h₁)

theorem sleepHandler_processes {n : ℕ} {i : ι} (h : sleepHandler n c i = .ok x) : x.1.processes = c.processes := by
  obtain ⟨-, c₁, _, hr, hw⟩ := sleepHandler_ok h
  have h₁ : c₁.processes = (c.putToSleep i).processes := sleepRecheck_processes hr
  obtain ⟨-, ⟨-, rfl⟩ | ⟨-, -, rfl⟩⟩ := sleepWakeAll_ok hw <;> exact h₁

/-- A collective leaves the processes as they are, and publishes nothing. -/
theorem collective_processes {n : ℕ} {i : ι} {r : Request ι} {out : Replies ι} {pubs : List Publication}
    (hr : r.isCollective = true) (hv : c.validContexts = true)
    (h : (alone n c).step i 0 r = .ok (alone n c', out, pubs)) : c'.processes = c.processes ∧ pubs = [] := by
  have key {F : Context ι → Handled ι} (hF : ∀ x, F c = .ok x → x.1.processes = c.processes)
      (hx : (alone n c).onContext 0 F = .ok (alone n c', out, pubs)) : c'.processes = c.processes ∧ pubs = [] := by
    obtain ⟨d, d', out', hd, hf, he⟩ := onContext_ok.mp hx
    obtain rfl : c = d := Option.some.inj hd
    obtain ⟨hb, -, rfl⟩ := by simpa only [Prod.mk.injEq] using he
    obtain rfl : c' = d' := (List.cons.inj (congrArg Broker.ctxs hb)).1
    exact ⟨hF _ hf, rfl⟩
  unfold Broker.step at h
  split at h
  · cases h
  cases r with
  | barrier => exact key (fun x hx => (barrierChecker_processes (barrierHandler_ok hv hx).2).trans rfl) h
  | reduceMinTime t => exact key (fun x hx => (reduceMinTimeChecker_processes (reduceMinTimeHandler_ok hv hx).2).trans rfl) h
  | reduceMinTimeAction t a =>
    exact key (fun x hx => (reduceMinTimeActionChecker_processes (reduceMinTimeActionHandler_ok hv hx).2).trans rfl) h
  | reduceSendRecv sent recv =>
    exact key (fun x hx => (reduceSendRecvChecker_processes (reduceSendRecvHandler_ok hv hx).2).trans rfl) h
  | allGatherNextTime t => exact key (fun x hx => (allGatherChecker_processes (allGatherHandler_ok hv hx).2.2).trans rfl) h
  | sleep => exact key (fun x hx => sleepHandler_processes hx) h
  | _ => cases hr

end Processes

/-! ## Families with sleepers -/

/-- Everybody counted as a member, awake or not. -/
def Context.roused (c : Context ι) : Context ι := { c with contexts := c.contexts.union c.asleep, asleep := ∅ }

def roused (b : Broker ι) : Broker ι := { b with ctxs := b.ctxs.map Context.roused }

namespace Family

/-- The family with all sleepers among the members. -/
def roused (s : Family ι) : Family ι := { s with broker := s.broker.roused }

end Family

section Roused

variable {g : HelloGroup ι} {objs : List (ι × String)} {s : Family ι} {b : Broker ι} {k : ℕ} {c c' : Context ι}
  {F : Fork ι}

theorem Context.roused_of_awake (h : c.asleep = ∅) : c.roused = c := by
  have hu : c.contexts.union ∅ = c.contexts := OrdMap.ext_lookup fun i => by simp
  rw [Context.roused, h, hu, ← h]

theorem roused_context (h : b.ctxs[k]? = some c) : b.roused.ctxs[k]? = some c.roused := by
  simp [roused, h]

theorem roused_setContext : (b.setContext k c).roused = b.roused.setContext k c.roused := by
  simp [roused, setContext, List.map_set]

theorem roused_withChild {child : ι → ι} {d : Context ι} (h : d.asleep = ∅) :
    (b.withChild k c child d).roused = b.roused.withChild k c child d := by
  have hchild : (c.childOf b.worldSize k child).roused = c.childOf b.worldSize k child := Context.roused_of_awake rfl
  simp only [roused, withChild, List.map_append, List.map_set, List.map_cons, List.map_nil, Context.roused_of_awake h,
    hchild]

theorem Descends.congr {ancestor : ι → ι} {known : Finset ι} (h : Descends g ancestor known c)
    (hc : c'.contexts = c.contexts) (hp : c'.processes = c.processes) : Descends g ancestor known c' := by
  simp only [Context.processes, Prod.mk.injEq] at hp
  obtain ⟨hv, hn, hl, hr, hi, -⟩ := hp
  obtain ⟨h1, h2, h3, h4, h5, h6, h7, h8, h9⟩ := h.routable
  refine ⟨⟨hv ▸ h1, hi ▸ h2, hr ▸ h3, hc ▸ h4, hl ▸ h5, ?_, hl ▸ h7, ?_, ?_⟩, hc ▸ h.known, hl ▸ h.logical, hn ▸ h.netSim⟩
  · rw [hl, hc]
    exact h6
  · rw [hl, hc]
    exact h8
  · rw [hc, hn]
    exact h9

/-- One context changes, and not in its processes. -/
theorem FamilyInv.setContext (h : FamilyInv g objs s) (hd : Descends g s.ancestor s.known c) :
    FamilyInv g objs { s with broker := s.broker.setContext k c } := by
  refine ⟨h.worldSize, h.childIniMap, h.newConnections, h.newParents, h.newNetSimID, h.owner, fun d hdm => ?_⟩
  rcases List.mem_or_eq_of_mem_set hdm with hdm | rfl
  · exact h.descends d hdm
  · exact hd

/-- The identities a fork brings are apart from those there are. -/
theorem FamilyInv.begun (h : FamilyInv g objs s) (hfresh : ∀ i ∈ Family.newIdentities c F, i ∉ s.known) :
    FamilyInv g objs (s.after F c s.broker) := by
  refine ⟨h.worldSize, h.childIniMap, h.newConnections, h.newParents, h.newNetSimID, h.owner, fun d hd => ?_⟩
  obtain ⟨hr, hk, hl, hn⟩ := h.descends d hd
  have hanc : ∀ i ∈ d.contexts.dom, (s.after F c s.broker).ancestor i = s.ancestor i := by
    intro i hi
    simp [Family.after, Family.origin_known hfresh (hk hi)]
  refine ⟨hr, hk.trans Finset.subset_union_left, fun l i hli => ?_, fun i hi => ?_⟩
  · rw [hanc i (hr.logical_mem l i hli)]
    exact hl l i hli
  · obtain ⟨net, hnet, hid⟩ := hr.netSim
    rw [hi, Option.some.injEq] at hid
    rw [hanc i (hid ▸ hnet)]
    exact hn i hi

/-- What is known of the processes of a fork from its beginning. -/
structure Branching (s : Family ι) (F : Fork ι) (c : Context ι) : Prop where
  nodup : (Family.newIdentities c F).Nodup
  known : ∀ i ∈ Family.newIdentities c F, i ∈ s.known
  child : ∀ i ∈ c.contexts.keys, s.ancestor (F.child i) = s.ancestor i
  parent : ∀ i ∈ c.contexts.keys, s.ancestor (F.parent i) = s.ancestor i

theorem Branching.begun {b : Broker ι} (hnd : (Family.newIdentities c F).Nodup)
    (hfresh : ∀ i ∈ Family.newIdentities c F, i ∉ s.known) (hk : c.contexts.dom ⊆ s.known) :
    Branching (s.after F c b) F c where
  nodup := hnd
  known i hi := Finset.mem_union_right _ (List.mem_toFinset.mpr hi)
  child i hi := by
    have hi' : i ∈ s.known := hk (List.mem_toFinset.mpr hi)
    simp [Family.after, Family.origin_child hnd hi, Family.origin_known hfresh hi']
  parent i hi := by
    have hi' : i ∈ s.known := hk (List.mem_toFinset.mpr hi)
    simp [Family.after, Family.origin_parent hnd hi, Family.origin_known hfresh hi']

/-- The broker with the fork over. -/
theorem FamilyInv.branched (h : FamilyInv g objs s) (hc : s.broker.ctxs[F.context]? = some c) (hb : Branching s F c) :
    FamilyInv g objs { s with broker := s.broker.withChild F.context c F.child (c.rename F.parent) } := by
  have hd := h.descends c (List.mem_of_getElem? hc)
  obtain ⟨hci, hpi, -⟩ := Family.newIdentities_nodup hb.nodup
  refine ⟨h.worldSize, h.childIniMap, h.newConnections, h.newParents, h.newNetSimID, h.owner, fun d hdm => ?_⟩
  have hdm : d ∈ s.broker.ctxs ∨ d = c.rename F.parent ∨ d = c.childOf s.broker.worldSize F.context F.child := by
    rcases List.mem_append.mp hdm with hdm | hdm
    · rcases List.mem_or_eq_of_mem_set hdm with hdm | rfl
      · exact .inl hdm
      · exact .inr (.inl rfl)
    · exact .inr (.inr (List.mem_singleton.mp hdm))
  rcases hdm with hdm | rfl | rfl
  · exact h.descends d hdm
  · refine hd.renamed (hd.routable.renamed hpi hd.routable.valid hd.routable.idle hd.routable.reinit rfl rfl rfl)
      rfl rfl rfl (fun i hi => hb.known _ ?_) hb.parent
    exact List.mem_append_right _ (List.mem_map_of_mem hi)
  · refine hd.renamed (hd.routable.renamed hci rfl rfl rfl rfl rfl rfl) rfl rfl rfl (fun i hi => hb.known _ ?_) hb.child
    exact List.mem_append_left _ (List.mem_map_of_mem hi)

end Roused

/-! ## Groups of forked contexts -/

section Groups

variable {g : HelloGroup ι} {p : ι → Option (Request ι)} {sent recv n k : ℕ} {c : Context ι} {f : ι → ι}

/-- The group of the renamed members. -/
def HelloGroup.renamed (c : Context ι) (f : ι → ι) (net : ι) (hf : Set.InjOn f c.contexts.dom)
    (hnet : net ∈ c.contexts.dom) : HelloGroup ι where
  members := c.contexts.keys.map f
  nodup := c.contexts.nodup_keys.map_on fun _ hi _ hj => hf (List.mem_toFinset.mpr hi) (List.mem_toFinset.mpr hj)
  netSim := f net
  netSim_mem := List.mem_map_of_mem (List.mem_toFinset.mp hnet)

theorem Agrees.awake_of_idle (h : Agrees g p sent recv c) (hidle : ∀ i ∈ g.members, p i = none) : c.asleep = ∅ := by
  refine OrdMap.eq_empty_of_dom (Finset.eq_empty_of_forall_notMem fun i hi => ?_)
  obtain ⟨r, u, hr, -⟩ := h.tables.asleep.mem_dom.mp hi
  cases hr.symm.trans (hidle i (h.proper.members i r hr))

theorem HelloGroup.renamed_size {net : ι} (hf : Set.InjOn f c.contexts.dom) (hnet : net ∈ c.contexts.dom) :
    (HelloGroup.renamed c f net hf hnet).size = c.contexts.size := by
  simp [HelloGroup.size, HelloGroup.renamed, OrdMap.keys, OrdMap.size]

/-- A context whose members are the renamed ones, all awake. -/
theorem Roster.renamed {c' : Context ι} {net : ι} (hf : Set.InjOn f c.contexts.dom) (hnet : net ∈ c.contexts.dom)
    (hv : c'.validContexts = true) (hid : c'.netSimID = some (f net))
    (hc : c'.contexts = .ofList (c.contexts.keys.map f)) (ha : c'.asleep = ∅) (hw : c'.worldSizes = c.contexts.size) :
    Roster (.renamed c f net hf hnet) c' where
  valid := hv
  netSimID := hid
  union := by simp [hc, ha, HelloGroup.renamed]
  disjoint := by simp [ha]
  worldSizes := by
    have hnd : (c.contexts.keys.map f).Nodup := (HelloGroup.renamed c f net hf hnet).nodup
    rw [hw, hc, HelloGroup.size_ofList hnd]
    simp [OrdMap.keys, OrdMap.size]
  netSim_awake := by
    rw [hc, OrdSet.dom_ofList]
    exact List.mem_toFinset.mpr (HelloGroup.renamed c f net hf hnet).netSim_mem

theorem Proper.idle (hidle : ∀ i, p i = none) : Proper g p where
  members i _ hr := nomatch (hidle i).symm.trans hr
  fits i _ hr := nomatch (hidle i).symm.trans hr
  netSim _ hr := nomatch (hidle _).symm.trans hr

theorem Agrees.size_eq (h : Agrees g p sent recv c) (hasleep : c.asleep = ∅) : c.contexts.size = g.size := by
  have hdom : c.contexts.dom = g.members.toFinset := by simpa [hasleep] using h.roster.union
  rw [← OrdMap.card_dom, hdom, List.toFinset_card_of_nodup g.nodup, HelloGroup.size]

/-- The renamed members wait for nothing, in the same tables. -/
theorem Agrees.renamed (h : Agrees g p sent recv c) (hidle : ∀ i, p i = none) (hf : Set.InjOn f c.contexts.dom) :
    ∃ g' : HelloGroup ι, g'.size = g.size ∧ Agrees g' p sent recv (c.rename f) := by
  have hasleep := h.awake_of_idle fun i _ => hidle i
  have hnet := h.roster.netSim_awake
  obtain ⟨h1, h2, h3, h4, h5, h6, h7⟩ := h.tables
  refine ⟨.renamed c f g.netSim hf hnet, (HelloGroup.renamed_size hf hnet).trans (h.size_eq hasleep),
    ⟨.renamed hf hnet h.roster.valid ?_ rfl hasleep h.roster.worldSizes, ⟨h1, h2, h3, h4, h5, h6, h7⟩, .idle hidle,
      h.sentTotal, h.recvTotal⟩⟩
  simp [Context.rename, h.roster.netSimID]

/-- Nobody waits in the child context. -/
theorem Agrees.child (h : Agrees g p sent recv c) (hasleep : c.asleep = ∅) (hf : Set.InjOn f c.contexts.dom) :
    ∃ g' : HelloGroup ι, g'.size = g.size ∧ Agrees g' (fun _ => none) 0 0 (c.childOf g.size k f) := by
  have hnet := h.roster.netSim_awake
  have hsize := h.size_eq hasleep
  refine ⟨.renamed c f g.netSim hf hnet, (HelloGroup.renamed_size hf hnet).trans hsize,
    ⟨.renamed hf hnet rfl ?_ rfl rfl hsize.symm, ⟨.empty, .empty, .empty, .empty, .empty, .empty, .empty⟩,
      .idle fun _ => rfl, rfl, rfl⟩⟩
  simp [Context.childOf, Context.fresh, h.roster.netSimID]

end Groups

end Fncs.Broker

/-
Which requests make the broker index its tables of contexts in range
(`main`, `fncsbroker.cpp`). The guard of the main loop lets any number that is
not negative pass as long as there is no context, for the HELLOs of the first
group. Parents are numbers that come in a later frame and are not looked at.
-/
import Fncs.Broker.Cases

namespace Fncs.Broker

/-- What the main loop takes from its two sockets. -/
inductive Arrival (ι : Type)
  | request (identity : ι) (context : ℤ) (r : Request ι)
  | ignore (context : ℤ)
  | route (context : ℤ) (dest : String)
  | delay (context : ℤ)
  /-- A control word that none of the branches of its socket knows. -/
  | unrecognized (context : ℤ)

/-- Where `main` is. -/
inductive Main (ι : Type) [LinearOrder ι]
  | running (b : Broker ι)
  /-- Out of its loop: every simulator has finished. -/
  | left
  | stopped (why : Stop)

/-- The last FINISHED is the one that publishes nothing. -/
def Request.isLast {ι : Type} (pubs : List Publication) : Request ι → Bool
  | .finished => pubs.isEmpty
  | _ => false

variable {ι : Type} [LinearOrder ι]

/-- The guard of both sockets. -/
def Accepts (b : Broker ι) (context : ℤ) : Prop :=
  ¬ (context < 0 ∨ (b.ctxs.length ≤ context.toNat ∧ b.ctxs ≠ []))

instance (b : Broker ι) (context : ℤ) : Decidable (b.Accepts context) := by
  unfold Accepts
  infer_instance

/-- One turn of the main loop; `none` when it is left. -/
def turn (b : Broker ι) : Arrival ι → Except Stop (Option (Broker ι))
  | .request identity context r => do
    let (b', _, pubs) ← b.step identity context r
    .ok (if r.isLast pubs then none else some b')
  | .ignore context => if b.Accepts context then .ok (some b) else death .invalidContext
  | .route context dest =>
    if b.Accepts context then do
      let _ ← b.routeHandler context.toNat dest
      .ok (some b)
    else death .invalidContext
  | .delay context =>
    if b.Accepts context then do
      let _ ← b.delayHandler context.toNat
      .ok (some b)
    else death .invalidContext
  | .unrecognized context => if b.Accepts context then death .unrecognizedControl else death .invalidContext

/-- A `main` that has stopped or left takes nothing more. -/
def Main.step : Main ι → Arrival ι → Except Unit (Main ι)
  | .running b, a =>
    match b.turn a with
    | .error why => .ok (.stopped why)
    | .ok none => .ok .left
    | .ok (some b') => .ok (.running b')
  | _, _ => .error ()

/-- No table of contexts has been indexed past its end. -/
def Main.InRange (s : Main ι) : Prop := s ≠ .stopped .outOfRange

/-- The HELLO is the last one of a group without parents. -/
def CompletesRoot (b : Broker ι) (identity : ι) (parent : ℤ) (netSim : Bool) : Prop :=
  ¬ (netSim = true ∧ b.newNetSimID.isSome = true) ∧ (b.newConnections.add identity).size = b.worldSize ∧
    (b.newParents.add parent).size = 1 ∧ (b.newParents.add parent).keys.head? = some (-1)

/-- The CHILD_INIT is the last one of its group. -/
def CompletesChildren (b : Broker ι) (identity oldId : ι) : Prop :=
  ¬ b.childIniMap.size > b.worldSize ∧ b.childIniMap.contains oldId = false ∧
    (b.childIniMap.insert oldId identity).size = b.worldSize

/-- The CHILD_SUCCESS is the last one its context waits for. -/
def Context.CompletesSuccess (c : Context ι) (identity : ι) : Prop :=
  c.succed.contains identity = false ∧ c.validContexts = true ∧
    (c.succed.add identity).size = c.worldSizes ∧ c.worldSizes > 1

/-- A number that names a context. -/
def Names (b : Broker ι) (p : ℤ) : Prop := 0 ≤ p ∧ p.toNat < b.ctxs.length

/-- No request that looks into a context comes before there is one, the HELLO that completes the
first group names context 0, and a parent that is looked at is a context. -/
def Request.Indexed (b : Broker ι) (identity : ι) (context : ℤ) : Request ι → Prop
  | .hello parent => b.ctxs = [] → b.CompletesRoot identity parent false → context = 0
  | .helloNetSim parent => b.ctxs = [] → b.CompletesRoot identity parent true → context = 0
  | .childFailed | .die => True
  | .childInit parent oldId | .childInitNetSim parent oldId => b.CompletesChildren identity oldId → b.Names parent
  | .childSuccess => b.ctxs ≠ [] ∧ ∀ c, b.ctxs[context.toNat]? = some c → c.CompletesSuccess identity →
      ∀ p ∈ c.parentContexts.keys, b.Names p
  | _ => b.ctxs ≠ []

def Arrival.Indexed (b : Broker ι) : Arrival ι → Prop
  | .request identity context r => b.Accepts context → r.Indexed b identity context
  | .route context dest => b.Accepts context → (b.objToID.lookup dest).isSome = true → b.ctxs ≠ []
  | .delay context => b.Accepts context → b.ctxs ≠ []
  | .ignore _ | .unrecognized _ => True

def Indexed : Main ι → Arrival ι → Prop
  | .running b, a => a.Indexed b
  | _, _ => True

/-! ## Outcomes other than an index out of range -/

section InContext

variable {α β : Type} {c : Context ι}

def InContext (x : Except Stop α) : Prop := x ≠ .error .outOfRange

@[simp] theorem inContext_ok (a : α) : InContext (.ok a) := nofun

@[simp] theorem inContext_death (why : Death) : InContext (death why : Except Stop α) := nofun

@[simp] theorem inContext_assertion : InContext (.error .assertion : Except Stop α) := nofun

@[simp] theorem inContext_noElement : InContext (.error .noElement : Except Stop α) := nofun

@[simp] theorem not_inContext : ¬ InContext (.error .outOfRange : Except Stop α) := fun h => h rfl

theorem inContext_bind {x : Except Stop α} {f : α → Except Stop β} :
    InContext (x >>= f) ↔ InContext x ∧ ∀ a, x = .ok a → InContext (f a) := by
  cases x with
  | ok a => exact ⟨fun h => ⟨inContext_ok a, fun b hb => Except.ok.inj hb ▸ h⟩, fun h => h.2 a rfl⟩
  | error e => exact ⟨fun h => ⟨fun he => h (congrArg _ (Except.error.inj he)), nofun⟩,
      fun h he => h.1 (congrArg _ (Except.error.inj he))⟩

theorem checkSize_inContext {k : Collective} {size need : ℕ} {release : Handled ι} (h : InContext release) :
    InContext (checkSize k size need c release) := by
  unfold checkSize
  split_ifs
  · exact inContext_death _
  · exact h
  · exact inContext_ok _

theorem joinCollective_inContext {k : Collective} {waiting : Bool} {post : Context ι}
    {checker : Context ι → Handled ι} (h : ∀ c, InContext (checker c)) :
    InContext (joinCollective k waiting c post checker) := by
  unfold joinCollective
  split_ifs
  · exact inContext_death _
  · exact inContext_ok _
  · exact h _

theorem barrierChecker_inContext (c : Context ι) : InContext (barrierChecker c) := by
  refine checkSize_inContext ?_
  split_ifs <;> exact inContext_ok _

theorem reduceMinTimeChecker_inContext (c : Context ι) : InContext (reduceMinTimeChecker c) := by
  refine checkSize_inContext ?_
  split
  · exact inContext_noElement
  · exact inContext_ok _

theorem reduceSendRecvChecker_inContext (c : Context ι) : InContext (reduceSendRecvChecker c) := by
  refine checkSize_inContext ?_
  dsimp only
  split_ifs <;> simp

theorem allGatherChecker_inContext (c : Context ι) : InContext (allGatherChecker c) := by
  unfold allGatherChecker
  split_ifs <;> simp

theorem reduceMinTimeSleepChecker_inContext (n : ℕ) (c : Context ι) : InContext (reduceMinTimeSleepChecker n c) := by
  refine checkSize_inContext ?_
  dsimp only [reduceMinTimeSleepWakeAll, reduceMinTimeSleepAdvance]
  split
  · exact inContext_noElement
  · split_ifs
    · split <;> simp
    all_goals simp

theorem sleepRecheck_inContext (c : Context ι) : InContext (sleepRecheck c) := by
  unfold sleepRecheck
  split_ifs
  · split
    · next he => exact fun h => barrierChecker_inContext c (he.trans h)
    · split
      · next he => exact fun h => reduceMinTimeChecker_inContext _ (he.trans h)
      · split
        · next he => exact fun h => reduceSendRecvChecker_inContext _ (he.trans h)
        · exact inContext_ok _
  · exact inContext_ok _

theorem sleepHandler_inContext (n : ℕ) (c : Context ι) (identity : ι) : InContext (sleepHandler n c identity) := by
  unfold sleepHandler sleepWakeAll
  split_ifs
  · exact inContext_death _
  · split
    · next he => exact fun h => sleepRecheck_inContext _ (he.trans h)
    · split_ifs <;> simp

theorem allGatherHandler_inContext (c : Context ι) (identity : ι) (t : TIME) :
    InContext (allGatherHandler c identity t) := by
  unfold allGatherHandler
  split_ifs
  · exact inContext_death _
  · exact inContext_death _
  · exact inContext_ok _
  · exact allGatherChecker_inContext _

theorem reduceSendRecvHandler_inContext (c : Context ι) (identity : ι) (sent recv : ℕ) :
    InContext (reduceSendRecvHandler c identity sent recv) := by
  unfold reduceSendRecvHandler
  split_ifs
  · exact inContext_death _
  · exact inContext_assertion
  · exact inContext_ok _
  · exact reduceSendRecvChecker_inContext _

theorem finalizeHandler_inContext (c : Context ι) (identity : ι) : InContext (finalizeHandler c identity) := by
  unfold finalizeHandler
  dsimp only
  split_ifs <;> simp

theorem remap_inContext (pairs : OrdMap ι ι) (why : Death) (logical : OrdMap ℕ ι) :
    InContext (remap pairs why logical) := by
  unfold remap
  generalize List.range logical.size = ids
  induction ids generalizing logical with
  | nil => exact inContext_ok _
  | cons i ids ih =>
    rw [List.foldlM_cons, inContext_bind]
    refine ⟨?_, fun logical' _ => ih logical'⟩
    unfold remapOne
    split <;> simp

end InContext

/-! ## Handlers of the whole broker -/

section Handlers

variable {b : Broker ι} {k : ℕ} {identity : ι}

theorem inContext_context : InContext (b.context k) ↔ k < b.ctxs.length := by
  unfold context
  cases h : b.ctxs[k]? with
  | none =>
    have hle := List.getElem?_eq_none_iff.mp h
    exact iff_of_false not_inContext (by omega)
  | some c => exact iff_of_true (inContext_ok c) (List.getElem?_eq_some_iff.mp h).1

/-- The rest of a handler that reads its context first. -/
theorem inContext_context_bind {β : Type} {f : Context ι → Except Stop β} :
    InContext (b.context k >>= f) ↔ k < b.ctxs.length ∧ ∀ c, b.ctxs[k]? = some c → InContext (f c) := by
  rw [inContext_bind, inContext_context]
  simp only [context_ok]

theorem onContext_inContext {f : Context ι → Handled ι} (hf : ∀ c, InContext (f c)) :
    InContext (b.onContext k f) ↔ k < b.ctxs.length := by
  rw [onContext, inContext_context_bind]
  refine and_iff_left fun c _ => ?_
  rw [inContext_bind]
  exact ⟨hf c, fun _ _ => inContext_ok _⟩

theorem parentReinitChecker_inContext : InContext (b.parentReinitChecker k) ↔ k < b.ctxs.length := by
  rw [parentReinitChecker, inContext_context_bind]
  refine and_iff_left fun c _ => ?_
  split_ifs
  · exact inContext_ok _
  · exact inContext_ok _
  · split
    · exact inContext_death _
    · rw [inContext_bind]
      exact ⟨remap_inContext _ _ _, fun _ _ => inContext_ok _⟩

theorem parentReinitHandler_inContext (oldId : ι) :
    InContext (b.parentReinitHandler identity k oldId) ↔ k < b.ctxs.length := by
  rw [parentReinitHandler, inContext_context_bind]
  constructor
  · exact And.left
  · intro hk
    refine ⟨hk, fun c _ => ?_⟩
    split_ifs
    · exact inContext_death _
    · exact inContext_death _
    · rw [parentReinitChecker_inContext]
      simpa using hk

theorem registerHandler_inContext (name : String) :
    InContext (b.registerHandler identity k name) ↔ k < b.ctxs.length := by
  rw [registerHandler, inContext_context_bind]
  refine and_iff_left fun c _ => ?_
  split_ifs
  · exact inContext_ok _
  · exact inContext_death _
  · split <;> simp

theorem reduceFailTimeHandler_inContext (t : TIME) :
    InContext (b.reduceFailTimeHandler identity k t) ↔ k < b.ctxs.length := by
  rw [reduceFailTimeHandler, inContext_context_bind]
  refine and_iff_left fun c _ => ?_
  unfold reduceFailTimeChecker
  split_ifs
  · exact inContext_death _
  · exact inContext_ok _
  · exact inContext_death _
  · split <;> simp
  · exact inContext_ok _

theorem finishedHandler_inContext : InContext (b.finishedHandler identity k) ↔ k < b.ctxs.length := by
  rw [finishedHandler, inContext_context_bind]
  refine and_iff_left fun c _ => ?_
  dsimp only
  split_ifs <;> simp

/-- The members of a group without parents are numbered in the context their last HELLO names. -/
theorem helloComplete_inContext : InContext (b.helloComplete k) ↔
    (b.newParents.size = 1 ∧ b.newParents.keys.head? = some (-1) → k < b.ctxs.length + 1) := by
  unfold helloComplete
  dsimp only
  split_ifs with hparents hroot
  · exact iff_of_true inContext_assertion fun h => absurd h.1 hparents
  · have hlen : b.addContext.ctxs.length = b.ctxs.length + 1 := List.length_append
    rw [inContext_context_bind, and_iff_left fun _ _ => inContext_ok _, hlen,
      forall_prop_of_true ⟨not_not.mp hparents, hroot⟩]
  · exact iff_of_true (inContext_ok _) fun h => absurd h.2 hroot

theorem helloHandler_inContext (parent : ℤ) (netSim : Bool) :
    InContext (b.helloHandler identity k parent netSim) ↔
      (b.CompletesRoot identity parent netSim → k < b.ctxs.length + 1) := by
  unfold helloHandler CompletesRoot
  dsimp only
  split_ifs with hnet hmany hsize
  · exact iff_of_true (inContext_death _) fun h => absurd hnet h.1
  · exact iff_of_true (inContext_death _) fun h => absurd h.2.1 hmany.ne'
  · rw [helloComplete_inContext]
    exact ⟨fun h hc => h hc.2.2, fun h hp => h ⟨hnet, hsize, hp⟩⟩
  · exact iff_of_true (inContext_ok _) fun h => absurd h.2.1 hsize

/-- The parent a CHILD_INIT names is looked up once its group is complete. -/
theorem childInitChecker_inContext (parent : ℤ) :
    InContext (b.childInitChecker parent) ↔ (b.childIniMap.size = b.worldSize → b.Names parent) := by
  unfold childInitChecker Names
  split_ifs with hsize hneg
  · exact iff_of_true (inContext_ok _) fun h => absurd h hsize
  · refine iff_of_false not_inContext fun h => ?_
    have := (h (not_not.mp hsize)).1
    omega
  · rw [inContext_context_bind, forall_prop_of_true (not_not.mp hsize)]
    refine ⟨fun h => ⟨by omega, h.1⟩, fun h => ⟨h.2, fun c _ => ?_⟩⟩
    dsimp only
    split_ifs
    · exact inContext_assertion
    · rw [inContext_bind]
      refine ⟨remap_inContext _ _ _, fun logical _ => ?_⟩
      rw [inContext_bind, parentReinitChecker_inContext]
      refine ⟨?_, fun _ _ => inContext_ok _⟩
      simp only [setContext_ctxs, addChild, List.length_set, List.length_append]
      omega

theorem childInitHandler_inContext (parent : ℤ) (oldId : ι) (netSim : Bool) :
    InContext (b.childInitHandler identity parent oldId netSim) ↔
      (b.CompletesChildren identity oldId → b.Names parent) := by
  unfold CompletesChildren childInitHandler
  by_cases hmany : b.childIniMap.size > b.worldSize
  · rw [if_pos hmany]
    exact iff_of_true (inContext_death _) fun h => absurd hmany h.1
  by_cases hdup : b.childIniMap.contains oldId = true
  · rw [if_neg hmany, if_pos hdup]
    exact iff_of_true (inContext_death _) fun h => absurd (hdup.symm.trans h.2.1) nofun
  rw [if_neg hmany, if_neg hdup, childInitChecker_inContext]
  exact ⟨fun h hc => h hc.2.2, fun h hsize => h ⟨hmany, Bool.eq_false_iff.mpr hdup, hsize⟩⟩

/-- The parents of a context are marked once its last CHILD_SUCCESS has come. -/
theorem succeedHandler_inContext : InContext (b.succeedHandler identity k) ↔
    k < b.ctxs.length ∧ ∀ c, b.ctxs[k]? = some c → c.CompletesSuccess identity →
      ∀ p ∈ c.parentContexts.keys, b.Names p := by
  rw [succeedHandler, inContext_context_bind]
  refine and_congr_right fun _ => forall₂_congr fun c _ => ?_
  unfold succeedChecker Context.CompletesSuccess Names
  dsimp only
  split_ifs with hdup hvalid hmany hsize
  · exact iff_of_true (inContext_death _) fun h => absurd (hdup.symm.trans h.1) nofun
  · exact iff_of_true (inContext_ok _) fun h => absurd (hvalid.symm.trans h.2.1) nofun
  · exact iff_of_true (inContext_death _) fun h => absurd h.2.2.1 hmany.ne'
  · have hdone : c.succed.contains identity = false ∧ c.validContexts = true ∧
        (c.succed.add identity).size = c.worldSizes ∧ c.worldSizes > 1 :=
      ⟨Bool.eq_false_iff.mpr hdup, by simpa using hvalid, hsize⟩
    rw [forall_prop_of_true hdone]
    cases hkeys : c.parentContexts.keys with
    | nil => exact iff_of_true inContext_noElement (by simp)
    | cons p ps =>
      dsimp only
      split_ifs with hall
      · refine iff_of_true (inContext_ok _) fun q hq => ?_
        simpa using List.all_eq_true.mp hall q hq
      · refine iff_of_false not_inContext fun hnames => hall (List.all_eq_true.mpr fun q hq => ?_)
        simpa using hnames q hq
  · exact iff_of_true (inContext_ok _) fun h => absurd h.2.2 hsize

end Handlers

/-! ## The main loop -/

section Main

variable {b : Broker ι} {context : ℤ}

theorem Accepts.nonneg (h : b.Accepts context) : 0 ≤ context := not_lt.mp fun hneg => h (.inl hneg)

/-- An accepted number is in range as soon as there is a context. -/
theorem Accepts.lt_length_iff (h : b.Accepts context) : context.toNat < b.ctxs.length ↔ b.ctxs ≠ [] := by
  constructor
  · intro hlt hnil
    rw [hnil] at hlt
    cases hlt
  · intro hne
    exact not_le.mp fun hle => h (.inr ⟨hle, hne⟩)

/-- Once the new context is there, an accepted number is in range, unless it came before the first and was not 0. -/
theorem Accepts.lt_succ_iff (h : b.Accepts context) :
    context.toNat < b.ctxs.length + 1 ↔ (b.ctxs = [] → context = 0) := by
  have hpos := h.nonneg
  by_cases hnil : b.ctxs = []
  · rw [hnil, forall_prop_of_true rfl, List.length_nil]
    omega
  · have hlt := h.lt_length_iff.mpr hnil
    exact iff_of_true (by omega) fun h => absurd h hnil

theorem Accepts.hello_iff (h : b.Accepts context) {identity : ι} (parent : ℤ) (netSim : Bool) :
    InContext (b.helloHandler identity context.toNat parent netSim) ↔
      (b.ctxs = [] → b.CompletesRoot identity parent netSim → context = 0) := by
  rw [helloHandler_inContext, h.lt_succ_iff]
  exact ⟨fun hc hnil hroot => hc hroot hnil, fun hc hroot hnil => hc hnil hroot⟩

/-- A request is handled in range exactly when its indices are those of contexts. -/
theorem step_inContext (identity : ι) (r : Request ι) :
    InContext (b.step identity context r) ↔ (b.Accepts context → r.Indexed b identity context) := by
  unfold step
  by_cases ha : b.Accepts context
  · rw [if_neg ha, forall_prop_of_true ha]
    have hrange {f : Context ι → Handled ι} (hf : ∀ c, InContext (f c)) :
        InContext (b.onContext context.toNat f) ↔ b.ctxs ≠ [] :=
      (onContext_inContext hf).trans ha.lt_length_iff
    cases r with
    | hello parent => exact ha.hello_iff parent false
    | helloNetSim parent => exact ha.hello_iff parent true
    | reduceMinTime t => exact hrange fun c => joinCollective_inContext reduceMinTimeChecker_inContext
    | reduceMinTimeSleep t hadMessage =>
      exact hrange fun c => joinCollective_inContext (reduceMinTimeSleepChecker_inContext b.worldSize)
    | reduceMinTimeAction t action =>
      exact hrange fun c => joinCollective_inContext fun c => checkSize_inContext (inContext_ok _)
    | reduceFailTime t => exact (reduceFailTimeHandler_inContext t).trans ha.lt_length_iff
    | reduceSendRecv sent recv => exact hrange fun c => reduceSendRecvHandler_inContext c identity sent recv
    | allGatherNextTime t => exact hrange fun c => allGatherHandler_inContext c identity t
    | registerObject name => exact (registerHandler_inContext name).trans ha.lt_length_iff
    | finalizeRegistrations => exact hrange fun c => finalizeHandler_inContext c identity
    | barrier => exact hrange fun c => joinCollective_inContext barrierChecker_inContext
    | sleep => exact hrange fun c => sleepHandler_inContext b.worldSize c identity
    | childFailed => exact iff_of_true (inContext_ok _) trivial
    | die => exact iff_of_true (inContext_death _) trivial
    | finished => exact finishedHandler_inContext.trans ha.lt_length_iff
    | childSuccess => exact succeedHandler_inContext.trans (and_congr_left' ha.lt_length_iff)
    | parentReinit oldId => exact (parentReinitHandler_inContext oldId).trans ha.lt_length_iff
    | childInit parent oldId => exact childInitHandler_inContext parent oldId false
    | childInitNetSim parent oldId => exact childInitHandler_inContext parent oldId true
  · rw [if_pos (not_not.mp ha)]
    exact iff_of_true (inContext_death _) fun h => absurd h ha

theorem routeHandler_inContext (h : b.Accepts context) (dest : String) :
    InContext (b.routeHandler context.toNat dest) ↔ ((b.objToID.lookup dest).isSome = true → b.ctxs ≠ []) := by
  unfold routeHandler
  cases hl : b.objToID.lookup dest with
  | none => exact iff_of_true (inContext_death _) nofun
  | some owner =>
    dsimp only
    rw [inContext_context_bind, h.lt_length_iff, Option.isSome_some, forall_prop_of_true rfl]
    refine and_iff_left fun c _ => ?_
    split <;> simp

theorem turn_inContext (a : Arrival ι) : InContext (b.turn a) ↔ a.Indexed b := by
  have hlast {α : Type} {x : Except Stop α} {f : α → Option (Broker ι)} :
      InContext (x >>= fun a => .ok (f a)) ↔ InContext x := by
    rw [inContext_bind, and_iff_left fun _ _ => inContext_ok _]
  cases a with
  | request identity context r => exact hlast.trans (step_inContext identity r)
  | ignore context =>
    refine iff_of_true ?_ trivial
    dsimp only [turn]
    split_ifs <;> simp
  | unrecognized context =>
    refine iff_of_true ?_ trivial
    dsimp only [turn]
    split_ifs <;> simp
  | route context dest =>
    dsimp only [turn, Arrival.Indexed]
    split_ifs with ha
    · rw [hlast, routeHandler_inContext ha, forall_prop_of_true ha]
    · exact iff_of_true (inContext_death _) fun h => absurd h ha
  | delay context =>
    dsimp only [turn, Arrival.Indexed, delayHandler]
    split_ifs with ha
    · rw [hlast, inContext_context_bind, and_iff_left fun _ _ => inContext_ok _, ha.lt_length_iff,
        forall_prop_of_true ha]
    · exact iff_of_true (inContext_death _) fun h => absurd h ha

theorem Main.inRange_iff {s s' : Main ι} {a : Arrival ι} (hs : s.step a = .ok s') : s'.InRange ↔ Broker.Indexed s a := by
  cases s with
  | running b =>
    refine Iff.trans ?_ (turn_inContext a)
    dsimp only [Main.step] at hs
    split at hs
    · next why hturn =>
      obtain rfl := Except.ok.inj hs
      rw [hturn]
      exact not_congr ⟨fun h => congrArg _ (Main.stopped.inj h), fun h => congrArg _ (Except.error.inj h)⟩
    · next hturn =>
      obtain rfl := Except.ok.inj hs
      rw [hturn]
      exact iff_of_true nofun (inContext_ok _)
    · next hturn =>
      obtain rfl := Except.ok.inj hs
      rw [hturn]
      exact iff_of_true nofun (inContext_ok _)
  | left => cases hs
  | stopped why => cases hs

/-- The broker indexes its tables in range all along exactly when every arrival brings indices of contexts. -/
theorem inRange_iff_indexed (worldSize : ℕ) (arrivals : List (Arrival ι)) :
    Trace.Always Main.step Main.InRange (.running (init worldSize)) arrivals ↔
      Trace.Guarded Main.step Indexed (.running (init worldSize)) arrivals :=
  Trace.always_iff_guarded (J := fun _ => True) (fun _ _ _ _ _ => trivial) (fun _ _ _ _ _ hs => Main.inRange_iff hs)
    trivial nofun

end Main

/-- A barrier before the first group has formed reads past the end of an empty table. -/
theorem barrier_before_hello :
    Main.step (.running (init 2)) (.request 0 7 .barrier) = .ok (.stopped .outOfRange : Main ℕ) ∧
    ¬ ∀ (worldSize : ℕ) (arrivals : List (Arrival ℕ)),
      Trace.Always Main.step Main.InRange (.running (init worldSize)) arrivals := by
  refine ⟨rfl, fun hall => ?_⟩
  exact (hall 2 [.request 0 7 .barrier]).2 _ rfl rfl

end Fncs.Broker

/-
The contexts of one broker. A request that neither forms a context nor names an
object nor decides about another context is served out of the tables of its own
context, so that a broker with many contexts does what as many brokers with one
context each would do: how the requests of different contexts are interleaved
makes no difference to any of them, until one of them has finished. Then `main`
leaves its loop, and all contexts with it.
-/
import Fncs.Broker.Indices
import Fncs.Broker.Session

namespace Fncs.Broker

variable {ι : Type} [LinearOrder ι]

/-- Requests that concern their own context alone. The others form or fork a context, enter an object into the
one table of objects, invalidate the parents' contexts, or end the broker. -/
def Request.ownContext : Request ι → Bool
  | .hello _ | .helloNetSim _ | .registerObject _ | .die | .childSuccess | .childInit _ _
  | .childInitNetSim _ _ => false
  | _ => true

/-- A broker that holds `c` and nothing else. -/
def alone (worldSize : ℕ) (c : Context ι) : Broker ι := { init worldSize with ctxs := [c] }

/-- A broker and, context by context, the replies to each of its requests and what was published upon it. -/
structure Served (ι : Type) [LinearOrder ι] where
  broker : Broker ι
  answers : ℕ → List (Replies ι × List Publication)

namespace Served

/-- Why the broker serves no further. -/
inductive Over
  | stopped (why : Stop)
  /-- `main` has left its loop upon the last FINISHED of a context. -/
  | left
  deriving DecidableEq, Repr

/-- Nothing served yet. -/
def start (b : Broker ι) : Served ι := ⟨b, fun _ => []⟩

/-- What `main` does next, once the request `r` is handled. -/
def goOn (r : Request ι) : Result ι → Except Over (Broker ι × Replies ι × List Publication)
  | .error why => .error (.stopped why)
  | .ok x => if r.isLast x.2.2 then .error .left else .ok x

def step (s : Served ι) (f : Frame ι) : Except Over (Served ι) :=
  (goOn f.request (s.broker.step f.identity f.context f.request)).map fun x =>
    ⟨x.1, Function.update s.answers f.context.toNat (s.answers f.context.toNat ++ [x.2])⟩

/-- One context with the answers to its requests; a number without a context has none. -/
abbrev Part (ι : Type) [LinearOrder ι] := Option (Context ι) × List (Replies ι × List Publication)

def part (s : Served ι) (k : ℕ) : Part ι := (s.broker.ctxs[k]?, s.answers k)

/-- A request at a context of its own broker. -/
def move (worldSize : ℕ) (p : Part ι) (f : Frame ι) : Except Over (Part ι) :=
  match p.1 with
  | none => .error (.stopped .outOfRange)
  | some c => (goOn f.request ((alone worldSize c).step f.identity 0 f.request)).map fun x => (x.1.ctxs[0]?, p.2 ++ [x.2])

end Served

/-- The same request for a broker's only context. -/
def Frame.alone (f : Frame ι) : Frame ι := { f with context := 0 }

/-! ## One request -/

@[simp] theorem alone_worldSize (n : ℕ) (c : Context ι) : (alone n c).worldSize = n := rfl

@[simp] theorem alone_setContext (n : ℕ) (c c' : Context ι) : (alone n c).setContext 0 c' = alone n c' := rfl

/-- Both stop for the same reason, or context `k` of `b` becomes what the only context of the other broker becomes. -/
def ServedAlike (b : Broker ι) (k : ℕ) (x y : Result ι) : Prop :=
  (∃ e, x = .error e ∧ y = .error e) ∨
    ∃ c out pubs, x = .ok (b.setContext k c, out, pubs) ∧ y = .ok (alone b.worldSize c, out, pubs)

section Own

variable {b : Broker ι} {c : Context ι} {k : ℕ} {r : Request ι}

theorem ServedAlike.error (e : Stop) : ServedAlike b k (.error e) (.error e) := .inl ⟨e, rfl, rfl⟩

theorem ServedAlike.set (c : Context ι) (out : Replies ι) (pubs : List Publication) :
    ServedAlike b k (.ok (b.setContext k c, out, pubs)) (.ok (alone b.worldSize c, out, pubs)) :=
  .inr ⟨c, out, pubs, rfl, rfl⟩

/-- Nothing is written. -/
theorem ServedAlike.same (hc : b.ctxs[k]? = some c) (out : Replies ι) (pubs : List Publication) :
    ServedAlike b k (.ok (b, out, pubs)) (.ok (alone b.worldSize c, out, pubs)) := by
  refine .inr ⟨c, out, pubs, ?_, rfl⟩
  obtain ⟨hlt, rfl⟩ := List.getElem?_eq_some_iff.mp hc
  simp [setContext]

/-- A context that is read is the same in both. -/
theorem ServedAlike.context {f g : Context ι → Result ι} (hc : b.ctxs[k]? = some c) (h : ServedAlike b k (f c) (g c)) :
    ServedAlike b k (b.context k >>= f) ((alone b.worldSize c).context 0 >>= g) := by
  have h0 : (alone b.worldSize c).ctxs[0]? = some c := rfl
  simpa only [context_ok.mpr hc, context_ok.mpr h0, bind, Except.bind] using h

/-- A check that reads the same in both. -/
theorem ServedAlike.ite {p : Prop} [Decidable p] {x x' y y' : Result ι} (hx : ServedAlike b k x y)
    (hx' : ServedAlike b k x' y') : ServedAlike b k (if p then x else x') (if p then y else y') := by
  by_cases h : p
  · rwa [if_pos h, if_pos h]
  · rwa [if_neg h, if_neg h]

/-- What a handler writes first, its check writes over. -/
theorem ServedAlike.of_setContext {x y : Result ι} (h : ServedAlike (b.setContext k c) k x y) : ServedAlike b k x y := by
  obtain ⟨e, hx, hy⟩ | ⟨c', out, pubs, hx, hy⟩ := h
  · exact .inl ⟨e, hx, hy⟩
  · refine .inr ⟨c', out, pubs, hx.trans ?_, hy⟩
    simp [setContext]

theorem onContext_alone (hc : b.ctxs[k]? = some c) (F : Context ι → Handled ι) :
    ServedAlike b k (b.onContext k F) ((alone b.worldSize c).onContext 0 F) := by
  refine .context hc ?_
  cases F c with
  | error e => exact .error e
  | ok x => exact .set ..

theorem reduceFailTimeHandler_alone (hc : b.ctxs[k]? = some c) (i : ι) (t : TIME) :
    ServedAlike b k (b.reduceFailTimeHandler i k t) ((alone b.worldSize c).reduceFailTimeHandler i 0 t) := by
  refine .context hc (.ite (.error _) (.ite (.same hc ..) ?_))
  refine .ite (.error _) (.ite ?_ (.set ..))
  cases minElement reduceMinPairLess (c.reduceFailTime.insert i t).entries with
  | none => exact .error _
  | some min => exact .set ..

theorem finishedHandler_alone (hc : b.ctxs[k]? = some c) (i : ι) :
    ServedAlike b k (b.finishedHandler i k) ((alone b.worldSize c).finishedHandler i 0) :=
  .context hc (.ite (.error _) (.ite (.set ..) (.set ..)))

theorem parentReinitChecker_alone (hc : b.ctxs[k]? = some c) :
    ServedAlike b k (b.parentReinitChecker k) ((alone b.worldSize c).parentReinitChecker 0) := by
  refine .context hc (.ite (.same hc ..) (.ite (.set ..) ?_))
  cases c.netSimID.bind c.reinitMap.lookup with
  | none => exact .error _
  | some netSim =>
    cases remap c.reinitMap .oldParentIdNotInLogicalMap c.logicalIDToRealID with
    | error e => exact .error e
    | ok logical => exact .set ..

theorem parentReinitHandler_alone (hc : b.ctxs[k]? = some c) (i oldId : ι) :
    ServedAlike b k (b.parentReinitHandler i k oldId) ((alone b.worldSize c).parentReinitHandler i 0 oldId) := by
  have hk : k < b.ctxs.length := (List.getElem?_eq_some_iff.mp hc).1
  refine .context hc (.ite (.error _) (.ite (.error _) (.of_setContext (parentReinitChecker_alone ?_))))
  simp [setContext, hk]

/-- A request of its own context is served as by a broker that holds this context alone. -/
theorem step_own (hr : r.ownContext = true) (hc : b.ctxs[k]? = some c) (i : ι) :
    ServedAlike b k (b.step i k r) ((alone b.worldSize c).step i 0 r) := by
  have hk : k < b.ctxs.length := (List.getElem?_eq_some_iff.mp hc).1
  have hin : ¬ ((k : ℤ) < 0 ∨ b.ctxs.length ≤ (k : ℤ).toNat ∧ b.ctxs ≠ []) := by
    rw [Int.toNat_natCast]
    omega
  have hin0 : ¬ ((0 : ℤ) < 0 ∨ (alone b.worldSize c).ctxs.length ≤ (0 : ℤ).toNat ∧ (alone b.worldSize c).ctxs ≠ []) := by
    simp [alone]
  unfold step
  rw [if_neg hin, if_neg hin0]
  cases r with
  | childFailed => exact .same hc ..
  | reduceFailTime t => exact reduceFailTimeHandler_alone hc i t
  | finished => exact finishedHandler_alone hc i
  | parentReinit oldId => exact parentReinitHandler_alone hc i oldId
  | hello _ => cases hr
  | helloNetSim _ => cases hr
  | registerObject _ => cases hr
  | die => cases hr
  | childSuccess => cases hr
  | childInit _ _ => cases hr
  | childInitNetSim _ _ => cases hr
  | _ => exact onContext_alone hc _

end Own

/-! ## Runs -/

namespace Served

variable {b : Broker ι} {s s' : Served ι} {f : Frame ι} {fs : List (Frame ι)} {k : ℕ} {c c' : Context ι} {n : ℕ}

/-- `s` has come from `b` without a change outside the entries of its contexts. -/
structure Kept (b : Broker ι) (s : Served ι) : Prop where
  frame : s.broker = { b with ctxs := s.broker.ctxs }
  length : s.broker.ctxs.length = b.ctxs.length

theorem Kept.start (b : Broker ι) : Kept b (.start b) := ⟨rfl, rfl⟩

theorem Kept.worldSize (h : Kept b s) : s.broker.worldSize = b.worldSize := by
  rw [h.frame]

/-- Its parts are all there is to it. -/
theorem Kept.eq_of_part (h : Kept b s) (h' : Kept b s') (hp : s.part = s'.part) : s = s' := by
  have hctxs : s.broker.ctxs = s'.broker.ctxs := List.ext_getElem? fun k => congrArg Prod.fst (congrFun hp k)
  have hanswers : s.answers = s'.answers := funext fun k => congrArg Prod.snd (congrFun hp k)
  obtain ⟨b₁, a₁⟩ := s
  obtain ⟨b₂, a₂⟩ := s'
  simp only [mk.injEq]
  exact ⟨h.frame.trans (hctxs ▸ h'.frame.symm), hanswers⟩

/-- Both brokers serve no further for the same reason, or both go on. -/
theorem goOn_alike {r : Request ι} {x y : Result ι} (h : ServedAlike b k x y) :
    (∃ e, goOn r x = .error e ∧ goOn r y = .error e) ∨
      ∃ c out pubs, goOn r x = .ok (b.setContext k c, out, pubs) ∧ goOn r y = .ok (alone b.worldSize c, out, pubs) := by
  obtain ⟨e, rfl, rfl⟩ | ⟨c, out, pubs, rfl, rfl⟩ := h
  · exact .inl ⟨.stopped e, rfl, rfl⟩
  · by_cases hl : r.isLast pubs = true
    · exact .inl ⟨.left, by simp [goOn, hl], by simp [goOn, hl]⟩
    · exact .inr ⟨c, out, pubs, by simp [goOn, hl], by simp [goOn, hl]⟩

/-- A request of its own context moves that part and nothing else. -/
theorem step_part (h : Kept b s) (hf : f.request.ownContext = true) (h0 : 0 ≤ f.context)
    (hlt : f.context.toNat < b.ctxs.length) :
    (∃ e, step s f = .error e ∧ move b.worldSize (s.part f.context.toNat) f = .error e) ∨
      ∃ t p, step s f = .ok t ∧ Kept b t ∧ move b.worldSize (s.part f.context.toNat) f = .ok p ∧
        t.part = Function.update s.part f.context.toNat p := by
  obtain ⟨i, context, r⟩ := f
  obtain ⟨k, rfl⟩ := Int.eq_ofNat_of_zero_le h0
  simp only [Int.toNat_natCast] at hlt ⊢
  have hlen : k < s.broker.ctxs.length := h.length.symm ▸ hlt
  have hc : s.broker.ctxs[k]? = some s.broker.ctxs[k] := List.getElem?_eq_getElem hlen
  have hown := goOn_alike (r := r) (step_own hf hc i)
  rw [h.worldSize] at hown
  simp only [step, move, part, hc, Int.toNat_natCast]
  obtain ⟨e, hx, hy⟩ | ⟨d, out, pubs, hx, hy⟩ := hown
  · exact .inl ⟨e, by rw [hx]; rfl, by rw [hy]; rfl⟩
  · rw [hx, hy]
    refine .inr ⟨_, _, rfl, ⟨?_, ?_⟩, rfl, funext fun j => ?_⟩
    · rw [h.frame]
      rfl
    · simp [setContext, h.length]
    · by_cases hj : j = k
      · subst hj
        simp [part, setContext, hlen, alone]
      · simp [part, setContext, Function.update_of_ne hj, Ne.symm hj]

/-- The broker runs as its parts do. -/
theorem run_parts (h : Kept b s)
    (hfs : ∀ f ∈ fs, f.request.ownContext = true ∧ 0 ≤ f.context ∧ f.context.toNat < b.ctxs.length) :
    Trace.run step s fs = .ok s' ↔ Kept b s' ∧
      Trace.run (Trace.product (move b.worldSize) fun f => f.context.toNat) s.part fs = .ok s'.part := by
  induction fs generalizing s with
  | nil =>
    constructor
    · intro hr
      obtain rfl := Except.ok.inj hr
      exact ⟨h, rfl⟩
    · intro ⟨h', hr⟩
      exact congrArg Except.ok (h.eq_of_part h' (Except.ok.inj hr))
  | cons f fs ih =>
    obtain ⟨hf, h0, hlt⟩ := hfs f List.mem_cons_self
    have hrest := fun g hg => hfs g (List.mem_cons_of_mem _ hg)
    rw [Trace.run_cons, Trace.run_cons]
    obtain ⟨e, hs, hm⟩ | ⟨t, p, hs, ht, hm, hp⟩ := step_part h hf h0 hlt
    · simp [hs, Trace.product_ok, hm]
    · have hprod : Trace.product (move b.worldSize) (fun f => f.context.toNat) s.part f = .ok t.part :=
        Trace.product_ok.mpr ⟨p, hm, hp⟩
      simp only [hs, hprod, Except.ok.injEq, exists_eq_left']
      exact ih ht hrest

/-- The broker of one context, with what it has answered. -/
def single (n : ℕ) (c : Context ι) (answers : List (Replies ι × List Publication)) : Served ι :=
  ⟨alone n c, fun j => if j = 0 then answers else []⟩

theorem start_alone : start (alone n c) = single n c [] := by simp [start, single]

/-- The part with number `k` runs as a broker of its own. -/
theorem run_single {l l' : List (Replies ι × List Publication)} (hfs : ∀ f ∈ fs, f.request.ownContext = true) :
    Trace.run step (single n c l) (fs.map Frame.alone) = .ok (single n c' l') ↔
      Trace.run (move n) (some c, l) fs = .ok (some c', l') := by
  induction fs generalizing c l with
  | nil =>
    simp only [List.map_nil, Trace.run, Except.ok.injEq, single, mk.injEq, Prod.mk.injEq, Option.some.injEq]
    refine and_congr ⟨fun h => ?_, fun h => h ▸ rfl⟩ ⟨fun h => congrFun h 0, fun h => h ▸ rfl⟩
    exact (List.cons.inj (congrArg Broker.ctxs h)).1
  | cons f fs ih =>
    have hown := goOn_alike (r := f.request) (step_own (b := alone n c) (k := 0) (hfs f List.mem_cons_self) rfl f.identity)
    rw [List.map_cons, Trace.run_cons, Trace.run_cons]
    simp only [step, move, Frame.alone, single, Int.toNat_zero]
    obtain ⟨e, hx, -⟩ | ⟨d, out, pubs, hx, -⟩ := hown
    · rw [Nat.cast_zero] at hx
      simp [hx, Except.map]
    · rw [Nat.cast_zero] at hx
      have hupd : Function.update (fun j => if j = 0 then l else []) 0 (l ++ [(out, pubs)]) =
          fun j => if j = 0 then l ++ [(out, pubs)] else [] := by
        funext j
        by_cases hj : j = 0 <;> simp [hj]
      simp only [hx, Except.map, alone_setContext, Except.ok.injEq, exists_eq_left', if_true, hupd]
      exact ih fun g hg => hfs g (List.mem_cons_of_mem _ hg)

end Served

/-- Requests of their own contexts, whatever the order between the contexts: the broker serves them all, and to this
state with these replies and publications, exactly when brokers with one context each would serve each context's
requests in turn, to that context's part of it. The last FINISHED of a context is not among them. -/
theorem contexts_isolated {b : Broker ι} {fs : List (Frame ι)} {s : Served ι}
    (hfs : ∀ f ∈ fs, f.request.ownContext = true ∧ 0 ≤ f.context ∧ f.context.toNat < b.ctxs.length) :
    Trace.run Served.step (.start b) fs = .ok s ↔
      Served.Kept b s ∧ (∀ k, b.ctxs.length ≤ k → s.answers k = []) ∧
      ∀ k c, b.ctxs[k]? = some c → ∃ c', s.broker.ctxs[k]? = some c' ∧
        Trace.run Served.step (.start (alone b.worldSize c))
          ((fs.filter fun f => f.context.toNat = k).map Frame.alone) =
          .ok (.single b.worldSize c' (s.answers k)) := by
  rw [Served.run_parts (.start b) hfs, Trace.run_product]
  have hnone : ∀ k, b.ctxs.length ≤ k → fs.filter (fun f => f.context.toNat = k) = [] := fun k hk =>
    List.filter_eq_nil_iff.mpr fun f hf => by simpa using ((hfs f hf).2.2.trans_le hk).ne
  have hown : ∀ k, ∀ f ∈ fs.filter (fun f => f.context.toNat = k), f.request.ownContext = true := fun k f hf =>
    (hfs f (List.mem_filter.mp hf).1).1
  refine and_congr_right fun h => ⟨fun hr => ⟨fun k hk => ?_, fun k c hc => ?_⟩, fun hr k => ?_⟩
  · have hrun := hr k
    rw [hnone k hk] at hrun
    exact (congrArg Prod.snd (Except.ok.inj hrun)).symm
  · have hlt : k < s.broker.ctxs.length := h.length.symm ▸ (List.getElem?_eq_some_iff.mp hc).1
    refine ⟨s.broker.ctxs[k], List.getElem?_eq_getElem hlt, ?_⟩
    have hk := hr k
    simp only [Served.part, Served.start, hc, List.getElem?_eq_getElem hlt] at hk
    rw [Served.start_alone]
    exact (Served.run_single (hown k)).mpr hk
  · cases hc : b.ctxs[k]? with
    | none =>
      have hk : b.ctxs.length ≤ k := List.getElem?_eq_none_iff.mp hc
      have hgone : s.broker.ctxs[k]? = none := List.getElem?_eq_none_iff.mpr (h.length.symm ▸ hk)
      rw [hnone k hk]
      simp [Trace.run, Served.part, Served.start, hc, hgone, hr.1 k hk]
    | some c =>
      obtain ⟨c', hc', hk⟩ := hr.2 k c hc
      rw [Served.start_alone] at hk
      simp only [Served.part, Served.start, hc, hc']
      exact (Served.run_single (hown k)).mp hk

/-- Two contexts of two members each, the first member the net sim. -/
def pairs : Broker ℕ :=
  { init 2 with ctxs := [.fresh 2 (some 1) (.ofList [1, 2]) (.ofList [-1]), .fresh 2 (some 3) (.ofList [3, 4]) (.ofList [0])] }

/-- A barrier in the one context, a reduction in the other. -/
theorem contexts_isolated_pairs : ∃ s, Trace.run Served.step (.start pairs)
      [⟨1, 0, .barrier⟩, ⟨3, 1, .reduceMinTime 5⟩, ⟨2, 0, .barrier⟩, ⟨4, 1, .reduceMinTime 4⟩] = .ok s ∧
    ∀ k c, pairs.ctxs[k]? = some c → ∃ c', s.broker.ctxs[k]? = some c' ∧
      Trace.run Served.step (.start (alone 2 c)) ((([⟨1, 0, .barrier⟩, ⟨3, 1, .reduceMinTime 5⟩, ⟨2, 0, .barrier⟩,
        ⟨4, 1, .reduceMinTime 4⟩] : List (Frame ℕ)).filter fun f => f.context.toNat = k).map Frame.alone) =
        .ok (.single 2 c' (s.answers k)) := by
  obtain ⟨s, hr, -⟩ := Trace.exists_run_of_check Served.step (.start pairs) [⟨1, 0, .barrier⟩,
    ⟨3, 1, .reduceMinTime 5⟩, ⟨2, 0, .barrier⟩, ⟨4, 1, .reduceMinTime 4⟩] (fun _ => true) (by decide)
  exact ⟨s, hr, ((contexts_isolated (by decide)).mp hr).2.2⟩

end Fncs.Broker

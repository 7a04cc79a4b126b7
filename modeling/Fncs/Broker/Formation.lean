/-
The formation of a context: a group of simulators that connect with HELLO,
one of them as the net sim, in any order.
-/
import Fncs.Broker.Session

namespace Fncs.Broker

variable {ι : Type} [LinearOrder ι]

/-- The broker after a request, its replies forgotten. -/
def advance (b : Broker ι) (f : Frame ι) : Except Stop (Broker ι) :=
  (b.step f.identity f.context f.request).map Prod.fst

theorem advance_ok {b b' : Broker ι} {f : Frame ι} :
    advance b f = .ok b' ↔ ∃ out pubs, b.step f.identity f.context f.request = .ok (b', out, pubs) := by
  rw [advance]
  cases b.step f.identity f.context f.request <;> simp [Except.map, Prod.ext_iff]

/-- The broker handles requests one after the other; what it replies, in order. -/
def handleAll (b : Broker ι) : List (Frame ι) → Except Stop (Broker ι × Replies ι)
  | [] => .ok (b, [])
  | f :: fs => do
    let (b, out, _) ← b.step f.identity f.context f.request
    let (b, out') ← handleAll b fs
    .ok (b, out ++ out')

theorem handleAll_cons {b b' b'' : Broker ι} {f : Frame ι} {fs : List (Frame ι)} {out out' : Replies ι}
    {pubs : List Publication} (h : b.step f.identity f.context f.request = .ok (b', out, pubs))
    (h' : handleAll b' fs = .ok (b'', out')) : handleAll b (f :: fs) = .ok (b'', out ++ out') := by
  simp only [handleAll, Trace.seq_eq_ok]
  exact ⟨_, h, _, h', rfl⟩

theorem handleAll_append {b b' : Broker ι} {fs fs' : List (Frame ι)} {out : Replies ι} :
    handleAll b (fs ++ fs') = .ok (b', out) ↔ ∃ b₁ out₁ out₂, handleAll b fs = .ok (b₁, out₁) ∧
      handleAll b₁ fs' = .ok (b', out₂) ∧ out = out₁ ++ out₂ := by
  induction fs generalizing b out with
  | nil => simp [handleAll]
  | cons f fs ih =>
    simp only [List.cons_append, handleAll, Trace.seq_eq_ok]
    constructor
    · rintro ⟨⟨b₁, out₁, pubs⟩, hs, ⟨b₂, out₂⟩, hr, heq⟩
      simp only [Except.ok.injEq, Prod.mk.injEq] at heq
      obtain ⟨rfl, rfl⟩ := heq
      obtain ⟨b₃, o₁, o₂, h1, h2, rfl⟩ := ih.mp hr
      exact ⟨b₃, out₁ ++ o₁, o₂, ⟨_, hs, _, h1, rfl⟩, h2, by simp⟩
    · rintro ⟨b₃, o₁, o₂, ⟨⟨b₁, out₁, pubs⟩, hs, ⟨b₂, out₂⟩, hr, heq⟩, h2, rfl⟩
      simp only [Except.ok.injEq, Prod.mk.injEq] at heq
      obtain ⟨rfl, rfl⟩ := heq
      exact ⟨_, hs, _, ih.mpr ⟨_, _, _, hr, h2, rfl⟩, by simp⟩

/-- The simulators of an initial group, in the order of their HELLOs. -/
structure HelloGroup (ι : Type) [LinearOrder ι] where
  members : List ι
  nodup : members.Nodup
  netSim : ι
  netSim_mem : netSim ∈ members

namespace HelloGroup

/-- The size of the group, and of the broker's world. -/
def size (g : HelloGroup ι) : ℕ := g.members.length

def frame (g : HelloGroup ι) (i : ι) : Frame ι :=
  ⟨i, 0, if i = g.netSim then .helloNetSim (-1) else .hello (-1)⟩

/-- The group's HELLOs. -/
def frames (g : HelloGroup ι) : List (Frame ι) := g.members.map g.frame

/-- The entries of the context the group forms. -/
def context (g : HelloGroup ι) : Context ι :=
  (Context.fresh g.size (some g.netSim) (.ofList g.members) (.ofList [-1])).number (.ofList g.members)

/-- The broker once the group has connected. -/
def formed (g : HelloGroup ι) : Broker ι := { init g.size with ctxs := [g.context] }

/-- The broker while the group connects, `l` so far. -/
def connecting (g : HelloGroup ι) (l : List ι) : Broker ι :=
  { init g.size with
    newConnections := .ofList l
    newParents := if l = [] then ∅ else .ofList [-1]
    newNetSimID := if g.netSim ∈ l then some g.netSim else none }

theorem ofList_snoc (l : List ι) (i : ι) : (OrdSet.ofList l).add i = OrdSet.ofList (l ++ [i]) := by
  simp [OrdSet.ofList, List.foldl_append]

theorem size_ofList {l : List ι} (h : l.Nodup) : (OrdSet.ofList l).size = l.length := by
  rw [← OrdMap.card_dom, OrdSet.dom_ofList, List.toFinset_card_of_nodup h]

theorem noteHello_connecting (g : HelloGroup ι) (l : List ι) (i : ι) :
    noteHello (g.connecting l) i (-1) (decide (i = g.netSim)) = g.connecting (l ++ [i]) := by
  have hp : (if l = [] then (∅ : OrdSet ℤ) else .ofList [-1]).add (-1) = .ofList [-1] := by
    split <;> rfl
  simp only [noteHello, connecting, ofList_snoc, hp, List.append_eq_nil_iff, List.cons_ne_nil, and_false,
    if_false, List.mem_append, List.mem_singleton, decide_eq_true_eq]
  congr 1
  by_cases h : i = g.netSim
  · simp [h]
  · simp [h, Ne.symm h]

theorem step_frame (g : HelloGroup ι) (b : Broker ι) (i : ι) :
    b.step i 0 (g.frame i).request = b.helloHandler i 0 (-1) (decide (i = g.netSim)) := by
  have h0 : ¬ ((0 : ℤ) < 0 ∨ (b.ctxs.length ≤ (0 : ℤ).toNat ∧ b.ctxs ≠ [])) := by
    simp
  unfold step
  rw [if_neg h0]
  by_cases h : i = g.netSim <;> simp [frame, h]

/-- A HELLO that does not complete the group. -/
theorem advance_connecting (g : HelloGroup ι) {l r : List ι} {i j : ι}
    (h : g.members = l ++ i :: j :: r) :
    advance (g.connecting l) (g.frame i) = .ok (g.connecting (l ++ [i])) := by
  have hnd := g.nodup
  rw [h] at hnd
  have hi : i ∉ l := fun hi => (List.nodup_append.mp hnd).2.2 _ hi _ (by simp) rfl
  have hli : (l ++ [i]).Nodup := by
    rw [show l ++ i :: j :: r = (l ++ [i]) ++ (j :: r) by simp] at hnd
    exact (List.nodup_append.mp hnd).1
  have hsz : (g.connecting (l ++ [i])).newConnections.size < g.size := by
    rw [connecting, size_ofList hli, size, h]
    simp
  have hnet : ¬ (decide (i = g.netSim) = true ∧ (g.connecting l).newNetSimID.isSome = true) := by
    rintro ⟨hin, hs⟩
    have hin : i = g.netSim := of_decide_eq_true hin
    simp only [connecting] at hs
    split at hs
    · next hm => exact hi (hin ▸ hm)
    · cases hs
  show Except.map Prod.fst ((g.connecting l).step i 0 (g.frame i).request) = _
  rw [step_frame, helloHandler, if_neg hnet]
  have hw : (g.connecting (l ++ [i])).worldSize = g.size := rfl
  simp only [noteHello_connecting, hw]
  rw [if_neg (not_lt.mpr hsz.le), if_neg hsz.ne]
  rfl

/-- The last HELLO completes it. -/
theorem advance_last (g : HelloGroup ι) {l : List ι} {i : ι} (h : g.members = l ++ [i]) :
    advance (g.connecting l) (g.frame i) = .ok g.formed := by
  have hnd := g.nodup
  rw [h] at hnd
  have hi : i ∉ l := fun hi => (List.nodup_append.mp hnd).2.2 _ hi _ (by simp) rfl
  have hsz : (g.connecting (l ++ [i])).newConnections.size = g.size := by
    rw [connecting, size_ofList hnd, size, h]
  have hnet : ¬ (decide (i = g.netSim) = true ∧ (g.connecting l).newNetSimID.isSome = true) := by
    rintro ⟨hin, hs⟩
    have hin : i = g.netSim := of_decide_eq_true hin
    simp only [connecting] at hs
    split at hs
    · next hm => exact hi (hin ▸ hm)
    · cases hs
  have hmem : g.netSim ∈ l ++ [i] := h ▸ g.netSim_mem
  show Except.map Prod.fst ((g.connecting l).step i 0 (g.frame i).request) = _
  rw [step_frame, helloHandler, if_neg hnet]
  have hw : (g.connecting (l ++ [i])).worldSize = g.size := rfl
  simp only [noteHello_connecting, hw]
  rw [if_neg (not_lt.mpr hsz.le), if_pos hsz]
  have hp : (g.connecting (l ++ [i])).newParents = .ofList [-1] := by simp [connecting]
  have hctx : (g.connecting (l ++ [i])).addContext.context 0 =
      .ok (Context.fresh g.size (some g.netSim) (.ofList g.members) (.ofList [-1])) := by
    have hne : g.members ≠ [] := List.ne_nil_of_mem g.netSim_mem
    rw [context_ok, ← h]
    simp [addContext, connecting, init, g.netSim_mem, hne]
  rw [helloComplete, hp]
  have h1 : (OrdSet.ofList [(-1 : ℤ)]).size = 1 := rfl
  have h2 : (OrdSet.ofList [(-1 : ℤ)]).keys.head? = some (-1) := rfl
  simp only [h1, h2, hctx, ne_eq, not_true_eq_false, if_false, if_true, bind, Except.bind, Except.map]
  congr 1
  simp [formed, clearGroup, setContext, addContext, connecting, context, init, h]

/-- The group's HELLOs form the context, whatever their order. -/
theorem run_frames (g : HelloGroup ι) : Trace.run advance (init g.size) g.frames = .ok g.formed := by
  have key : ∀ (r l : List ι), g.members = l ++ r → r ≠ [] →
      Trace.run advance (g.connecting l) (r.map g.frame) = .ok g.formed := by
    intro r
    induction r with
    | nil => exact fun _ _ hr => absurd rfl hr
    | cons i r ih =>
      intro l hl _
      rw [List.map_cons, Trace.run_cons]
      cases r with
      | nil => exact ⟨g.formed, g.advance_last hl, rfl⟩
      | cons j r => exact ⟨_, g.advance_connecting hl, ih (l ++ [i]) (by simp [hl]) (by simp)⟩
  have hne : g.members ≠ [] := List.ne_nil_of_mem g.netSim_mem
  have h0 : g.connecting [] = init g.size := by simp [connecting, init, OrdSet.ofList]
  rw [← h0]
  exact key g.members [] rfl hne

end HelloGroup

/-- Three simulators and the net sim. -/
def fourMembers : HelloGroup ℕ := ⟨[0, 1, 2, 3], by decide, 3, by decide⟩

end Fncs.Broker

/-
What the buffer strategies keep when nobody reads: arrivals, in any order of
their times, at an interface whose inbox is empty. A strategy only says whether
an arrival is appended; nothing is removed for it.
-/
import Fncs.Inbox.Drain

namespace Fncs

variable {μ : Type} (getTime : μ → TIME)

/-- The message a strategy is there to keep: the first one, or the latest of those with the greatest time. -/
def BufferStrategy.Keeps (ms : List μ) (m : μ) : BufferStrategy → Prop
  | .keepFirst => ms.head? = some m
  | .keepLast => ∃ l r, ms = l ++ m :: r ∧ (∀ x ∈ l, getTime x ≤ getTime m) ∧ ∀ x ∈ r, getTime x < getTime m

/-- Whether an arrival is appended behind `first`. -/
def BufferStrategy.appends (first : μ) (a : Arrival μ) : BufferStrategy → Bool
  | .keepFirst => decide (a.numberOfMessage = 0)
  | .keepLast => decide (a.numberOfMessage = 0) || decide (getTime first ≤ getTime a.given)

/-- One arrival or more. Each message is an object of its own. -/
structure Arrivals (μ : Type) where
  first : Arrival μ
  later : List (Arrival μ)
  distinct : ((first :: later).map Arrival.given).Nodup

namespace ObjectCommInterface

/-- The inbox after the arrivals holds what the strategy is there to keep, and nothing else. -/
def HoldsKept (st : BufferStrategy) (as : Arrivals μ) : Prop :=
  ∃ s m, arrive getTime ⟨[], [], 0, some st⟩ (as.first :: as.later) = .ok s ∧ s.inbox = [some m] ∧
    st.Keeps getTime ((as.first :: as.later).map Arrival.given) m

/-- `getNumberOfMessage` yields 0 for the first arrival and for no other, and for
`KeepLastStrategy` every other arrival is older than the first. -/
def FirstOutlasts (st : BufferStrategy) (as : Arrivals μ) : Prop :=
  as.first.numberOfMessage = 0 ∧
    ∀ b ∈ as.later, b.numberOfMessage ≠ 0 ∧ (st = .keepLast → getTime b.given < getTime as.first.given)

variable {getTime} {s s' : ObjectCommInterface μ} {st : BufferStrategy} {first : μ} {a : Arrival μ}
  {as : List (Arrival μ)}

/-- An arrival at an inbox that starts with a message. -/
theorem newMessage_behind (hst : s.st = some st) (hfirst : s.inbox[0]? = some (some first)) :
    s.newMessage getTime a =
      .ok (if st.appends getTime first a then { s with inbox := s.inbox ++ [some a.given] } else s) := by
  have hb : s.buffers getTime a = .ok (st.appends getTime first a) := by
    rw [buffers, hst]
    cases st with
    | keepFirst => rfl
    | keepLast =>
      by_cases h0 : a.numberOfMessage = 0
      · simp [BufferStrategy.doBufferMessage, BufferStrategy.appends, h0]
      · simp [BufferStrategy.doBufferMessage, BufferStrategy.appends, h0, hfirst]
  rw [newMessage, hb]
  rfl

/-- What comes in stays: the first message stays the first. -/
theorem arrive_behind (as : List (Arrival μ)) (hst : s.st = some st) (hfirst : s.inbox[0]? = some (some first)) :
    s.arrive getTime as = .ok { s with
      inbox := s.inbox ++ (as.filter (st.appends getTime first ·)).map fun a => some a.given } := by
  induction as generalizing s with
  | nil => simp [arrive]
  | cons a as ih =>
    rw [arrive, newMessage_behind hst hfirst, List.filter_cons]
    cases happends : st.appends getTime first a with
    | false => exact ih hst hfirst
    | true =>
      have hkept : (s.inbox ++ [some a.given])[0]? = some (some first) := by
        rw [List.getElem?_append_left (List.getElem?_eq_some_iff.mp hfirst).1, hfirst]
      refine (ih (s := { s with inbox := s.inbox ++ [some a.given] }) hst hkept).trans ?_
      simp

/-- The first arrival at an empty inbox is appended, rejected, or compared with a message that is not there. -/
theorem newMessage_empty : newMessage getTime ⟨[], [], 0, some st⟩ a =
    if a.numberOfMessage = 0 then .ok ⟨[some a.given], [], 0, some st⟩
    else if st = .keepFirst then .ok ⟨[], [], 0, some st⟩ else .error .outOfRange := by
  by_cases h0 : a.numberOfMessage = 0 <;>
    cases st <;> simp [newMessage, buffers, BufferStrategy.doBufferMessage, h0, Except.map]

/-- The inbox holds nothing but what was there and what came in. -/
theorem mem_of_arrive (h : s.arrive getTime as = .ok s') {x : Option μ} (hx : x ∈ s'.inbox) :
    x ∈ s.inbox ∨ x ∈ as.map fun a => some a.given := by
  induction as generalizing s with
  | nil =>
    cases h
    exact .inl hx
  | cons a as ih =>
    obtain ⟨t, ht, h⟩ := Trace.bind_eq_ok.mp h
    have hnew : t.inbox = s.inbox ∨ t.inbox = s.inbox ++ [some a.given] := by
      cases hb : s.buffers getTime a with
      | error f => simp [newMessage, hb, Except.map] at ht
      | ok b =>
        simp only [newMessage, hb, Except.map] at ht
        obtain rfl := Except.ok.inj ht
        cases b
        · exact .inl rfl
        · exact .inr rfl
    have hin : x ∈ t.inbox → x ∈ s.inbox ∨ x = some a.given := by
      intro hx
      rcases hnew with hnew | hnew <;> rw [hnew] at hx
      · exact .inl hx
      · simpa using hx
    rcases ih h with hx | hx
    · rcases hin hx with hx | hx
      · exact .inl hx
      · exact .inr (by simp [hx])
    · exact .inr (List.mem_cons_of_mem _ hx)

theorem appends_eq_false_iff : st.appends getTime first a = false ↔
    a.numberOfMessage ≠ 0 ∧ (st = .keepLast → getTime a.given < getTime first) := by
  cases st <;> simp [BufferStrategy.appends]

/-- A strategy keeps its message and no other exactly when the first arrival outlasts all others. -/
theorem holds_kept_iff (getTime : μ → TIME) (st : BufferStrategy) (as : Arrivals μ) :
    HoldsKept getTime st as ↔ FirstOutlasts getTime st as := by
  obtain ⟨a, as, hdistinct⟩ := as
  by_cases h0 : a.numberOfMessage = 0
  · have hrun : arrive getTime ⟨[], [], 0, some st⟩ (a :: as) = .ok
        ⟨some a.given :: (as.filter (st.appends getTime a.given ·)).map fun a => some a.given, [], 0, some st⟩ := by
      rw [arrive, newMessage_empty, if_pos h0]
      exact arrive_behind as rfl rfl
    have hothers : (as.filter (st.appends getTime a.given ·)) = [] ↔
        ∀ b ∈ as, b.numberOfMessage ≠ 0 ∧ (st = .keepLast → getTime b.given < getTime a.given) := by
      rw [List.filter_eq_nil_iff]
      refine forall₂_congr fun b _ => ?_
      rw [Bool.not_eq_true, appends_eq_false_iff]
    constructor
    · intro h
      obtain ⟨s, m, hs, hinbox, -⟩ := h
      obtain rfl := Except.ok.inj (hrun.symm.trans hs)
      have hnil := (List.cons.inj hinbox).2
      exact ⟨h0, hothers.mp (List.map_eq_nil_iff.mp hnil)⟩
    · intro h
      refine ⟨_, a.given, hrun, by rw [hothers.mpr h.2]; rfl, ?_⟩
      cases st with
      | keepFirst => rfl
      | keepLast =>
        refine ⟨[], as.map Arrival.given, rfl, by simp, fun x hx => ?_⟩
        obtain ⟨b, hb, rfl⟩ := List.mem_map.mp hx
        exact (h.2 b hb).2 rfl
  · refine iff_of_false (fun h => ?_) fun h => h0 h.1
    obtain ⟨s, m, hs, hinbox, hkeeps⟩ := h
    rw [arrive, newMessage_empty, if_neg h0] at hs
    cases st with
    | keepLast => cases hs
    | keepFirst =>
      obtain rfl : a.given = m := Option.some.inj hkeeps
      rcases mem_of_arrive hs (x := some a.given) (by simp [hinbox]) with hin | hin
      · cases hin
      · obtain ⟨b, hb, he⟩ := List.mem_map.mp hin
        exact (List.nodup_cons.mp hdistinct).1 (List.mem_map.mpr ⟨b, hb, Option.some.inj he⟩)

/-- A message and a later one; the strategy gets the size of the inbox both times. -/
def growing : Arrivals (String × TIME) where
  first := ⟨("a", 1), 0⟩
  later := [⟨("b", 2), 1⟩]
  distinct := by decide

/-- `KeepLastStrategy` accepts the second message and keeps the first as well. -/
theorem both_messages_kept :
    arrive Prod.snd ⟨[], [], 0, some .keepLast⟩ (growing.first :: growing.later) =
      .ok ⟨[some ("a", 1), some ("b", 2)], [], 0, some .keepLast⟩ ∧
    ¬ ∀ (st : BufferStrategy) (as : Arrivals (String × TIME)), HoldsKept Prod.snd st as := by
  have hrun : arrive Prod.snd ⟨[], [], 0, some .keepLast⟩ (growing.first :: growing.later) =
    .ok ⟨[some ("a", 1), some ("b", 2)], [], 0, some .keepLast⟩ := rfl
  refine ⟨hrun, fun hall => ?_⟩
  obtain ⟨s, m, hs, hinbox, -⟩ := hall .keepLast growing
  obtain rfl := Except.ok.inj (hrun.symm.trans hs)
  cases hinbox

end ObjectCommInterface

end Fncs

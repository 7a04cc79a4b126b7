/-
Where an iteration over the inbox stands. The entries are seen as slots: the
message that came in, whether the iteration returns it, and whether the client
has taken it. Between iterations every entry is a message; during one the
placeholders are at collected positions only, none of them ahead of the iterator.
-/
import Fncs.Inbox.Interface

namespace Fncs.ObjectCommInterface

variable {μ : Type}

/-- An entry of the inbox with the message it was made for. -/
structure Slot (μ : Type) where
  msg : μ
  due : Bool
  taken : Bool

namespace Slot

def entry (x : Slot μ) : Option μ := if x.taken then none else some x.msg

/-- The slot of a message the client has not taken. -/
def left (due : μ → Bool) (msg : μ) : Slot μ := ⟨msg, due msg, false⟩

@[simp] theorem entry_left (due : μ → Bool) (msg : μ) : (left due msg).entry = some msg := rfl

end Slot

/-- No iteration is in progress, and the inbox holds `ms`. -/
structure Idle (s : ObjectCommInterface μ) (ms : List μ) : Prop where
  inbox : s.inbox = ms.map some
  msgs : s.msgs = []

/-- The iterator stands at `cur`, with `l` behind it and `r` ahead. -/
structure At (s : ObjectCommInterface μ) (l : List (Slot μ)) (cur : Slot μ) (r : List (Slot μ)) : Prop where
  inbox : s.inbox = (l ++ cur :: r).map Slot.entry
  msgs : s.msgs = (l ++ cur :: r).findIdxs Slot.due
  it : s.it = l.countP Slot.due
  due : cur.due = true
  behind : ∀ x ∈ l, x.taken = true → x.due = true
  ahead : ∀ x ∈ r, x.taken = false

variable {getTime : μ → TIME} {packetLostPeriod currentTime : TIME} {s : ObjectCommInterface μ} {ms : List μ}
  {l r : List (Slot μ)} {cur : Slot μ}

/-- A list without a match, or cut at its first match. -/
theorem first_match {α : Type} (p : α → Bool) (l : List α) :
    (∀ x ∈ l, p x = false) ∨ ∃ a x b, l = a ++ x :: b ∧ p x = true ∧ ∀ y ∈ a, p y = false := by
  cases h : l.find? p with
  | none =>
    left
    simpa using h
  | some x =>
    obtain ⟨hx, a, b, rfl, ha⟩ := List.find?_eq_some_iff_append.mp h
    exact .inr ⟨a, x, b, rfl, hx, fun y hy => by simpa using ha y hy⟩

/-- Counting, filtering and dropping where nothing matches. -/
theorem no_match {α : Type} {p : α → Bool} {l : List α} (h : ∀ x ∈ l, p x = false) :
    l.countP p = 0 ∧ l.filter p = [] ∧ (l.filter fun x => !p x) = l := by
  refine ⟨List.countP_eq_zero.mpr fun x hx => ?_, List.filter_eq_nil_iff.mpr fun x hx => ?_,
    List.filter_eq_self.mpr fun x hx => ?_⟩ <;> simp [h x hx]

/-! ## Collecting -/

/-- Without placeholders the loop collects the positions of the time frame. -/
theorem collect_map_some (i : ℕ) (ms : List μ) :
    collect getTime packetLostPeriod currentTime i (ms.map some) =
      .ok (ms.findIdxs (inFrame getTime packetLostPeriod currentTime) i) := by
  induction ms generalizing i with
  | nil => rfl
  | cons m ms ih =>
    rw [List.map_cons, collect, ih, List.findIdxs_cons]
    rfl

theorem inFrame_iff (hp : packetLostPeriod < ulongSize) (hc : currentTime < ulongSize) (msg : μ) :
    inFrame getTime packetLostPeriod currentTime msg = true ↔
      currentTime - packetLostPeriod ≤ getTime msg ∧ getTime msg ≤ currentTime := by
  rw [inFrame, graceTime_eq hc hp, Bool.and_eq_true, decide_eq_true_iff, decide_eq_true_iff]
  exact and_comm

/-! ## One call at a time -/

/-- The first call of an iteration finds nothing, or stops at the first message of the time frame. -/
theorem Idle.hasMoreMessages (getTime : μ → TIME) (packetLostPeriod currentTime : TIME) (h : s.Idle ms) :
    (∀ m ∈ ms, inFrame getTime packetLostPeriod currentTime m = false) ∧
        s.hasMoreMessages getTime packetLostPeriod currentTime = .ok (false, s) ∨
      ∃ a m b s', ms = a ++ m :: b ∧ inFrame getTime packetLostPeriod currentTime m = true ∧
        (∀ x ∈ a, inFrame getTime packetLostPeriod currentTime x = false) ∧
        s.hasMoreMessages getTime packetLostPeriod currentTime = .ok (true, s') ∧ s'.st = s.st ∧
        s'.At (a.map (Slot.left (inFrame getTime packetLostPeriod currentTime)))
          (Slot.left (inFrame getTime packetLostPeriod currentTime) m)
          (b.map (Slot.left (inFrame getTime packetLostPeriod currentTime))) := by
  have hrun : s.hasMoreMessages getTime packetLostPeriod currentTime =
      .ok (if ms.findIdxs (inFrame getTime packetLostPeriod currentTime) = [] then (false, s)
        else (true, { s with msgs := ms.findIdxs (inFrame getTime packetLostPeriod currentTime), it := 0 })) := by
    rw [ObjectCommInterface.hasMoreMessages, if_pos h.msgs, h.inbox, collect_map_some]
    rfl
  rcases first_match (inFrame getTime packetLostPeriod currentTime) ms with hnone | ⟨a, m, b, rfl, hm, ha⟩
  · left
    rw [hrun, if_pos (List.findIdxs_eq_nil_iff.mpr hnone)]
    exact ⟨hnone, rfl⟩
  · right
    have hsome : (a ++ m :: b).findIdxs (inFrame getTime packetLostPeriod currentTime) ≠ [] := by
      intro hnil
      have := List.findIdxs_eq_nil_iff.mp hnil m (by simp)
      rw [hm] at this
      cases this
    rw [hrun, if_neg hsome]
    refine ⟨a, m, b, _, rfl, hm, ha, rfl, rfl, ?_⟩
    constructor
    · rw [← List.map_cons, ← List.map_append, List.map_map]
      exact h.inbox
    · dsimp only
      rw [← List.map_cons, ← List.map_append, List.findIdxs_map]
      rfl
    · rw [List.countP_map]
      exact (no_match ha).1.symm
    · exact hm
    · intro x hx
      obtain ⟨m', -, rfl⟩ := List.mem_map.mp hx
      simp [Slot.left]
    · intro x hx
      obtain ⟨m', -, rfl⟩ := List.mem_map.mp hx
      rfl

/-- The iterator is at the last match exactly when nothing ahead is due. -/
theorem At.last_iff (h : s.At l cur r) : s.it + 1 = s.msgs.length ↔ ∀ x ∈ r, x.due = false := by
  rw [h.it, h.msgs, List.length_findIdxs, List.countP_append, List.countP_cons, if_pos h.due,
    show (∀ x ∈ r, x.due = false) ↔ r.countP Slot.due = 0 by simp [List.countP_eq_zero]]
  omega

theorem At.msgs_ne_nil (h : s.At l cur r) : s.msgs ≠ [] := by
  rw [h.msgs]
  intro hnil
  have := List.findIdxs_eq_nil_iff.mp hnil cur (by simp)
  rw [h.due] at this
  cases this

/-- What an iteration over `l` leaves in the inbox. -/
def rest (l : List (Slot μ)) : List μ := (l.filter fun x => !x.due).map Slot.msg

/-- The call after the last match ends the iteration and erases everything it returned or passed. -/
theorem At.hasMoreMessages_last (getTime : μ → TIME) (packetLostPeriod currentTime : TIME) (h : s.At l cur r)
    (hlast : ∀ x ∈ r, x.due = false) :
    ∃ s', s.hasMoreMessages getTime packetLostPeriod currentTime = .ok (false, s') ∧ s'.st = s.st ∧ s'.it = 0 ∧
      s'.Idle (rest (l ++ cur :: r)) := by
  have hwhole := Positions.eraseAll_shifted Slot.due (l ++ cur :: r) []
  rw [List.append_nil, List.append_nil] at hwhole
  have herase : Positions.eraseAll 1 0 s.msgs s.inbox =
      some (((l ++ cur :: r).filter fun x => !x.due).map Slot.entry) := by
    rw [h.msgs, h.inbox, Positions.eraseAll_map, hwhole]
    rfl
  have hlive : ((l ++ cur :: r).filter fun x => !x.due).map Slot.entry = (rest (l ++ cur :: r)).map some := by
    rw [rest, List.map_map]
    refine List.map_congr_left fun x hx => ?_
    obtain ⟨hx, hdue⟩ := List.mem_filter.mp hx
    have hleft : x.taken = false := by
      rcases List.mem_append.mp hx with hx | hx
      · cases ht : x.taken with
        | false => rfl
        | true => simp [h.behind x hx ht] at hdue
      · rcases List.mem_cons.mp hx with rfl | hx
        · simp [h.due] at hdue
        · exact h.ahead x hx
    simp [Slot.entry, hleft]
  refine ⟨{ s with inbox := (rest (l ++ cur :: r)).map some, msgs := [], it := 0 }, ?_, rfl, rfl, rfl, rfl⟩
  rw [hasMoreMessages, if_neg h.msgs_ne_nil, if_pos (h.last_iff.mpr hlast), herase, hlive]

/-- The call before it moves on to the next match. -/
theorem At.hasMoreMessages_next (getTime : μ → TIME) (packetLostPeriod currentTime : TIME) {a b : List (Slot μ)}
    {x : Slot μ} (h : s.At l cur (a ++ x :: b)) (ha : ∀ y ∈ a, y.due = false) (hx : x.due = true) :
    ∃ s', s.hasMoreMessages getTime packetLostPeriod currentTime = .ok (true, s') ∧ s'.st = s.st ∧
      s'.At (l ++ cur :: a) x b := by
  have hnot : s.it + 1 ≠ s.msgs.length := by
    intro hlast
    have := h.last_iff.mp hlast x (by simp)
    rw [hx] at this
    cases this
  have hsplit : l ++ cur :: (a ++ x :: b) = (l ++ cur :: a) ++ x :: b := by simp
  refine ⟨{ s with it := s.it + 1 }, ?_, rfl, ?_⟩
  · rw [hasMoreMessages, if_neg h.msgs_ne_nil, if_neg hnot]
  · refine ⟨?_, ?_, ?_, hx, fun y hy ht => ?_, fun y hy => h.ahead y (by simp [hy])⟩
    · rw [h.inbox, hsplit]
    · rw [h.msgs, hsplit]
    · dsimp only
      rw [h.it, List.countP_append, List.countP_cons, if_pos h.due, (no_match ha).1]
    · rcases List.mem_append.mp hy with hy | hy
      · exact h.behind y hy ht
      · rcases List.mem_cons.mp hy with rfl | hy
        · exact h.due
        · simp [h.ahead y (by simp [hy])] at ht

/-- The position the iterator stands at. -/
theorem At.position (h : s.At l cur r) : s.msgs[s.it]? = some l.length := by
  rw [h.msgs, h.it, List.findIdxs_append, List.findIdxs_cons, if_pos h.due,
    List.getElem?_append_right (by rw [List.length_findIdxs]), List.length_findIdxs, Nat.sub_self, Nat.zero_add]
  rfl

/-- Taking returns the entry the iterator stands at. -/
theorem At.getNextInboxMessage (h : s.At l cur r) :
    ∃ s', s.getNextInboxMessage = .ok (cur.entry, s') ∧ s'.st = s.st ∧ s'.At l { cur with taken := true } r := by
  have hentry : s.inbox[l.length]? = some cur.entry := by
    rw [h.inbox, List.map_append, List.getElem?_append_right (by simp), List.length_map, Nat.sub_self]
    rfl
  refine ⟨{ s with inbox := s.inbox.set l.length none }, ?_, rfl, ?_⟩
  · rw [ObjectCommInterface.getNextInboxMessage, h.position]
    dsimp only
    rw [hentry]
  · refine ⟨?_, ?_, h.it, h.due, h.behind, h.ahead⟩
    · dsimp only
      rw [h.inbox, List.map_append, List.set_append_right _ _ (by simp), List.length_map, Nat.sub_self, List.map_append]
      rfl
    · dsimp only
      rw [h.msgs, List.findIdxs_append, List.findIdxs_append, List.findIdxs_cons, List.findIdxs_cons]

/-- What is buffered while an iteration is in progress is not part of it. -/
theorem At.append (h : s.At l cur r) (m : μ) :
    At { s with inbox := s.inbox ++ [some m] } l cur (r ++ [Slot.left (fun _ => false) m]) := by
  refine ⟨?_, ?_, h.it, h.due, h.behind, fun x hx => ?_⟩
  · simp [h.inbox]
  · have hsplit : l ++ cur :: (r ++ [Slot.left (fun _ => false) m]) =
        (l ++ cur :: r) ++ [Slot.left (fun _ => false) m] := by simp
    rw [hsplit, List.findIdxs_append, ← h.msgs]
    exact (List.append_nil s.msgs).symm
  · rcases List.mem_append.mp hx with hx | hx
    · exact h.ahead x hx
    · rw [List.mem_singleton.mp hx]
      rfl

theorem Idle.append (h : s.Idle ms) (m : μ) : Idle { s with inbox := s.inbox ++ [some m] } (ms ++ [m]) :=
  ⟨by simp [h.inbox], h.msgs⟩

end Fncs.ObjectCommInterface

/-
Taking the messages of the current time frame: one by one with the iterator,
while more of them come in, and all at once.
-/
import Fncs.Inbox.Iteration

namespace Fncs.ObjectCommInterface

variable {μ : Type} (getTime : μ → TIME) (packetLostPeriod currentTime : TIME)

/-- The messages whose time is in the frame that ends at `currentTime`. -/
def current (msg : μ) : Bool := decide (currentTime - packetLostPeriod ≤ getTime msg ∧ getTime msg ≤ currentTime)

/-- Arrivals, one after the other. -/
def arrive (s : ObjectCommInterface μ) : List (Arrival μ) → Except Fault (ObjectCommInterface μ)
  | [] => .ok s
  | a :: as => (s.newMessage getTime a).bind fun s => arrive s as

/-- What the body of the loop takes; arrivals come right before and right after. -/
def takeNext (before after : List (Arrival μ)) (s : ObjectCommInterface μ) :
    Except Fault (Option μ × ObjectCommInterface μ) := do
  let s ← s.arrive getTime before
  let (msg, s) ← s.getNextInboxMessage
  let s ← s.arrive getTime after
  return (msg, s)

/-- The loop `while (hasMoreMessages()) take getNextInboxMessage()`, with
`arrivals k` after the `k`-th of its calls; `none` when it has not ended after
`fuel` turns. -/
def drain (arrivals : ℕ → List (Arrival μ)) :
    (fuel k : ℕ) → ObjectCommInterface μ → Option (Except Fault (List (Option μ) × ObjectCommInterface μ))
  | 0, _, _ => none
  | fuel + 1, k, s =>
    match s.hasMoreMessages getTime packetLostPeriod currentTime with
    | .error f => some (.error f)
    | .ok (false, s) => some (.ok ([], s))
    | .ok (true, s) =>
      match s.takeNext getTime (arrivals k) (arrivals (k + 1)) with
      | .error f => some (.error f)
      | .ok (msg, s) => (drain arrivals fuel (k + 2) s).map fun r => r.map fun (msgs, s) => (msg :: msgs, s)

/-- The messages that arrive after `n` calls, from the `k`-th on. -/
def arrived (arrivals : ℕ → List (Arrival μ)) (k n : ℕ) : List μ :=
  ((List.range' k n).flatMap arrivals).map Arrival.given

variable {getTime packetLostPeriod currentTime} {s : ObjectCommInterface μ} {ms : List μ}
  {l r : List (Slot μ)} {cur : Slot μ} {arrivals : ℕ → List (Arrival μ)}

theorem inFrame_eq (hp : packetLostPeriod < ulongSize) (hc : currentTime < ulongSize) :
    inFrame getTime packetLostPeriod currentTime = current getTime packetLostPeriod currentTime := by
  funext msg
  rw [Bool.eq_iff_iff, inFrame_iff hp hc, current, decide_eq_true_iff]

/-! ## The loop -/

/-- The slots of what comes in during an iteration. -/
def come (ms : List μ) : List (Slot μ) := ms.map (Slot.left fun _ => false)

@[simp] theorem countP_come (ms : List μ) : (come ms).countP Slot.due = 0 := by
  rw [come, List.countP_map]
  exact List.countP_eq_zero.mpr fun _ _ => Bool.false_ne_true

@[simp] theorem filter_come (ms : List μ) : (come ms).filter Slot.due = [] := by
  rw [← List.length_eq_zero_iff, ← List.countP_eq_length_filter, countP_come]

@[simp] theorem rest_append (l l' : List (Slot μ)) : rest (l ++ l') = rest l ++ rest l' := by simp [rest]

@[simp] theorem rest_come (ms : List μ) : rest (come ms) = ms := by
  induction ms with
  | nil => rfl
  | cons m ms ih => exact congrArg (m :: ·) ih

theorem rest_cons_due {x : Slot μ} (hx : x.due = true) (l : List (Slot μ)) : rest (x :: l) = rest l := by
  simp [rest, hx]

/-- Taking a message that is due changes nothing of what is left. -/
theorem rest_taken {x : Slot μ} (hx : x.due = true) (l r : List (Slot μ)) (new : List μ) :
    rest (l ++ { x with taken := true } :: (r ++ come new)) = rest (l ++ x :: r) ++ new := by
  have hx' : ({ x with taken := true } : Slot μ).due = true := hx
  rw [rest_append, rest_cons_due hx', rest_append r, rest_come, rest_append l, rest_cons_due hx, List.append_assoc]

/-- Without a strategy everything is buffered, and the iteration goes on. -/
theorem At.arrive (getTime : μ → TIME) (h : s.At l cur r) (hst : s.st = none) (as : List (Arrival μ)) :
    ∃ s', s.arrive getTime as = .ok s' ∧ s'.st = none ∧ s'.At l cur (r ++ come (as.map Arrival.given)) := by
  induction as generalizing s r with
  | nil => exact ⟨s, rfl, hst, by simpa [come] using h⟩
  | cons a as ih =>
    have hnew : s.newMessage getTime a = .ok { s with inbox := s.inbox ++ [some a.given] } := by
      rw [newMessage, buffers, hst]
      rfl
    obtain ⟨s', hrun, hst', hat⟩ := ih (h.append a.given) hst
    refine ⟨s', ?_, hst', by simpa [come] using hat⟩
    rw [ObjectCommInterface.arrive, hnew]
    exact hrun

/-- One turn takes the message the iterator stands at. -/
theorem At.takeNext (h : s.At l cur r) (hst : s.st = none) (hleft : cur.taken = false) (before after : List (Arrival μ)) :
    ∃ s', s.takeNext getTime before after = .ok (some cur.msg, s') ∧ s'.st = none ∧
      s'.At l { cur with taken := true } (r ++ come ((before ++ after).map Arrival.given)) := by
  obtain ⟨s₁, h₁, hst₁, hat₁⟩ := h.arrive getTime hst before
  obtain ⟨s₂, h₂, hst₂, hat₂⟩ := hat₁.getNextInboxMessage
  obtain ⟨s₃, h₃, hst₃, hat₃⟩ := hat₂.arrive getTime (hst₂.trans hst₁) after
  refine ⟨s₃, ?_, hst₃, by simpa [come] using hat₃⟩
  have hentry : cur.entry = some cur.msg := by simp [Slot.entry, hleft]
  rw [ObjectCommInterface.takeNext, h₁]
  change (s₁.getNextInboxMessage >>= _) = _
  rw [h₂, hentry]
  change (s₂.arrive getTime after >>= _) = _
  rw [h₃]
  rfl

/-- A turn of the loop and the turns after it. -/
theorem drain_next {s₁ s₂ s₃ : ObjectCommInterface μ} {fuel k : ℕ} {msg : Option μ} {msgs : List (Option μ)}
    (hmore : s.hasMoreMessages getTime packetLostPeriod currentTime = .ok (true, s₁))
    (htake : s₁.takeNext getTime (arrivals k) (arrivals (k + 1)) = .ok (msg, s₂))
    (hrest : drain getTime packetLostPeriod currentTime arrivals fuel (k + 2) s₂ = some (.ok (msgs, s₃))) :
    drain getTime packetLostPeriod currentTime arrivals (fuel + 1) k s = some (.ok (msg :: msgs, s₃)) := by
  rw [drain, hmore]
  dsimp only
  rw [htake]
  dsimp only
  rw [hrest]
  rfl

theorem drain_last {s₁ : ObjectCommInterface μ} {fuel k : ℕ}
    (hmore : s.hasMoreMessages getTime packetLostPeriod currentTime = .ok (false, s₁)) :
    drain getTime packetLostPeriod currentTime arrivals (fuel + 1) k s = some (.ok ([], s₁)) := by
  rw [drain, hmore]

theorem arrived_succ (arrivals : ℕ → List (Arrival μ)) (k n : ℕ) :
    arrived arrivals k (2 * (n + 1)) =
      (arrivals k ++ arrivals (k + 1)).map Arrival.given ++ arrived arrivals (k + 2) (2 * n) := by
  rw [arrived, show 2 * (n + 1) = 2 * n + 1 + 1 by omega, List.range'_succ, List.range'_succ]
  simp [arrived, List.append_assoc]

/-- From a message the client has taken, the loop takes what is ahead; induction on the turns left. -/
theorem At.drain (h : s.At l cur r) (hst : s.st = none) (k : ℕ) {fuel : ℕ} (hfuel : r.countP Slot.due < fuel) :
    ∃ s', drain getTime packetLostPeriod currentTime arrivals fuel k s =
        some (.ok (((r.filter Slot.due).map Slot.msg).map some, s')) ∧ s'.st = none ∧ s'.it = 0 ∧
      s'.Idle (rest (l ++ cur :: r) ++ arrived arrivals k (2 * r.countP Slot.due)) := by
  induction fuel generalizing s l cur r k with
  | zero => omega
  | succ fuel ih =>
    rcases first_match Slot.due r with hnone | ⟨a, x, b, rfl, hx, ha⟩
    · obtain ⟨s', hmore, hst', hit, hidle⟩ := h.hasMoreMessages_last getTime packetLostPeriod currentTime hnone
      obtain ⟨hcount, hfilter, -⟩ := no_match hnone
      refine ⟨s', ?_, hst'.trans hst, hit, ?_⟩
      · rw [drain_last hmore, hfilter]
        rfl
      · rw [hcount]
        simpa [arrived] using hidle
    · obtain ⟨s₁, hmore, hst₁, hat₁⟩ := h.hasMoreMessages_next getTime packetLostPeriod currentTime ha hx
      have hleft : x.taken = false := h.ahead x (by simp)
      obtain ⟨s₂, htake, hst₂, hat₂⟩ := hat₁.takeNext (hst₁.trans hst) hleft (arrivals k) (arrivals (k + 1))
      have hcount : (a ++ x :: b).countP Slot.due = b.countP Slot.due + 1 := by
        rw [List.countP_append, List.countP_cons, if_pos hx, (no_match ha).1, Nat.zero_add]
      have hfilter : (a ++ x :: b).filter Slot.due = x :: b.filter Slot.due := by
        rw [List.filter_append, (no_match ha).2.1, List.filter_cons, if_pos hx, List.nil_append]
      obtain ⟨s₃, hrest, hst₃, hit, hidle⟩ := ih hat₂ hst₂ (k + 2) (by
        rw [List.countP_append, countP_come]
        omega)
      rw [List.filter_append, filter_come, List.append_nil] at hrest
      refine ⟨s₃, ?_, hst₃, hit, ?_⟩
      · rw [drain_next hmore htake hrest, hfilter]
        rfl
      · rw [List.countP_append, countP_come, Nat.add_zero] at hidle
        have hsplit : l ++ cur :: (a ++ x :: b) = (l ++ cur :: a) ++ x :: b := by simp
        rw [rest_taken hx, List.append_assoc] at hidle
        rw [hcount, arrived_succ, hsplit]
        exact hidle

/-- The messages behind the iterator at the start of an iteration, at it and ahead of it. -/
theorem left_parts (due : μ → Bool) {a b : List μ} {m : μ} (hm : due m = true) (ha : ∀ x ∈ a, due x = false) :
    (b.map (Slot.left due)).countP Slot.due + 1 = (a ++ m :: b).countP due ∧
      m :: ((b.map (Slot.left due)).filter Slot.due).map Slot.msg = (a ++ m :: b).filter due ∧
      rest (a.map (Slot.left due) ++ Slot.left due m :: b.map (Slot.left due)) =
        (a ++ m :: b).filter fun x => !due x := by
  have hall (l : List μ) : ((l.map (Slot.left due)).filter Slot.due).map Slot.msg = l.filter due := by
    rw [List.filter_map, List.map_map]
    exact List.map_id _
  have hrest (l : List μ) : rest (l.map (Slot.left due)) = l.filter fun x => !due x := by
    rw [rest, List.filter_map, List.map_map]
    exact List.map_id _
  refine ⟨?_, ?_, ?_⟩
  · rw [List.countP_map, List.countP_append, List.countP_cons, if_pos hm, (no_match ha).1, Nat.zero_add]
    rfl
  · rw [hall, List.filter_append, (no_match ha).2.1, List.filter_cons, if_pos hm, List.nil_append]
  · rw [← List.map_cons, ← List.map_append, hrest]

/-- The loop ends, with every message of the time frame taken once and in order; the rest and what came in
while it ran stay. -/
theorem drain_returns_current (arrivals : ℕ → List (Arrival μ)) (fuel : ℕ) (h : s.Idle ms) (hst : s.st = none)
    (hp : packetLostPeriod < ulongSize) (hc : currentTime < ulongSize)
    (hfuel : ms.countP (current getTime packetLostPeriod currentTime) < fuel) :
    ∃ s', drain getTime packetLostPeriod currentTime arrivals fuel 0 s =
        some (.ok ((ms.filter (current getTime packetLostPeriod currentTime)).map some, s')) ∧
      s'.st = none ∧ (s.it = 0 → s'.it = 0) ∧
      s'.Idle ((ms.filter fun m => !current getTime packetLostPeriod currentTime m) ++
        arrived arrivals 0 (2 * ms.countP (current getTime packetLostPeriod currentTime))) := by
  obtain ⟨fuel, rfl⟩ : ∃ n, fuel = n + 1 := ⟨fuel - 1, by omega⟩
  rw [← inFrame_eq hp hc] at hfuel ⊢
  rcases h.hasMoreMessages getTime packetLostPeriod currentTime with
    ⟨hnone, hmore⟩ | ⟨a, m, b, s₁, rfl, hm, ha, hmore, hst₁, hat⟩
  · obtain ⟨hcount, hfilter, hkeep⟩ := no_match hnone
    refine ⟨s, ?_, hst, fun h => h, ?_⟩
    · rw [drain_last hmore, hfilter]
      rfl
    · rw [hcount, hkeep]
      simpa [arrived] using h
  · obtain ⟨hcount, hfilter, hkeep⟩ := left_parts (inFrame getTime packetLostPeriod currentTime) (b := b) hm ha
    obtain ⟨s₂, htake, hst₂, hat₂⟩ := hat.takeNext (hst₁.trans hst) rfl (arrivals 0) (arrivals 1)
    have hahead : (b.map (Slot.left (inFrame getTime packetLostPeriod currentTime)) ++
        come ((arrivals 0 ++ arrivals 1).map Arrival.given)).countP Slot.due < fuel := by
      rw [List.countP_append, countP_come]
      omega
    obtain ⟨s₃, hrest, hst₃, hit, hidle⟩ := hat₂.drain hst₂ 2 hahead
    rw [List.filter_append, filter_come, List.append_nil] at hrest
    refine ⟨s₃, ?_, hst₃, fun _ => hit, ?_⟩
    · rw [drain_next hmore htake hrest, ← hfilter]
      rfl
    · rw [List.countP_append, countP_come, Nat.add_zero] at hidle
      rw [rest_taken hm, hkeep, List.append_assoc] at hidle
      rw [← hcount, arrived_succ]
      exact hidle

/-- Messages with their times, of which the third is too old and the second too new. -/
def mixed : ObjectCommInterface (String × TIME) :=
  ⟨[some ("a", 5), some ("b", 9), some ("c", 1), some ("d", 7)], [], 0, none⟩

theorem drain_returns_current_mixed :
    ∃ s', drain Prod.snd 4 7 (fun k => if k < 2 then [⟨("e", 7), 4⟩] else []) 3 0 mixed =
        some (.ok ([some ("a", 5), some ("d", 7)], s')) ∧
      s'.st = none ∧ (mixed.it = 0 → s'.it = 0) ∧ s'.Idle [("b", 9), ("c", 1), ("e", 7), ("e", 7)] :=
  drain_returns_current (fun k => if k < 2 then [⟨("e", 7), 4⟩] else []) 3
    (⟨rfl, rfl⟩ : mixed.Idle [("a", 5), ("b", 9), ("c", 1), ("d", 7)]) rfl (by decide) (by decide) (by decide)

/-! ## All at once -/

/-- `getAllInboxMessages` splits the inbox into the messages of the time frame and the rest exactly when at most
one message is in the frame: the second erase misses its message by one. -/
theorem getAllInboxMessages_iff (hs : s.inbox = ms.map some) (hp : packetLostPeriod < ulongSize)
    (hc : currentTime < ulongSize) :
    s.getAllInboxMessages getTime packetLostPeriod currentTime =
        .ok ((ms.filter (current getTime packetLostPeriod currentTime)).map some,
          { s with inbox := (ms.filter fun m => !current getTime packetLostPeriod currentTime m).map some }) ↔
      ms.countP (current getTime packetLostPeriod currentTime) ≤ 1 := by
  rw [← inFrame_eq hp hc]
  generalize hframe : inFrame getTime packetLostPeriod currentTime = q
  have hread : (ms.findIdxs q).filterMap (fun i => (ms.map some)[i]?) = (ms.filter q).map some := by
    rw [← Positions.filterMap_findIdxs, List.map_filterMap]
    exact congrArg (List.filterMap · _) (funext fun i => List.getElem?_map)
  have herase : Positions.eraseAll 0 0 (ms.findIdxs q) (ms.map some) =
      (Positions.eraseAll 0 0 (ms.findIdxs q) ms).map (List.map some) := Positions.eraseAll_map some 0 0 _ ms
  have hinj : Function.Injective (List.map (some : μ → Option μ)) := List.map_injective_iff.mpr (Option.some_injective μ)
  have hcollect : collect getTime packetLostPeriod currentTime 0 (ms.map some) = .ok (ms.findIdxs q) := by
    rw [collect_map_some, hframe]
  rw [← Positions.eraseAll_unshifted_iff]
  cases he : Positions.eraseAll 0 0 (ms.findIdxs q) ms with
  | none => simp [getAllInboxMessages, hs, hcollect, herase, he, bind, Except.bind]
  | some l => simp [-List.getElem?_map, getAllInboxMessages, hs, hcollect, herase, he, hread, hinj.eq_iff, bind, Except.bind]

/-- One message of the time frame among others. -/
def single : ObjectCommInterface (String × TIME) := ⟨[some ("b", 9), some ("a", 5), some ("c", 1)], [], 0, none⟩

theorem getAllInboxMessages_single : single.getAllInboxMessages Prod.snd 4 7 =
    .ok ([some ("a", 5)], { single with inbox := [some ("b", 9), some ("c", 1)] }) := by
  have hs : single.inbox = [("b", 9), ("a", 5), ("c", 1)].map some := rfl
  have hone : [("b", 9), ("a", 5), ("c", 1)].countP (current Prod.snd 4 7) ≤ 1 := by decide
  exact (getAllInboxMessages_iff hs (by decide) (by decide)).mpr hone

/-- Two messages of the time frame: the second erase is at the end of the inbox. -/
theorem two_messages_erased_past_end :
    ¬ ∀ (s : ObjectCommInterface (String × TIME)) (ms : List (String × TIME)) (packetLostPeriod currentTime : TIME),
      s.inbox = ms.map some → packetLostPeriod < ulongSize → currentTime < ulongSize →
        s.getAllInboxMessages Prod.snd packetLostPeriod currentTime =
          .ok ((ms.filter (current Prod.snd packetLostPeriod currentTime)).map some,
            { s with inbox := (ms.filter fun m => !current Prod.snd packetLostPeriod currentTime m).map some }) := by
  intro h
  have hrun := h ⟨[some ("a", 0), some ("b", 0)], [], 0, none⟩ [("a", 0), ("b", 0)] 0 0 rfl (by decide) (by decide)
  have hcode : getAllInboxMessages (Prod.snd : String × TIME → TIME) 0 0
      ⟨[some ("a", 0), some ("b", 0)], [], 0, none⟩ = .error .outOfRange := by decide
  rw [hcode] at hrun
  cases hrun

end Fncs.ObjectCommInterface

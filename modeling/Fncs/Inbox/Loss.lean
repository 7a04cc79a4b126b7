/-
What becomes of the messages of an inbox, for any pattern of calls. A client may
ask more often than it takes: `hasMoreMessages` moves the iterator on whether or
not the message it stands at has been taken, and the call that ends an iteration
erases everything the iteration has passed.
-/
import Fncs.Inbox.Buffering

namespace Fncs

/-- An interface and a client that keeps what it is handed. -/
structure InboxReader (μ : Type) where
  interface : ObjectCommInterface μ
  /-- What the last `hasMoreMessages` returned. -/
  more : Bool
  /-- It returned true, and `getNextInboxMessage` has not been called since. -/
  untaken : Bool
  /-- So it was at an earlier `hasMoreMessages` of the iteration in progress. -/
  passedBy : Bool
  /-- The messages appended to the inbox. -/
  accepted : List μ
  /-- The messages `getNextInboxMessage` has returned. -/
  returned : List μ
  deriving DecidableEq, Repr

namespace InboxReader

open ObjectCommInterface
open InboxClient (Call)

/-- A call that the client does not make, or an access the source does not guard. -/
inductive Halt
  | notAllowed
  | fault (f : Fault)
  deriving DecidableEq, Repr

variable {μ : Type} (getTime : μ → TIME)

/-- The interface the constructor makes. -/
def start (st : Option BufferStrategy) : InboxReader μ := ⟨⟨[], [], 0, st⟩, false, false, false, [], []⟩

/-- One call; a message is asked for only while the last `hasMoreMessages` returned true. -/
def step (c : InboxReader μ) : Call μ → Except Halt (InboxReader μ)
  | .newMessage a =>
    match c.interface.buffers getTime a, c.interface.newMessage getTime a with
    | .ok b, .ok s => .ok { c with interface := s, accepted := if b then c.accepted ++ [a.given] else c.accepted }
    | .error f, _ | _, .error f => .error (.fault f)
  | .hasMoreMessages packetLostPeriod currentTime =>
    match c.interface.hasMoreMessages getTime packetLostPeriod currentTime with
    | .ok (more, s) => .ok { c with
        interface := s
        more := more
        untaken := more
        passedBy := more && (c.untaken || c.passedBy) }
    | .error f => .error (.fault f)
  | .getNextInboxMessage =>
    if c.more then
      match c.interface.getNextInboxMessage with
      | .ok (msg, s) => .ok { c with interface := s, untaken := false, returned := c.returned ++ msg.toList }
      | .error f => .error (.fault f)
    else .error .notAllowed

/-- The messages in the inbox. -/
def held (inbox : List (Option μ)) : List μ := inbox.filterMap id

/-- Every message that was appended is in the inbox or has been returned, once. -/
def Kept (c : InboxReader μ) : Prop := (c.returned ++ held c.interface.inbox).Perm c.accepted

/-- The call that ends an iteration comes when the client has taken a message
after each `hasMoreMessages` of the iteration. -/
def Thorough (c : InboxReader μ) : Call μ → Prop
  | .hasMoreMessages _ _ => c.interface.it + 1 = c.interface.msgs.length → c.untaken = false ∧ c.passedBy = false
  | _ => True

/-- Between iterations, or in one in which the flags tell what has been left behind. -/
def Placed (c : InboxReader μ) : Prop :=
  (∃ ms, c.interface.Idle ms ∧ c.more = false ∧ c.untaken = false ∧ c.passedBy = false) ∨
    ∃ l cur r, c.interface.At l cur r ∧ cur.taken = !c.untaken ∧
      (c.passedBy = false ↔ ∀ x ∈ l, x.due = true → x.taken = true)

variable {getTime} {c c' : InboxReader μ} {call : Call μ}

theorem held_map_some (ms : List μ) : held (ms.map some) = ms := by
  induction ms with
  | nil => rfl
  | cons m ms ih => exact congrArg (m :: ·) ih

theorem held_append (l r : List (Option μ)) : held (l ++ r) = held l ++ held r := List.filterMap_append

/-- A message not taken yet is in the inbox. -/
theorem held_cons (x : Slot μ) (l : List (Slot μ)) :
    held ((x :: l).map Slot.entry) = (if x.taken then [] else [x.msg]) ++ held (l.map Slot.entry) := by
  cases hx : x.taken <;> simp [held, Slot.entry, hx]

/-- What is erased at the end of an iteration: the due messages that were not taken. -/
theorem held_perm_rest (l : List (Slot μ)) (h : ∀ x ∈ l, x.taken = true → x.due = true) :
    (held (l.map Slot.entry)).Perm (rest l ++ (l.filter fun x => x.due && !x.taken).map Slot.msg) := by
  induction l with
  | nil => exact .refl _
  | cons x l ih =>
    have htail := ih fun y hy => h y (List.mem_cons_of_mem x hy)
    have hx := h x List.mem_cons_self
    rw [held_cons]
    cases hd : x.due with
    | false =>
      have ht : x.taken = false := by
        cases ht : x.taken with
        | false => rfl
        | true => exact absurd (hx ht) (by simp [hd])
      simpa [rest, hd, ht] using htail
    | true =>
      cases ht : x.taken with
      | true => simpa [rest, hd, ht] using htail
      | false =>
        have hmid : (x.msg :: held (l.map Slot.entry)).Perm
            (rest l ++ x.msg :: (l.filter fun x => x.due && !x.taken).map Slot.msg) :=
          (htail.cons x.msg).trans List.perm_middle.symm
        simpa [rest, hd, ht] using hmid

/-! ## One call at a time -/

/-- An arrival is appended to the inbox, or changes nothing. -/
theorem newMessage_cases {a : Arrival μ} (hs : c.step getTime (.newMessage a) = .ok c') :
    c' = c ∨ c' = { c with
      interface := { c.interface with inbox := c.interface.inbox ++ [some a.given] }
      accepted := c.accepted ++ [a.given] } := by
  cases hb : c.interface.buffers getTime a with
  | error f => simp [step, ObjectCommInterface.newMessage, hb] at hs
  | ok b =>
    cases b with
    | false =>
      simp only [step, ObjectCommInterface.newMessage, hb] at hs
      exact .inl (Except.ok.inj hs).symm
    | true =>
      simp only [step, ObjectCommInterface.newMessage, hb] at hs
      exact .inr (Except.ok.inj hs).symm

theorem Placed.newMessage {a : Arrival μ} (h : Placed c) (hs : c.step getTime (.newMessage a) = .ok c') :
    Placed c' ∧ (Kept c → Kept c') := by
  rcases newMessage_cases hs with rfl | rfl
  · exact ⟨h, id⟩
  · refine ⟨?_, fun hk => ?_⟩
    · rcases h with ⟨ms, hidle, hflags⟩ | ⟨l, cur, r, hat, hcur, hl⟩
      · exact .inl ⟨_, hidle.append a.given, hflags⟩
      · exact .inr ⟨_, _, _, hat.append a.given, hcur, hl⟩
    · show (c.returned ++ held (c.interface.inbox ++ [some a.given])).Perm (c.accepted ++ [a.given])
      rw [held_append, ← List.append_assoc]
      exact List.Perm.append_right _ hk

/-- A call that moves on leaves the inbox as it is. -/
theorem kept_moved {s : ObjectCommInterface μ} {more untaken passedBy : Bool}
    (hinbox : s.inbox = c.interface.inbox) (h : Kept c) :
    Kept ⟨s, more, untaken, passedBy, c.accepted, c.returned⟩ := by
  show (c.returned ++ held s.inbox).Perm c.accepted
  rw [hinbox]
  exact h

/-- What an iteration that ends here would lose. -/
def behind (l : List (Slot μ)) (cur : Slot μ) : List μ :=
  ((l ++ [cur]).filter fun x => x.due && !x.taken).map Slot.msg

theorem behind_eq_nil_iff {l : List (Slot μ)} {cur : Slot μ} (hdue : cur.due = true) (htaken : cur.taken = !c.untaken)
    (hl : c.passedBy = false ↔ ∀ x ∈ l, x.due = true → x.taken = true) :
    behind l cur = [] ↔ c.untaken = false ∧ c.passedBy = false := by
  rw [behind, List.map_eq_nil_iff, List.filter_eq_nil_iff, hl]
  constructor
  · intro h
    have hcur := h cur (by simp)
    refine ⟨by simpa [hdue, htaken] using hcur, fun x hx hd => ?_⟩
    have := h x (by simp [hx])
    simpa [hd] using this
  · intro h x hx
    obtain ⟨hcur, hl⟩ := h
    rcases List.mem_append.mp hx with hx | hx
    · cases hd : x.due with
      | false => simp
      | true => simp [hl x hx hd]
    · rw [List.mem_singleton.mp hx]
      simp [htaken, hcur]

/-- The last call of an iteration keeps every message exactly when nothing is left behind. -/
theorem kept_ended {l r : List (Slot μ)} {cur : Slot μ} {s : ObjectCommInterface μ} (hat : c.interface.At l cur r)
    (hlast : ∀ x ∈ r, x.due = false) (hidle : s.Idle (rest (l ++ cur :: r))) (hk : Kept c) :
    Kept ⟨s, false, false, false, c.accepted, c.returned⟩ ↔ behind l cur = [] := by
  have htaken : ∀ x ∈ l ++ cur :: r, x.taken = true → x.due = true := by
    intro x hx ht
    rcases List.mem_append.mp hx with hx | hx
    · exact hat.behind x hx ht
    · rcases List.mem_cons.mp hx with rfl | hx
      · exact hat.due
      · simp [hat.ahead x hx] at ht
  have hlost : ((l ++ cur :: r).filter fun x => x.due && !x.taken).map Slot.msg = behind l cur := by
    have hnone : (r.filter fun x => x.due && !x.taken) = [] :=
      List.filter_eq_nil_iff.mpr fun x hx => by simp [hlast x hx]
    rw [List.append_cons, List.filter_append, hnone, List.append_nil]
    rfl
  have hheld := held_perm_rest _ htaken
  rw [hlost, ← hat.inbox] at hheld
  show (c.returned ++ held s.inbox).Perm c.accepted ↔ _
  rw [hidle.inbox, held_map_some]
  have hall : (c.returned ++ (rest (l ++ cur :: r) ++ behind l cur)).Perm c.accepted :=
    (hheld.symm.append_left c.returned).trans hk
  constructor
  · intro h
    have hlen := (h.trans hall.symm).length_eq
    rw [← List.length_eq_zero_iff]
    simp only [List.length_append] at hlen
    omega
  · intro h
    rwa [h, List.append_nil] at hall

theorem hasMoreMessages_ok {packetLostPeriod currentTime : TIME} {more : Bool} {s : ObjectCommInterface μ}
    (hmore : c.interface.hasMoreMessages getTime packetLostPeriod currentTime = .ok (more, s))
    (hs : c.step getTime (.hasMoreMessages packetLostPeriod currentTime) = .ok c') :
    c' = { c with interface := s, more := more, untaken := more, passedBy := more && (c.untaken || c.passedBy) } := by
  simp only [step, hmore] at hs
  exact (Except.ok.inj hs).symm

/-- Asking moves on, or ends the iteration; it loses no message exactly when it is thorough. -/
theorem Placed.hasMoreMessages {packetLostPeriod currentTime : TIME} (h : Placed c)
    (hs : c.step getTime (.hasMoreMessages packetLostPeriod currentTime) = .ok c') :
    Placed c' ∧ (Kept c → (Kept c' ↔ c.Thorough (.hasMoreMessages packetLostPeriod currentTime))) := by
  rcases h with ⟨ms, hidle, -, huntaken, hpassed⟩ | ⟨l, cur, r, hat, hcur, hl⟩
  · have hthorough : c.Thorough (.hasMoreMessages packetLostPeriod currentTime) := fun _ => ⟨huntaken, hpassed⟩
    rcases hidle.hasMoreMessages getTime packetLostPeriod currentTime with
      ⟨-, hmore⟩ | ⟨a, m, b, s, rfl, -, ha, hmore, -, hat⟩
    · obtain rfl := hasMoreMessages_ok hmore hs
      exact ⟨.inl ⟨ms, hidle, rfl, rfl, rfl⟩, fun hk => iff_of_true (kept_moved rfl hk) hthorough⟩
    · obtain rfl := hasMoreMessages_ok hmore hs
      have hinbox : s.inbox = c.interface.inbox := by
        rw [hat.inbox, hidle.inbox, ← List.map_cons, ← List.map_append, List.map_map]
        rfl
      refine ⟨.inr ⟨_, _, _, hat, rfl, ?_⟩, fun hk => iff_of_true (kept_moved hinbox hk) hthorough⟩
      simp only [huntaken, hpassed]
      refine iff_of_true rfl fun x hx hd => ?_
      obtain ⟨m', hm', rfl⟩ := List.mem_map.mp hx
      exact absurd ((ha m' hm').symm.trans hd) Bool.false_ne_true
  · rcases first_match Slot.due r with hnone | ⟨a, x, b, rfl, hx, ha⟩
    · obtain ⟨s, hmore, -, -, hidle⟩ := hat.hasMoreMessages_last getTime packetLostPeriod currentTime hnone
      obtain rfl := hasMoreMessages_ok hmore hs
      refine ⟨.inl ⟨_, hidle, rfl, rfl, rfl⟩, fun hk => ?_⟩
      rw [Thorough, hat.last_iff, forall_prop_of_true hnone, ← behind_eq_nil_iff hat.due hcur hl]
      exact kept_ended hat hnone hidle hk
    · obtain ⟨s, hmore, -, hnext⟩ := hat.hasMoreMessages_next getTime packetLostPeriod currentTime ha hx
      obtain rfl := hasMoreMessages_ok hmore hs
      have hinbox : s.inbox = c.interface.inbox := by
        rw [hnext.inbox, hat.inbox]
        simp
      have hnot : ¬ ∀ y ∈ a ++ x :: b, y.due = false := fun hall => by simp [hall x (by simp)] at hx
      refine ⟨.inr ⟨_, _, _, hnext, ?_, ?_⟩, fun hk => iff_of_true (kept_moved hinbox hk) ?_⟩
      · exact hat.ahead x (by simp)
      · show (c.untaken || c.passedBy) = false ↔ _
        rw [Bool.or_eq_false_iff, hl]
        constructor
        · intro h y hy hd
          obtain ⟨huntaken, hbefore⟩ := h
          rcases List.mem_append.mp hy with hy | hy
          · exact hbefore y hy hd
          · rcases List.mem_cons.mp hy with rfl | hy
            · rw [hcur, huntaken]
              rfl
            · simp [ha y hy] at hd
        · intro h
          have htaken := h cur (by simp) hat.due
          exact ⟨by simpa [hcur] using htaken, fun y hy hd => h y (by simp [hy]) hd⟩
      · intro hlast
        exact absurd (hat.last_iff.mp hlast) hnot

/-- Taking hands over the message the iterator stands at, unless it has been taken. -/
theorem Placed.getNextInboxMessage (h : Placed c) (hs : c.step getTime .getNextInboxMessage = .ok c') :
    Placed c' ∧ (Kept c → Kept c') := by
  simp only [step] at hs
  split at hs
  · next hmore =>
    rcases h with ⟨ms, -, hno, -⟩ | ⟨l, cur, r, hat, hcur, hl⟩
    · rw [hmore] at hno
      cases hno
    · obtain ⟨s, hnext, -, hat'⟩ := hat.getNextInboxMessage
      simp only [hnext] at hs
      obtain rfl := Except.ok.inj hs
      refine ⟨.inr ⟨_, _, _, hat', rfl, hl⟩, fun hk => ?_⟩
      have hbefore : held c.interface.inbox =
          held (l.map Slot.entry) ++ (cur.entry.toList ++ held (r.map Slot.entry)) := by
        rw [hat.inbox, List.map_append, held_append, held_cons]
        cases ht : cur.taken <;> simp [Slot.entry, ht]
      have hafter : held s.inbox = held (l.map Slot.entry) ++ held (r.map Slot.entry) := by
        rw [hat'.inbox, List.map_append, held_append, held_cons]
        rfl
      show (c.returned ++ cur.entry.toList ++ held s.inbox).Perm c.accepted
      refine .trans ?_ hk
      rw [hafter, hbefore, List.append_assoc]
      refine .append_left c.returned ?_
      rw [← List.append_assoc, ← List.append_assoc]
      exact List.perm_append_comm.append_right _
  · cases hs

/-! ## Runs -/

theorem Placed.step (h : Placed c) (hs : c.step getTime call = .ok c') :
    Placed c' ∧ (Kept c → (Kept c' ↔ c.Thorough call)) := by
  cases call with
  | newMessage a =>
    obtain ⟨hp, hk⟩ := h.newMessage hs
    exact ⟨hp, fun h => iff_of_true (hk h) trivial⟩
  | hasMoreMessages packetLostPeriod currentTime => exact h.hasMoreMessages hs
  | getNextInboxMessage =>
    obtain ⟨hp, hk⟩ := h.getNextInboxMessage hs
    exact ⟨hp, fun h => iff_of_true (hk h) trivial⟩

/-- A run loses no message, and returns none twice, exactly when every iteration that ends was thorough. -/
theorem kept_iff (getTime : μ → TIME) (st : Option BufferStrategy) (calls : List (Call μ)) :
    Trace.Always (step getTime) Kept (start st) calls ↔ Trace.Guarded (step getTime) Thorough (start st) calls := by
  refine Trace.always_iff_guarded (J := Placed) (fun c call c' h hs => (h.step hs).1) ?_ ?_ (.refl _)
  · intro c call c' h hk hs
    exact (h.step hs).2 hk
  · exact .inl ⟨[], ⟨rfl, rfl⟩, rfl, rfl, rfl⟩

/-- A client that asks before it enters its loop: the second call moves past the message. -/
def asksTwice : List (Call (String × TIME)) :=
  [.newMessage ⟨("a", 0), 0⟩, .hasMoreMessages 0 0, .hasMoreMessages 0 0]

theorem message_lost :
    (∃ c, Trace.run (step Prod.snd) (start none) asksTwice = .ok c ∧ c.interface.inbox = [] ∧ c.returned = []) ∧
    ¬ ∀ (st : Option BufferStrategy) (calls : List (Call (String × TIME))),
      Trace.Always (step Prod.snd) Kept (start st) calls := by
  refine ⟨⟨_, rfl, rfl, rfl⟩, fun hall => ?_⟩
  have hlast := ((hall none asksTwice).last rfl).length_eq
  cases hlast

end InboxReader

end Fncs

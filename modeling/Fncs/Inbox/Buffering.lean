/-
A client that takes messages and a strategy that looks at the inbox, in any
order of calls and arrivals. What the client has taken is still in the inbox as
a placeholder until its iteration ends, and the strategies do not know about
placeholders: one is dereferenced, or counts as a message to keep.
-/
import Fncs.Inbox.Iteration
import Fncs.Lib.Trace

namespace Fncs

/-- How consumption and buffering get in each other's way. -/
inductive Harm
  | fault (f : Fault)
  /-- `getNextInboxMessage` returns null. -/
  | nullReturned
  /-- An arrival is rejected and the inbox holds nothing but what the client has taken. -/
  | rejectedForTaken
  deriving DecidableEq, Repr

/-- An interface and its client. `mayTake` is that the client's last call was a
`hasMoreMessages` that returned true. -/
structure InboxClient (μ : Type) where
  interface : ObjectCommInterface μ
  mayTake : Bool
  harm : Option Harm
  deriving DecidableEq, Repr

namespace InboxClient

open ObjectCommInterface

inductive Call (μ : Type)
  | newMessage (a : Arrival μ)
  | hasMoreMessages (packetLostPeriod currentTime : TIME)
  | getNextInboxMessage
  deriving DecidableEq, Repr

/-- A call that the client does not make, or a run that has come to harm. -/
inductive Halt
  | notAllowed
  | over
  deriving DecidableEq, Repr

variable {μ : Type} (getTime : μ → TIME)

/-- The interface the constructor makes. -/
def start (st : Option BufferStrategy) : InboxClient μ := ⟨⟨[], [], 0, st⟩, false, none⟩

/-- The inbox holds placeholders and nothing else. -/
def onlyTaken (inbox : List (Option μ)) : Bool := !inbox.isEmpty && inbox.all Option.isNone

/-- One call; a message is taken only right after a true `hasMoreMessages`. -/
def step (c : InboxClient μ) (call : Call μ) : Except Halt (InboxClient μ) :=
  if c.harm ≠ none then .error .over
  else
    match call with
    | .newMessage a =>
      match c.interface.buffers getTime a, c.interface.newMessage getTime a with
      | .ok false, .ok s =>
        .ok { c with interface := s, harm := if onlyTaken c.interface.inbox then some .rejectedForTaken else none }
      | _, .ok s => .ok { c with interface := s }
      | _, .error f => .ok { c with harm := some (.fault f) }
    | .hasMoreMessages packetLostPeriod currentTime =>
      match c.interface.hasMoreMessages getTime packetLostPeriod currentTime with
      | .ok (more, s) => .ok { c with interface := s, mayTake := more }
      | .error f => .ok { c with harm := some (.fault f) }
    | .getNextInboxMessage =>
      if c.mayTake then
        match c.interface.getNextInboxMessage with
        | .ok (msg, s) =>
          .ok { interface := s, mayTake := false, harm := if msg.isNone then some .nullReturned else none }
        | .error f => .ok { c with harm := some (.fault f) }
      else .error .notAllowed

/-- No strategy looks at the arrival, or what it looks at is a message: the
first of the inbox for `KeepLastStrategy`, any for `KeepFirstStrategy`. -/
def Undisturbed (c : InboxClient μ) : Call μ → Prop
  | .newMessage a =>
    match c.interface.st with
    | none => True
    | some .keepLast => a.numberOfMessage = 0 ∨ ∃ m, c.interface.inbox[0]? = some (some m)
    | some .keepFirst => a.numberOfMessage = 0 ∨ onlyTaken c.interface.inbox = false
  | _ => True

/-- Between iterations, or in one whose placeholders are not ahead of the iterator. -/
def Steady (c : InboxClient μ) : Prop :=
  (∃ ms, c.interface.Idle ms ∧ c.mayTake = false) ∨
    ∃ l cur r, c.interface.At l cur r ∧ (c.mayTake = true → cur.taken = false)

variable {getTime} {c c' : InboxClient μ} {call : Call μ}

/-- What a strategy decides about an arrival, and when it must not be asked. -/
theorem buffers_cases (getTime : μ → TIME) (c : InboxClient μ) (a : Arrival μ) :
    c.interface.buffers getTime a = .ok true ∧ c.Undisturbed (.newMessage a) ∨
      c.interface.buffers getTime a = .ok false ∧
        (c.Undisturbed (.newMessage a) ↔ onlyTaken c.interface.inbox = false) ∨
      (∃ f, c.interface.buffers getTime a = .error f) ∧ ¬ c.Undisturbed (.newMessage a) := by
  unfold buffers Undisturbed
  cases hst : c.interface.st with
  | none => exact .inl ⟨rfl, trivial⟩
  | some st =>
    by_cases h0 : a.numberOfMessage = 0
    · left
      cases st <;> simp [BufferStrategy.doBufferMessage, h0]
    · cases st with
      | keepFirst =>
        right; left
        simp [BufferStrategy.doBufferMessage, h0]
      | keepLast =>
        cases hfirst : c.interface.inbox[0]? with
        | none =>
          right; right
          simp [BufferStrategy.doBufferMessage, h0, hfirst]
        | some first =>
          cases first with
          | none =>
            right; right
            simp [BufferStrategy.doBufferMessage, h0, hfirst]
          | some m =>
            have hlive : onlyTaken c.interface.inbox = false := by
              rw [onlyTaken, Bool.and_eq_false_iff, List.all_eq_false]
              exact .inr ⟨some m, List.mem_of_getElem? hfirst, by simp⟩
            by_cases hle : getTime m ≤ getTime a.given
            · left
              simp [BufferStrategy.doBufferMessage, h0, hfirst, hle]
            · right; left
              simp [BufferStrategy.doBufferMessage, h0, hfirst, hle, hlive]

/-- A buffered message leaves an iteration as it is. -/
theorem Steady.append (h : Steady c) (m : μ) :
    Steady { c with interface := { c.interface with inbox := c.interface.inbox ++ [some m] } } := by
  rcases h with ⟨ms, hidle, htake⟩ | ⟨l, cur, r, hat, htake⟩
  · exact .inl ⟨_, hidle.append m, htake⟩
  · exact .inr ⟨_, _, _, hat.append m, htake⟩

/-- An arrival does no harm exactly when it is undisturbed. -/
theorem Steady.newMessage (h : Steady c) (hharm : c.harm = none) {a : Arrival μ}
    (hs : c.step getTime (.newMessage a) = .ok c') : c.Undisturbed (.newMessage a) ∧ c'.harm = none ∧ Steady c' ∨
      ¬ c.Undisturbed (.newMessage a) ∧ c'.harm ≠ none := by
  rw [InboxClient.step, if_neg (not_not.mpr hharm)] at hs
  rcases buffers_cases getTime c a with ⟨hb, hu⟩ | ⟨hb, hu⟩ | ⟨⟨f, hb⟩, hu⟩
  · left
    simp only [ObjectCommInterface.newMessage, hb] at hs
    obtain rfl := Except.ok.inj hs
    exact ⟨hu, hharm, h.append a.given⟩
  · simp only [ObjectCommInterface.newMessage, hb] at hs
    obtain rfl := Except.ok.inj hs
    rw [hu]
    cases honly : onlyTaken c.interface.inbox with
    | false => exact .inl ⟨rfl, rfl, h⟩
    | true => exact .inr ⟨by simp, by simp⟩
  · right
    simp only [ObjectCommInterface.newMessage, hb] at hs
    obtain rfl := Except.ok.inj hs
    exact ⟨hu, by simp⟩

/-- Asking does no harm: what an iteration still has ahead of it are messages. -/
theorem Steady.hasMoreMessages (h : Steady c) (hharm : c.harm = none) {packetLostPeriod currentTime : TIME}
    (hs : c.step getTime (.hasMoreMessages packetLostPeriod currentTime) = .ok c') : c'.harm = none ∧ Steady c' := by
  rw [InboxClient.step, if_neg (not_not.mpr hharm)] at hs
  rcases h with ⟨ms, hidle, htake⟩ | ⟨l, cur, r, hat, -⟩
  · rcases hidle.hasMoreMessages getTime packetLostPeriod currentTime with
      ⟨-, hmore⟩ | ⟨a, m, b, s, -, -, -, hmore, -, hat⟩
    · simp only [hmore] at hs
      obtain rfl := Except.ok.inj hs
      exact ⟨hharm, .inl ⟨ms, hidle, rfl⟩⟩
    · simp only [hmore] at hs
      obtain rfl := Except.ok.inj hs
      exact ⟨hharm, .inr ⟨_, _, _, hat, fun _ => rfl⟩⟩
  · rcases first_match Slot.due r with hnone | ⟨a, x, b, rfl, hx, ha⟩
    · obtain ⟨s, hmore, -, -, hidle⟩ := hat.hasMoreMessages_last getTime packetLostPeriod currentTime hnone
      simp only [hmore] at hs
      obtain rfl := Except.ok.inj hs
      exact ⟨hharm, .inl ⟨_, hidle, rfl⟩⟩
    · obtain ⟨s, hmore, -, hnext⟩ := hat.hasMoreMessages_next getTime packetLostPeriod currentTime ha hx
      have hleft : x.taken = false := hat.ahead x (by simp)
      simp only [hmore] at hs
      obtain rfl := Except.ok.inj hs
      exact ⟨hharm, .inr ⟨_, _, _, hnext, fun _ => hleft⟩⟩

/-- Nor does taking, right after a true `hasMoreMessages`. -/
theorem Steady.getNextInboxMessage (h : Steady c) (hharm : c.harm = none)
    (hs : c.step getTime .getNextInboxMessage = .ok c') : c'.harm = none ∧ Steady c' := by
  rw [InboxClient.step, if_neg (not_not.mpr hharm)] at hs
  split at hs
  · next hmay =>
    rcases h with ⟨ms, -, htake⟩ | ⟨l, cur, r, hat, htake⟩
    · rw [hmay] at htake
      cases htake
    · obtain ⟨s, hnext, -, hat'⟩ := hat.getNextInboxMessage
      have hentry : cur.entry = some cur.msg := by simp [Slot.entry, htake hmay]
      rw [hnext, hentry] at hs
      obtain rfl := Except.ok.inj hs
      exact ⟨rfl, .inr ⟨_, _, _, hat', fun h => by cases h⟩⟩
  · cases hs

/-- No call is made once a run has come to harm. -/
theorem harmless_before (hs : c.step getTime call = .ok c') : c.harm = none := by
  by_contra hne
  unfold step at hs
  rw [if_pos hne] at hs
  cases hs

/-- A step does no harm and goes on steadily exactly when it is undisturbed. -/
theorem Steady.step (h : Steady c) (hs : c.step getTime call = .ok c') :
    c.Undisturbed call ∧ c'.harm = none ∧ Steady c' ∨ ¬ c.Undisturbed call ∧ c'.harm ≠ none := by
  have hharm := harmless_before hs
  cases call with
  | newMessage a => exact h.newMessage hharm hs
  | hasMoreMessages packetLostPeriod currentTime => exact .inl ⟨trivial, h.hasMoreMessages hharm hs⟩
  | getNextInboxMessage => exact .inl ⟨trivial, h.getNextInboxMessage hharm hs⟩

theorem steady_start (st : Option BufferStrategy) : Steady (start st : InboxClient μ) := .inl ⟨[], ⟨rfl, rfl⟩, rfl⟩

/-- A run does no harm exactly when no arrival meets a strategy that looks at a placeholder. -/
theorem harmless_iff (getTime : μ → TIME) (st : Option BufferStrategy) (calls : List (Call μ)) :
    Trace.Always (step getTime) (fun c => c.harm = none) (start st) calls ↔
      Trace.Guarded (step getTime) Undisturbed (start st) calls := by
  refine Trace.always_iff_guarded (J := fun c => c.harm = none → Steady c) ?_ ?_ (fun _ => steady_start st) rfl
  · intro c call c' hj hs hharm
    rcases (hj (harmless_before hs)).step hs with ⟨-, -, h⟩ | ⟨-, h⟩
    · exact h
    · exact absurd hharm h
  · intro c call c' hj hharm hs
    rcases (hj hharm).step hs with ⟨hu, h, -⟩ | ⟨hu, h⟩
    · exact iff_of_true h hu
    · exact iff_of_false h hu

/-- One message, taken in the time step it came in, and another one before the client asks again. Each time the
strategy gets the size of the inbox. -/
def takenThenArrival : List (Call (String × TIME)) :=
  [.newMessage ⟨("a", 0), 0⟩, .hasMoreMessages 0 0, .getNextInboxMessage, .newMessage ⟨("b", 1), 1⟩]

/-- `KeepFirstStrategy` rejects the second message for the sake of the one that is gone, and `KeepLastStrategy`
dereferences its placeholder. -/
theorem arrival_after_taking_harms :
    (∃ c, Trace.run (step Prod.snd) (start (some .keepFirst)) takenThenArrival = .ok c ∧
      c.harm = some .rejectedForTaken) ∧
    (∃ c, Trace.run (step Prod.snd) (start (some .keepLast)) takenThenArrival = .ok c ∧
      c.harm = some (.fault .nullDereference)) ∧
    ¬ ∀ (st : Option BufferStrategy) (calls : List (Call (String × TIME))),
      Trace.Always (step Prod.snd) (fun c => c.harm = none) (start st) calls := by
  refine ⟨⟨_, rfl, rfl⟩, ⟨_, rfl, rfl⟩, fun hall => ?_⟩
  have hlast := (hall (some .keepFirst) takenThenArrival).last rfl
  cases hlast

end InboxClient

end Fncs

/-
An object's inbox (`objectcomminterface.cpp`): arrivals through a buffer
strategy, the iterator `hasMoreMessages` / `getNextInboxMessage`, and
`getAllInboxMessages`. A message the iterator has handed out leaves a null
placeholder behind until the iteration ends. Of a message only the time is
looked at, so messages are of any type `μ` with a `getTime`; which of two equal
messages is meant is decided by taking identifiers for `μ`. The outbox and the
notifier are left out. Positions are an `int` in the source: no inbox has 2³¹ entries.
-/
import Fncs.Lib.Positions
import Fncs.Sync.Traffic

namespace Fncs

/-- The strategies of `objectcomminterface.h`. -/
inductive BufferStrategy
  | keepLast
  | keepFirst
  deriving DecidableEq, Repr

/-- What an access does that the source does not guard. -/
inductive Fault
  /-- A member function of a null `Message*`. -/
  | nullDereference
  /-- A position that the vector does not have. -/
  | outOfRange
  deriving DecidableEq, Repr

/-- A null entry is `none`. `it` is the iterator into `msgs`, as an offset. -/
structure ObjectCommInterface (μ : Type) where
  inbox : List (Option μ)
  msgs : List ℕ
  it : ℕ
  st : Option BufferStrategy
  deriving DecidableEq, Repr

/-- A message with what `getNumberOfMessage` hands to the strategy for it. The
body of that function evaluates the size of the inbox but has no return
statement, so any `int` is possible. -/
structure Arrival (μ : Type) where
  given : μ
  numberOfMessage : ℤ
  deriving DecidableEq, Repr

/-- `doBufferMessage` of either strategy. -/
def BufferStrategy.doBufferMessage {μ : Type} (getTime : μ → TIME) (inbox : List (Option μ)) (a : Arrival μ) :
    BufferStrategy → Except Fault Bool
  | .keepLast =>
    if a.numberOfMessage = 0 then .ok true
    else
      match inbox[0]? with
      | none => .error .outOfRange
      | some none => .error .nullDereference
      | some (some first) => .ok (decide (getTime a.given ≥ getTime first))
  | .keepFirst => .ok (decide (a.numberOfMessage = 0))

namespace ObjectCommInterface

variable {μ : Type} (getTime : μ → TIME)

/-- A message of the current time frame. -/
def inFrame (packetLostPeriod currentTime : TIME) (msg : μ) : Bool :=
  decide (getTime msg ≤ currentTime) && decide (getTime msg ≥ graceTime currentTime packetLostPeriod)

/-- The loop over the inbox that collects the positions of the current time frame, from position `i` on. -/
def collect (packetLostPeriod currentTime : TIME) : ℕ → List (Option μ) → Except Fault (List ℕ)
  | _, [] => .ok []
  | _, none :: _ => .error .nullDereference
  | i, some msg :: inbox =>
    (collect packetLostPeriod currentTime (i + 1) inbox).map fun locs =>
      if inFrame getTime packetLostPeriod currentTime msg then i :: locs else locs

/-- The messages at the collected positions, and the inbox after the erases, none of which is shifted. -/
def getAllInboxMessages (packetLostPeriod currentTime : TIME) (s : ObjectCommInterface μ) :
    Except Fault (List (Option μ) × ObjectCommInterface μ) := do
  let locs ← collect getTime packetLostPeriod currentTime 0 s.inbox
  match Positions.eraseAll 0 0 locs s.inbox with
  | none => .error .outOfRange
  | some inbox => .ok (locs.filterMap fun i => s.inbox[i]?, { s with inbox := inbox })

/-- Starts an iteration when none is in progress, moves on otherwise; the end of
an iteration erases its messages, each position shifted by the erases before. -/
def hasMoreMessages (packetLostPeriod currentTime : TIME) (s : ObjectCommInterface μ) :
    Except Fault (Bool × ObjectCommInterface μ) :=
  if s.msgs = [] then
    (collect getTime packetLostPeriod currentTime 0 s.inbox).map fun locs =>
      if locs = [] then (false, s) else (true, { s with msgs := locs, it := 0 })
  else if s.it + 1 = s.msgs.length then
    match Positions.eraseAll 1 0 s.msgs s.inbox with
    | none => .error .outOfRange
    | some inbox => .ok (false, { s with inbox := inbox, msgs := [], it := 0 })
  else .ok (true, { s with it := s.it + 1 })

/-- The entry the iterator stands at, which becomes null. -/
def getNextInboxMessage (s : ObjectCommInterface μ) : Except Fault (Option μ × ObjectCommInterface μ) :=
  match s.msgs[s.it]? with
  | none => .error .outOfRange
  | some i =>
    match s.inbox[i]? with
    | none => .error .outOfRange
    | some toReturn => .ok (toReturn, { s with inbox := s.inbox.set i none })

/-- Whether an arrival is buffered: always without a strategy. -/
def buffers (s : ObjectCommInterface μ) (a : Arrival μ) : Except Fault Bool :=
  match s.st with
  | none => .ok true
  | some st => st.doBufferMessage getTime s.inbox a

def newMessage (s : ObjectCommInterface μ) (a : Arrival μ) : Except Fault (ObjectCommInterface μ) :=
  (s.buffers getTime a).map fun b => if b then { s with inbox := s.inbox ++ [some a.given] } else s

end ObjectCommInterface

end Fncs

/-
The broker's publications at a subscriber (`ZmqNetworkInterface::processSubMessage`).
The killer socket delivers every frame in order. What a control word is followed
by is a convention between `fncsbroker.cpp` and `processSubMessage`, and how much
the latter takes depends on the process it runs in.
-/
import Fncs.Broker.State
import Fncs.Lib.Codec
import Fncs.Lib.Trace

namespace Fncs.Killer

open Codec

abbrev Frame := List UInt8

/-- What the broker sends on its killer socket. DIE comes from `graceful_death`. -/
inductive Publication
  | die
  | other (p : Broker.Publication)
  deriving DecidableEq, Repr

def bytesOf (s : String) : List UInt8 := s.toList.map fun c => .ofNat c.toNat

namespace Publication

def control : Publication → String
  | .die => "DIE"
  | .other .finished => "FINISHED"
  | .other .dieChild => "DIE_CHILD"
  | .other (.childDied _) => "CHILD_DIED"
  | .other (.dieParent _) => "DIE_PARENT"

/-- The time after CHILD_DIED is a message of its own, the context after DIE_PARENT
a second part of its message: a subscriber takes the one like the other. -/
def payload : Publication → List Frame
  | .other (.childDied time) => [leBytes 8 time]
  | .other (.dieParent context) => [leBytes 4 (context % 2 ^ 32).toNat]
  | _ => []

/-- A string literal is sent with its final NUL. -/
def frames (p : Publication) : List Frame := (bytesOf p.control ++ [0]) :: p.payload

end Publication

/-- What `processSubMessage` asks of its process. -/
structure Process where
  isChild : Bool
  context : ℤ
  iAmNetSim : Bool
  curSimTime : TIME
  deriving DecidableEq, Repr

/-- How a process ends in `processSubMessage`. -/
inductive Ending
  | died
  /-- After sending FINISHED. -/
  | finished
  /-- After sending REDUCE_FAIL_TIME. -/
  | failed (time : TIME)
  | succeeded
  /-- After sending DIE. -/
  | unrecognized
  | assertion
  deriving DecidableEq, Repr

inductive Fault
  /-- Waiting for a frame. -/
  | blocked
  | assertion
  /-- The process has ended. -/
  | ended
  deriving DecidableEq, Repr

/-- `zmqx_recv` of a string. -/
def recvString : List Frame → Except Fault (List UInt8 × List Frame)
  | [] => .error .blocked
  | f :: rest => .ok ((f.take 255).takeWhile (· ≠ 0), rest)

/-- `zmqx_recv` of a number of `n` bytes. -/
def recvNumber (n : ℕ) : List Frame → Except Fault (ℕ × List Frame)
  | [] => .error .blocked
  | f :: rest => if f.length = n then .ok (leValue f, rest) else .error .assertion

/-- What a call of `processSubMessage` leaves; `control` is what it took for the control word. -/
structure Processed where
  control : List UInt8
  ending : Option Ending
  left : List Frame
  deriving DecidableEq, Repr

/-- The branches of `processSubMessage`, once the control word is there. -/
def processControl (p : Process) (control : List UInt8) (frames : List Frame) : Except Fault Processed :=
  if control = bytesOf "DIE" then .ok ⟨control, some .died, frames⟩
  else if control = bytesOf "FINISHED" then .ok ⟨control, some .finished, frames⟩
  else if control = bytesOf "DIE_CHILD" then
    if p.isChild then .ok ⟨control, some (.failed (if p.iAmNetSim then Infinity else p.curSimTime)), frames⟩
    else .ok ⟨control, none, frames⟩
  else if control = bytesOf "CHILD_DIED" then
    if p.isChild then .ok ⟨control, none, frames⟩
    else do
      let (_, frames) ← recvNumber 8 frames
      .ok ⟨control, none, frames⟩
  else if control = bytesOf "DIE_PARENT" then do
    let (pcontext, frames) ← recvNumber 4 frames
    if ¬ p.isChild ∧ p.context = Int.bmod pcontext (2 ^ 32) then .ok ⟨control, some .succeeded, frames⟩
    else .ok ⟨control, none, frames⟩
  else .ok ⟨control, some .unrecognized, frames⟩

def processSubMessage (p : Process) (frames : List Frame) : Except Fault Processed := do
  let (control, frames) ← recvString frames
  processControl p control frames

/-- A subscriber: what has been published, the frames it has not taken yet, and
what it has taken for control words. -/
structure Subscriber where
  published : List Publication
  frames : List Frame
  controls : List (List UInt8)
  ending : Option Ending
  deriving DecidableEq, Repr

def Subscriber.start : Subscriber := ⟨[], [], [], none⟩

/-- What the process is may change between two calls. -/
inductive Event
  | publish (q : Publication)
  | processSubMessage (p : Process)
  deriving DecidableEq, Repr

def step (s : Subscriber) : Event → Except Fault Subscriber
  | .publish q => .ok { s with published := s.published ++ [q], frames := s.frames ++ q.frames }
  | .processSubMessage p =>
    if s.ending.isSome then .error .ended
    else
      match processSubMessage p s.frames with
      | .error .assertion => .ok { s with ending := some .assertion }
      | .error why => .error why
      | .ok r => .ok { s with frames := r.left, controls := s.controls ++ [r.control], ending := r.ending }

/-- Every call has taken one publication, and its control word for what it is. -/
structure Aligned (s : Subscriber) : Prop where
  controls : s.controls = (s.published.take s.controls.length).map fun q => bytesOf q.control
  frames : s.ending = none → s.frames = (s.published.drop s.controls.length).flatMap Publication.frames
  recognized : s.ending ≠ some .unrecognized
  sized : s.ending ≠ some .assertion

/-- A child does not get to see a CHILD_DIED. -/
def Spared (s : Subscriber) : Event → Prop
  | .publish _ => True
  | .processSubMessage p => ∀ time, s.published[s.controls.length]? = some (.other (.childDied time)) → p.isChild = false

/-- What a publication does to the process that takes it. -/
def Publication.ending (p : Process) : Publication → Option Ending
  | .die => some .died
  | .other .finished => some .finished
  | .other .dieChild => if p.isChild then some (.failed (if p.iAmNetSim then Infinity else p.curSimTime)) else none
  | .other (.childDied _) => none
  | .other (.dieParent context) =>
    if ¬ p.isChild ∧ p.context = Int.bmod (context % 2 ^ 32).toNat (2 ^ 32) then some .succeeded else none

/-- The payload that a process leaves behind. -/
def Publication.leftBy (p : Process) : Publication → List Frame
  | .other (.childDied time) => if p.isChild then [leBytes 8 time] else []
  | _ => []

variable {p : Process} {q : Publication} {s s' : Subscriber} {e : Event}

/-- The control words are short and have no NUL of their own. -/
theorem received_control : ∀ w ∈ ["DIE", "FINISHED", "DIE_CHILD", "CHILD_DIED", "DIE_PARENT"],
    ((bytesOf w ++ [0]).take 255).takeWhile (· ≠ 0) = bytesOf w := by decide

theorem recvString_control (q : Publication) (rest : List Frame) :
    recvString ((bytesOf q.control ++ [0]) :: rest) = .ok (bytesOf q.control, rest) := by
  have hword : q.control ∈ ["DIE", "FINISHED", "DIE_CHILD", "CHILD_DIED", "DIE_PARENT"] := by
    cases q with
    | die => simp [Publication.control]
    | other o => cases o <;> simp [Publication.control]
  rw [recvString, received_control _ hword]

theorem recvNumber_of_length {n : ℕ} {f : Frame} (h : f.length = n) (rest : List Frame) :
    recvNumber n (f :: rest) = .ok (leValue f, rest) := if_pos h

/-- A publication is taken for what it is; a child leaves the time of a CHILD_DIED. -/
theorem processControl_control (p : Process) (q : Publication) (rest : List Frame) :
    processControl p (bytesOf q.control) (q.payload ++ rest) =
      .ok ⟨bytesOf q.control, q.ending p, q.leftBy p ++ rest⟩ := by
  cases q with
  | die => rfl
  | other o =>
    cases o with
    | finished => rfl
    | dieChild =>
      have hdie : bytesOf "DIE_CHILD" ≠ bytesOf "DIE" := by decide
      have hfinished : bytesOf "DIE_CHILD" ≠ bytesOf "FINISHED" := by decide
      show processControl p (bytesOf "DIE_CHILD") rest = _
      rw [processControl, if_neg hdie, if_neg hfinished, if_pos rfl]
      cases hc : p.isChild <;> simp [Publication.ending, Publication.control, Publication.leftBy, hc]
    | childDied time =>
      have hdie : bytesOf "CHILD_DIED" ≠ bytesOf "DIE" := by decide
      have hfinished : bytesOf "CHILD_DIED" ≠ bytesOf "FINISHED" := by decide
      have hchild : bytesOf "CHILD_DIED" ≠ bytesOf "DIE_CHILD" := by decide
      show processControl p (bytesOf "CHILD_DIED") (leBytes 8 time :: rest) = _
      rw [processControl, if_neg hdie, if_neg hfinished, if_neg hchild, if_pos rfl,
        recvNumber_of_length (length_leBytes 8 time)]
      cases hc : p.isChild <;>
        simp [Publication.ending, Publication.control, Publication.leftBy, hc, bind, Except.bind]
    | dieParent context =>
      have hdie : bytesOf "DIE_PARENT" ≠ bytesOf "DIE" := by decide
      have hfinished : bytesOf "DIE_PARENT" ≠ bytesOf "FINISHED" := by decide
      have hchild : bytesOf "DIE_PARENT" ≠ bytesOf "DIE_CHILD" := by decide
      have hdied : bytesOf "DIE_PARENT" ≠ bytesOf "CHILD_DIED" := by decide
      have hlt : (context % 2 ^ 32).toNat < 256 ^ 4 := by omega
      show processControl p (bytesOf "DIE_PARENT") (leBytes 4 (context % 2 ^ 32).toNat :: rest) = _
      rw [processControl, if_neg hdie, if_neg hfinished, if_neg hchild, if_neg hdied, if_pos rfl,
        recvNumber_of_length (length_leBytes 4 _), leValue_leBytes_of_lt hlt]
      dsimp only [bind, Except.bind, Publication.ending, Publication.control, Publication.leftBy]
      split <;> rfl

theorem processSubMessage_frames (p : Process) (q : Publication) (rest : List Frame) :
    processSubMessage p (q.frames ++ rest) = .ok ⟨bytesOf q.control, q.ending p, q.leftBy p ++ rest⟩ := by
  rw [Publication.frames, List.cons_append, processSubMessage, recvString_control]
  exact processControl_control p q rest

/-! ## Runs -/

theorem Aligned.length_le (h : Aligned s) : s.controls.length ≤ s.published.length := by
  have hlen := congrArg List.length h.controls
  rw [List.length_map, List.length_take] at hlen
  omega

theorem Aligned.publish (h : Aligned s) (q : Publication) :
    Aligned { s with published := s.published ++ [q], frames := s.frames ++ q.frames } where
  controls := h.controls.trans (by rw [List.take_append_of_le_length h.length_le])
  frames hs := by
    dsimp only
    rw [List.drop_append_of_le_length h.length_le, List.flatMap_append, h.frames hs, List.flatMap_singleton]
  recognized := h.recognized
  sized := h.sized

/-- A process that reads on finds a publication, or waits for one. -/
theorem Aligned.next (h : Aligned s) (hs : s.ending = none) :
    s.frames = [] ∨ ∃ q rest, s.published[s.controls.length]? = some q ∧
      s.published.drop (s.controls.length + 1) = rest ∧ s.frames = q.frames ++ rest.flatMap Publication.frames := by
  rw [h.frames hs]
  by_cases hlt : s.controls.length < s.published.length
  · refine .inr ⟨s.published[s.controls.length], _, List.getElem?_eq_getElem hlt, rfl, ?_⟩
    rw [List.drop_eq_getElem_cons hlt, List.flatMap_cons]
  · refine .inl ?_
    rw [List.drop_eq_nil_of_le (by omega), List.flatMap_nil]

theorem Publication.leftBy_eq_nil_iff : q.leftBy p = [] ↔ ∀ time, q = .other (.childDied time) → p.isChild = false := by
  cases q with
  | die => exact iff_of_true rfl nofun
  | other o =>
    cases o with
    | childDied time =>
      dsimp only [Publication.leftBy]
      cases p.isChild <;> simp
    | _ => exact iff_of_true rfl nofun

/-- Who ends leaves nothing. -/
theorem Publication.leftBy_of_ending (h : q.ending p ≠ none) : q.leftBy p = [] := by
  rw [leftBy_eq_nil_iff]
  intro time hq
  subst hq
  exact absurd rfl h

theorem Publication.ending_recognized (p : Process) (q : Publication) :
    q.ending p ≠ some .unrecognized ∧ q.ending p ≠ some .assertion := by
  cases q with
  | die => simp [ending]
  | other o =>
    cases o with
    | dieChild =>
      dsimp only [ending]
      split <;> simp
    | dieParent context =>
      dsimp only [ending]
      split <;> simp
    | _ => simp [ending]

/-- A call keeps the subscriber aligned exactly when it leaves nothing of its publication. -/
theorem Aligned.processSubMessage (h : Aligned s) (hs : step s (.processSubMessage p) = .ok s') :
    Aligned s' ↔ Spared s (.processSubMessage p) := by
  dsimp only [step] at hs
  split at hs
  · cases hs
  next hrun =>
  have hending : s.ending = none := Option.not_isSome_iff_eq_none.mp hrun
  obtain hnil | hnext := h.next hending
  · rw [hnil] at hs
    cases hs
  · obtain ⟨q, rest, hq, hrest, hframes⟩ := hnext
    rw [hframes, processSubMessage_frames] at hs
    obtain rfl := Except.ok.inj hs
    have hspared : Spared s (.processSubMessage p) ↔ q.leftBy p = [] := by
      rw [Publication.leftBy_eq_nil_iff, Spared, hq]
      simp only [Option.some.injEq]
    have hcontrols : s.controls ++ [bytesOf q.control] =
        (s.published.take (s.controls.length + 1)).map fun q => bytesOf q.control := by
      obtain ⟨hlt, hget⟩ := List.getElem?_eq_some_iff.mp hq
      rw [List.take_succ_eq_append_getElem hlt, List.map_append, ← h.controls, hget, List.map_singleton]
    rw [hspared]
    constructor
    · intro ha
      by_cases hend : q.ending p = none
      · have hdrop := ha.frames hend
        simp only [List.length_append, List.length_singleton, hrest] at hdrop
        exact List.append_left_eq_self.mp hdrop
      · exact Publication.leftBy_of_ending hend
    · intro hleft
      exact {
        controls := by simpa using hcontrols
        frames := fun _ => by simp [hleft, hrest]
        recognized := (q.ending_recognized p).1
        sized := (q.ending_recognized p).2 }

/-- A subscriber stays aligned exactly when no call that finds a CHILD_DIED is made in a child. -/
theorem aligned_iff_spared (es : List Event) :
    Trace.Always step Aligned .start es ↔ Trace.Guarded step Spared .start es := by
  refine Trace.always_iff_guarded (J := fun _ => True) (fun _ _ _ _ _ => trivial) ?_ trivial ?_
  · intro s e s' _ h hs
    cases e with
    | publish q =>
      obtain rfl := Except.ok.inj hs
      exact iff_of_true (h.publish q) trivial
    | processSubMessage p => exact h.processSubMessage hs
  · exact ⟨rfl, fun _ => rfl, nofun, nofun⟩

/-- A child of another context hears of a context whose children have died at time 5. -/
def childHears : List Event :=
  [.publish (.other (.childDied 5)), .processSubMessage ⟨true, 2, false, 0⟩, .processSubMessage ⟨true, 2, false, 0⟩]

/-- The time is taken for a control word: the child sends DIE. -/
theorem time_taken_for_control :
    Trace.run step .start childHears =
      .ok ⟨[.other (.childDied 5)], [], [bytesOf "CHILD_DIED", [5]], some .unrecognized⟩ ∧
    ¬ ∀ es : List Event, Trace.Always step Aligned .start es := by
  have hrun : Trace.run step .start childHears =
      .ok ⟨[.other (.childDied 5)], [], [bytesOf "CHILD_DIED", [5]], some .unrecognized⟩ := by decide
  refine ⟨hrun, fun hall => ?_⟩
  exact ((hall childHears).last hrun).recognized rfl

end Fncs.Killer

/-
The sleeping algorithm of the tick simulators,
`ConservativeSleepingTickAlgo::GetNextTime`
(`conservativesleepingtickalgo.cpp`), cut at the calls it blocks in.

It is the plain conservative algorithm with two additions. A simulator that
has to wait while the network is stable sleeps, and takes part in no round
until it is woken. Each simulator keeps a table of the times the others asked
for, and wakes them before it goes past one of these.
-/
import Fncs.Sync.GracePeriod

namespace Fncs

/-- An entry of an array from `new`: it holds some value from the start. -/
structure Entry where
  value : TIME
  written : Bool
  deriving DecidableEq, Repr

/-- The members `GetNextTime` uses. `othersimsSize` is the length of the table. -/
structure ConservativeSleepingTickAlgo where
  grantedTime : TIME
  diff : ℕ
  mightSleep : Bool
  powersimgrantedTime : List Entry
  deriving DecidableEq, Repr

namespace ConservativeSleepingTickAlgo

abbrev Locals := GracePeriodSyncAlgo.Locals

/-- The constructor, for one simulator at least; `fresh` is what the new table holds. -/
def create (numberOfPowerSims : ℕ) (fresh : ℕ → TIME) : ConservativeSleepingTickAlgo where
  grantedTime := 0
  diff := 0
  mightSleep := false
  powersimgrantedTime := (List.range (numberOfPowerSims - 1)).map fun i => ⟨fresh i, false⟩

/-- `powersimgrantedTime[i] = t`, which C++ leaves undefined past the end of the table. -/
def assign (i : ℕ) (t : TIME) (a : ConservativeSleepingTickAlgo) : Option ConservativeSleepingTickAlgo :=
  if i < a.powersimgrantedTime.length then
    some { a with powersimgrantedTime := a.powersimgrantedTime.set i ⟨t, true⟩ }
  else none

/-! ## Before the loop -/

/-- A call that asks for less than what was granted already returns at once. -/
def returnsAtOnce (grantedTime nextTime : TIME) : Bool := nextTime < grantedTime

/-- Where the loop is entered: granted time that is left is waited for first. -/
def enter (grantedTime currentTime nextTime : TIME) : Locals where
  currentTime := if currentTime < grantedTime then grantedTime else currentTime
  nextTime := nextTime
  nextEstTime := 0
  needToRespond := false
  busywait := currentTime < grantedTime

/-- The entries that `nextTime` has come up to; `sleep` is called once for each. -/
def passed (nextTime : TIME) (a : ConservativeSleepingTickAlgo) : List Entry :=
  if a.mightSleep then a.powersimgrantedTime.filter fun e => nextTime ≥ e.value else []

/-- The members after these calls. -/
def wakeOthers (nextTime : TIME) (a : ConservativeSleepingTickAlgo) : ConservativeSleepingTickAlgo :=
  if a.passed nextTime = [] then a else { a with mightSleep := false }

/-! ## A turn of the loop -/

/-- A simulator that waits sleeps if the last difference was 0, and meets the others at a barrier if not. -/
def sleeps (a : ConservativeSleepingTickAlgo) (l : Locals) : Bool := l.busywait && a.diff == 0

/-- After the wait. `woken` is what `sleep` returns: whether a message is there. -/
def awake (woken : Bool) (a : ConservativeSleepingTickAlgo) (l : Locals) : ConservativeSleepingTickAlgo × Locals :=
  if a.sleeps l then ({ a with mightSleep := false }, { l with needToRespond := l.needToRespond || woken })
  else (a, l)

/-- The proposal, once the difference is known. An answer to a message has the others woken in the next call. -/
def propose (g : Integrator) (diff : ℕ) (a : ConservativeSleepingTickAlgo) (l : Locals) :
    Option (ConservativeSleepingTickAlgo × Locals) :=
  let l := GracePeriodSyncAlgo.propose g diff l
  let a := { a with diff := diff }
  if l.needToRespond && a.mightSleep then (a.assign 0 0).map fun a => (a, l) else some (a, l)

/-- After the minimum the next times are gathered, if nobody is known to sleep and the network is stable. -/
def gathers (a : ConservativeSleepingTickAlgo) : Bool := !a.mightSleep && a.diff == 0

/-- The loop over the gathered times: `Infinity` is left out, and the others take the entries from `j` on. -/
def store : ℕ → List TIME → ConservativeSleepingTickAlgo → Option ConservativeSleepingTickAlgo
  | _, [], a => some a
  | j, t :: ts, a => if t = Infinity then a.store j ts else (a.assign j t).bind (store (j + 1) ts)

/-- The members before the end of the turn, which is that of the plain algorithm. -/
def gather (nextTimes : List TIME) (a : ConservativeSleepingTickAlgo) : Option ConservativeSleepingTickAlgo :=
  if a.gathers then (a.store 0 nextTimes).map fun a => { a with mightSleep := true } else some a

/-- The turn after the minimum. -/
def conclude (g : Integrator) (minNextTime : TIME) (nextTimes : List TIME) (a : ConservativeSleepingTickAlgo)
    (l : Locals) : Option (ConservativeSleepingTickAlgo × GracePeriodSyncAlgo.Outcome) :=
  (a.gather nextTimes).map fun a => (a, GracePeriodSyncAlgo.conclude g minNextTime l)

variable {a b : ConservativeSleepingTickAlgo} {g : Integrator} {l l' : Locals}

/-! ## The difference, which the table's assignments leave as it is -/

theorem assign_diff {i : ℕ} {t : TIME} (h : a.assign i t = some b) : b.diff = a.diff := by
  unfold assign at h
  split at h
  · cases h
    rfl
  · cases h

theorem store_diff {j : ℕ} {ts : List TIME} (h : a.store j ts = some b) : b.diff = a.diff := by
  induction ts generalizing a j with
  | nil =>
    cases h
    rfl
  | cons t ts ih =>
    unfold store at h
    split at h
    · exact ih h
    · obtain ⟨c, hc, h⟩ := Option.bind_eq_some_iff.mp h
      rw [ih h, assign_diff hc]

theorem gather_diff {nextTimes : List TIME} (h : a.gather nextTimes = some b) : b.diff = a.diff := by
  unfold gather at h
  split at h
  · obtain ⟨c, hc, rfl⟩ := Option.map_eq_some_iff.mp h
    show c.diff = a.diff
    exact store_diff hc
  · cases h
    rfl

/-- The proposal is that of the plain algorithm, and the difference is kept. -/
theorem propose_some {diff : ℕ} (h : a.propose g diff l = some (b, l')) :
    b.diff = diff ∧ l' = GracePeriodSyncAlgo.propose g diff l := by
  unfold propose at h
  dsimp only at h
  split at h
  · obtain ⟨c, hc, he⟩ := Option.map_eq_some_iff.mp h
    obtain ⟨rfl, rfl⟩ := Prod.mk.inj he
    exact ⟨assign_diff hc, rfl⟩
  · obtain ⟨rfl, rfl⟩ := Prod.mk.inj (Option.some.inj h)
    exact ⟨rfl, rfl⟩

/-- So is the end of the turn. -/
theorem conclude_some {minNextTime : TIME} {nextTimes : List TIME} {o : GracePeriodSyncAlgo.Outcome}
    (h : a.conclude g minNextTime nextTimes l = some (b, o)) :
    b.diff = a.diff ∧ o = GracePeriodSyncAlgo.conclude g minNextTime l := by
  obtain ⟨c, hc, he⟩ := Option.map_eq_some_iff.mp h
  obtain ⟨rfl, rfl⟩ := Prod.mk.inj he
  exact ⟨gather_diff hc, rfl⟩

/-- Only a sleep can change what the call has to respond to. -/
theorem awake_locals {woken : Bool} :
    (a.awake woken l).2 = { l with needToRespond := l.needToRespond || (a.sleeps l && woken) } := by
  unfold awake
  split
  · next h => simp [h]
  · next h => simp [h]

end ConservativeSleepingTickAlgo

end Fncs

/-
`ReactiveConservative::GetNextTime` (`reactiveconservative.cpp`), with the net
sim's `CommunicatorSimulatorSyncalgo::GetNextTime`.

A simulator holds the others back only while it has to respond: a message it
receives sets `respond`, a message it sends clears it. With the flag set it
proposes one time step past its current time, otherwise `Infinity`, whatever it
asks for; and a proposal of `Infinity` is granted whatever the minimum is. So
nobody returns past the response of a simulator that had its flag set in the
last round (`returned_le_response`), while the steps that are asked for hold
nobody back: they are kept in order exactly when in every round somebody has to
respond early enough (`order_kept_iff`).

All simulators count in the same unit from the same initial time, so that their
clocks are framework times. A barrier only holds a simulator back, and each
passes it by itself here.
-/
import Fncs.Sync.GracePeriod
import Fncs.Lib.Trace

namespace Fncs

namespace ReactiveConservative

/-- The local variables of `GetNextTime`. -/
structure Locals where
  currentTime : TIME
  nextTime : TIME
  nextEstTime : TIME
  busywait : Bool
  deriving DecidableEq, Repr

/-- How a turn of the loop ends. -/
inductive Outcome
  | returned (grantedTime t : TIME)
  | again (l : Locals)
  deriving DecidableEq, Repr

/-- A call that asks for no more than what was granted returns at once. -/
def returnsAtOnce (grantedTime nextTime : TIME) : Bool := nextTime ≤ grantedTime

def enter (currentTime nextTime : TIME) : Locals where
  currentTime := currentTime
  nextTime := nextTime
  nextEstTime := 0
  busywait := false

/-- One time step past the current time. -/
def response (g : Integrator) (l : Locals) : TIME := addTime l.currentTime g.onetimestep

/-- The proposal of a turn. -/
def propose (g : Integrator) (respond : Bool) (l : Locals) : Locals :=
  { l with nextEstTime := if respond then response g l else Infinity }

/-- The end of the call: it returns no more than it asks for. -/
def leave (nextEstTime : TIME) (l : Locals) : Outcome :=
  .returned nextEstTime (if l.nextTime < nextEstTime then l.nextTime else nextEstTime)

/-- The end of the turn, once the minimum is known. -/
def conclude (g : Integrator) (minNextTime : TIME) (l : Locals) : Outcome :=
  if minNextTime = l.nextEstTime ∨ l.nextEstTime = Infinity then leave minNextTime l
  else if minNextTime < l.nextEstTime then .again { l with currentTime := g.realign minNextTime, busywait := true }
  else if l.busywait then .again l
  else leave l.nextEstTime l

/-- A call that returns grants the minimum, and returns no more. -/
theorem conclude_returned {g : Integrator} {m granted t : TIME} {l : Locals} (hm : m ≤ l.nextEstTime)
    (h : conclude g m l = .returned granted t) : granted = m ∧ t ≤ m := by
  have leaves : leave m l = .returned granted t → granted = m ∧ t ≤ m := by
    intro h
    simp only [leave, Outcome.returned.injEq] at h
    obtain ⟨rfl, rfl⟩ := h
    refine ⟨rfl, ?_⟩
    split
    · next hn => exact hn.le
    · exact le_rfl
  unfold conclude at h
  split at h
  · exact leaves h
  · next hne =>
    have hlt : m < l.nextEstTime := lt_of_le_of_ne hm fun he => hne (.inl he)
    rw [if_pos hlt] at h
    cases h

/-! ## Runs -/

/-- A simulator: the time its last call returned, and the call it is in. -/
structure Tick where
  integrator : Integrator
  current : TIME
  grantedTime : TIME
  respond : Bool
  call : Option Locals
  deriving DecidableEq, Repr

structure NetSim where
  grantedTime : TIME
  finished : Bool
  inCall : Bool
  deriving DecidableEq, Repr

/-- The simulators. `responses` is what those that had to respond in the last
round proposed; `returned` and `ended` are what the last step told the
simulators and the net sim. -/
structure World (ι : Type) where
  ticks : ι → Tick
  netSim : NetSim
  responses : ι → Option TIME
  returned : ι → Option TIME
  ended : Bool

inductive Label (ι : Type)
  | receivedMessage (i : ι)
  | sentMessage (i : ι)
  | getNextTime (i : ι) (nextTime : TIME)
  | netGetNextTime (nextTime : TIME)
  /-- Everybody learns the least proposal. -/
  | round
  deriving DecidableEq, Repr

/-- Why a step does not take place. -/
inductive Break
  | notAllowed
  deriving DecidableEq, Repr

namespace Tick

def start (g : Integrator) : Tick := ⟨g, 0, 0, false, none⟩

/-- A call for `nextTime`: the simulator in it, or after it if it returns at once. -/
def getNextTime (nextTime : TIME) (t : Tick) : Tick × Option TIME :=
  if returnsAtOnce t.grantedTime nextTime then ({ t with current := nextTime }, some nextTime)
  else ({ t with call := some (enter t.current nextTime) }, none)

/-- What the simulator proposes. -/
def proposal (t : Tick) : TIME :=
  match t.call with
  | some l => (propose t.integrator t.respond l).nextEstTime
  | none => Infinity

/-- What it proposes because it has to respond. -/
def responding (t : Tick) : Option TIME := if t.respond then t.call.map (response t.integrator) else none

/-- The end of a round for the simulator, and what its call returned. -/
def conclude (m : TIME) (t : Tick) : Tick × Option TIME :=
  match t.call with
  | none => (t, none)
  | some l =>
    match ReactiveConservative.conclude t.integrator m (propose t.integrator t.respond l) with
    | .returned granted r => ({ t with grantedTime := granted, current := r, call := none }, some r)
    | .again l => ({ t with call := some l }, none)

end Tick

namespace World

variable {ι : Type}

def start (g : ι → Integrator) : World ι where
  ticks := fun i => .start (g i)
  netSim := ⟨0, false, false⟩
  responses := fun _ => none
  returned := fun _ => none
  ended := false

/-- Nothing has been returned to anybody. -/
def quiet (w : World ι) : World ι := { w with returned := fun _ => none, ended := false }

variable [Fintype ι] [DecidableEq ι]

/-- The least proposal, the net sim's among them. -/
def minimum (w : World ι) : TIME :=
  Finset.univ.fold min CommunicatorSimulatorSyncalgo.proposal fun i => (w.ticks i).proposal

/-- The world after a round. -/
def next (w : World ι) : World ι where
  ticks := fun i => ((w.ticks i).conclude w.minimum).1
  netSim :=
    match CommunicatorSimulatorSyncalgo.conclude w.minimum with
    | .returned t => { w.netSim with grantedTime := t, inCall := false }
    | .finished => { w.netSim with finished := true, inCall := false }
  responses := fun i => (w.ticks i).responding
  returned := fun i => ((w.ticks i).conclude w.minimum).2
  ended := CommunicatorSimulatorSyncalgo.conclude w.minimum = .finished

def step (w : World ι) : Label ι → Except Break (World ι)
  | .receivedMessage i => .ok { w.quiet with ticks := Function.update w.ticks i { w.ticks i with respond := true } }
  | .sentMessage i => .ok { w.quiet with ticks := Function.update w.ticks i { w.ticks i with respond := false } }
  | .getNextTime i nextTime =>
    if (w.ticks i).call = none ∧ (w.ticks i).current < nextTime then
      .ok { w.quiet with
        ticks := Function.update w.ticks i ((w.ticks i).getNextTime nextTime).1
        returned := fun j => if j = i then ((w.ticks i).getNextTime nextTime).2 else none }
    else .error .notAllowed
  | .netGetNextTime nextTime =>
    if w.netSim.inCall = false ∧ w.netSim.finished = false then
      .ok { w.quiet with
        netSim := { w.netSim with
          inCall := !CommunicatorSimulatorSyncalgo.returnsAtOnce w.netSim.grantedTime nextTime } }
    else .error .notAllowed
  | .round =>
    if (∀ i, (w.ticks i).call ≠ none) ∧ w.netSim.inCall = true then .ok w.next else .error .notAllowed

variable {w w' : World ι} {i : ι}

omit [DecidableEq ι] in
/-- The minimum is no more than anybody's proposal. -/
theorem minimum_le (i : ι) : w.minimum ≤ (w.ticks i).proposal :=
  (Finset.fold_min_le _).mpr (.inr ⟨i, Finset.mem_univ i, le_rfl⟩)

/-- Who has to respond proposes the response. -/
theorem proposal_of_responding {t : Tick} {r : TIME} (h : t.responding = some r) : t.proposal = r := by
  unfold Tick.responding at h
  split at h
  · next hr =>
    obtain ⟨l, hl, rfl⟩ := Option.map_eq_some_iff.mp h
    simp [Tick.proposal, hl, propose, hr]
  · cases h

/-- What a round returns to a simulator, and what it grants it. -/
theorem conclude_spec {t : Tick} {m : TIME} (hm : m ≤ t.proposal) :
    (∀ r, (t.conclude m).2 = some r → r ≤ m) ∧ (t.call ≠ none → (t.conclude m).1.call = none →
      (t.conclude m).1.grantedTime = m) := by
  unfold Tick.conclude
  cases hc : t.call with
  | none => exact ⟨nofun, fun h => absurd rfl h⟩
  | some l =>
    rw [Tick.proposal, hc] at hm
    dsimp only at hm ⊢
    cases ho : ReactiveConservative.conclude t.integrator m (propose t.integrator t.respond l) with
    | returned granted r =>
      obtain ⟨rfl, hle⟩ := conclude_returned hm ho
      refine ⟨fun _ h => ?_, fun _ _ => rfl⟩
      cases h
      exact hle
    | again l => exact ⟨nofun, fun _ h => by cases h⟩

/-- A simulator in no call is granted nothing past a response of the last round. -/
def Ordered (w : World ι) : Prop :=
  ∀ i, (w.ticks i).call = none → ∀ j r, w.responses j = some r → (w.ticks i).grantedTime ≤ r

omit [Fintype ι] [DecidableEq ι] in
theorem Ordered.start (g : ι → Integrator) : Ordered (World.start g) := fun _ _ _ _ h => nomatch h

omit [Fintype ι] in
/-- Moving one simulator keeps the order if it is then in a call, or in none as before with the same grant. -/
theorem Ordered.update (h : w.Ordered) {t : Tick} {v : World ι}
    (hv : v.ticks = Function.update w.ticks i t ∧ v.responses = w.responses)
    (ht : t.call = none → (w.ticks i).call = none ∧ t.grantedTime = (w.ticks i).grantedTime) : v.Ordered := by
  intro k hk j r hr
  rw [hv.1] at hk ⊢
  rw [hv.2] at hr
  by_cases hki : k = i
  · subst hki
    rw [Function.update_self] at hk ⊢
    rw [(ht hk).2]
    exact h k (ht hk).1 j r hr
  · rw [Function.update_of_ne hki] at hk ⊢
    exact h k hk j r hr

theorem Ordered.step {l : Label ι} (h : w.Ordered) (hs : w.step l = .ok w') : w'.Ordered := by
  cases l with
  | receivedMessage i => cases hs; exact h.update ⟨rfl, rfl⟩ fun hc => ⟨hc, rfl⟩
  | sentMessage i => cases hs; exact h.update ⟨rfl, rfl⟩ fun hc => ⟨hc, rfl⟩
  | getNextTime i n =>
    simp only [World.step] at hs
    split at hs
    · next hi =>
      cases hs
      refine h.update (t := ((w.ticks i).getNextTime n).1) ⟨rfl, rfl⟩ fun hc => ⟨hi.1, ?_⟩
      unfold Tick.getNextTime
      split <;> rfl
    · cases hs
  | netGetNextTime n =>
    simp only [World.step] at hs
    split at hs
    · cases hs; exact h
    · cases hs
  | round =>
    simp only [World.step] at hs
    split at hs
    · next hcalls =>
      cases hs
      intro i hi j r hr
      show ((w.ticks i).conclude w.minimum).1.grantedTime ≤ r
      rw [(conclude_spec (minimum_le i)).2 (hcalls.1 i) hi, ← proposal_of_responding hr]
      exact minimum_le j
    · cases hs

/-- Whenever a call returns `t`, at the end of a round or at once, no simulator
that had to respond in the last round has its response before `t`; and the net
sim is told that the simulation has ended only if none of them has a finite one. -/
theorem returned_le_response (g : ι → Integrator) {ls : List (Label ι)}
    (hr : Trace.run step (start g) ls = .ok w) {l : Label ι} (hs : w.step l = .ok w') :
    (∀ i t, w'.returned i = some t → ∀ j r, w'.responses j = some r → t ≤ r) ∧
      (w'.ended = true → ∀ j r, w'.responses j = some r → r = Infinity) := by
  have h : w.Ordered := Trace.run_invariant (fun _ _ _ h hs => h.step hs) (Ordered.start g) hr
  cases l with
  | receivedMessage i => cases hs; exact ⟨nofun, nofun⟩
  | sentMessage i => cases hs; exact ⟨nofun, nofun⟩
  | getNextTime i n =>
    simp only [World.step] at hs
    split at hs
    · next hi =>
      cases hs
      refine ⟨fun k t ht j r hj => ?_, nofun⟩
      dsimp only at ht
      split at ht
      · unfold Tick.getNextTime at ht
        split at ht
        · next ho =>
          cases ht
          exact (of_decide_eq_true ho).trans (h i hi.1 j r hj)
        · cases ht
      · cases ht
    · cases hs
  | netGetNextTime n =>
    simp only [World.step] at hs
    split at hs
    · cases hs; exact ⟨nofun, nofun⟩
    · cases hs
  | round =>
    simp only [World.step] at hs
    split at hs
    · cases hs
      have hle : ∀ j r, (w.ticks j).responding = some r → w.minimum ≤ r := fun j r hj =>
        proposal_of_responding hj ▸ minimum_le j
      refine ⟨fun i t ht j r hj => ((conclude_spec (minimum_le i)).1 t ht).trans (hle j r hj), fun he j r hj => ?_⟩
      have hmin : w.minimum = Infinity := by
        have he : CommunicatorSimulatorSyncalgo.conclude w.minimum = .finished := of_decide_eq_true he
        unfold CommunicatorSimulatorSyncalgo.conclude at he
        split at he
        · assumption
        · cases he
      refine le_antisymm ?_ (hmin ▸ hle j r hj)
      change (w.ticks j).responding = some r at hj
      unfold Tick.responding at hj
      split at hj
      · obtain ⟨l, -, rfl⟩ := Option.map_eq_some_iff.mp hj
        exact Nat.le_pred_of_lt (Nat.mod_lt _ (by decide))
      · cases hj
    · cases hs

/-! ## The requested steps -/

/-- The step a simulator has yet to execute: the one it asks for, or the one its last call returned. -/
def requested (w : World ι) (i : ι) : TIME :=
  match (w.ticks i).call with
  | some l => l.nextTime
  | none => (w.ticks i).current

/-- Whatever the step returns, nobody else has a step to execute before it; and the net sim is told that the
simulation has ended only when everybody asks for `Infinity`. -/
def InOrder (w : World ι) (l : Label ι) : Prop :=
  ∀ w', w.step l = .ok w' → (∀ i t, w'.returned i = some t → ∀ j, j ≠ i → t ≤ w'.requested j) ∧
    (w'.ended = true → ∀ i, w.requested i = Infinity)

/-- The step is in order, and so is any call made after it. -/
def KeepsOrder (w : World ι) (l : Label ι) : Prop :=
  w.InOrder l ∧ ∀ w', w.step l = .ok w' → ∀ i nextTime, w'.InOrder (.getNextTime i nextTime)

/-- Somebody that has to respond does so by `t`, if that is not `Infinity` anyway. -/
def AnsweredBy (w : World ι) (t : TIME) : Prop :=
  Infinity ≤ t ∨ ∃ k, ∃ r ∈ (w.ticks k).responding, r ≤ t

/-- Nobody that has to respond does so before `i`, when `i` has to respond itself. -/
def First (w : World ι) (i : ι) : Prop :=
  ∀ r ∈ (w.ticks i).responding, r = Infinity ∨ ∀ k, ∀ r' ∈ (w.ticks k).responding, r ≤ r'

/-- In a round somebody has to respond at a finite time, if anybody asks for one, and the steps of
all the others are answered for whoever is first. -/
def Answered (w : World ι) : Label ι → Prop
  | .round => (∀ i, w.First i → ∀ j, j ≠ i → w.AnsweredBy (w.requested j)) ∧
      ((∃ k, ∃ r ∈ (w.ticks k).responding, r ≠ Infinity) ∨ ∀ i, w.requested i = Infinity)
  | _ => True

instance (w : World ι) (t : TIME) : Decidable (w.AnsweredBy t) := inferInstanceAs (Decidable (_ ∨ _))

instance (w : World ι) (i : ι) : Decidable (w.First i) := inferInstanceAs (Decidable (∀ r ∈ (w.ticks i).responding, _))

instance (w : World ι) : (l : Label ι) → Decidable (w.Answered l)
  | .round => inferInstanceAs (Decidable (_ ∧ _))
  | .receivedMessage _ | .sentMessage _ | .getNextTime _ _ | .netGetNextTime _ => isTrue trivial

/-- Whoever may return without a round is let go no further than to the others' steps. -/
def Bounded (w : World ι) : Prop :=
  ∀ i, (w.ticks i).call = none → (w.ticks i).current < (w.ticks i).grantedTime →
    ∀ j, j ≠ i → (w.ticks i).grantedTime ≤ w.requested j

/-! ### What a round does -/

theorem responding_none {t : Tick} (hc : t.call ≠ none) (h : t.responding = none) : t.proposal = Infinity := by
  obtain ⟨l, hl⟩ := Option.ne_none_iff_exists'.mp hc
  unfold Tick.responding at h
  split at h
  · rw [hl] at h
    cases h
  · next hr => simp [Tick.proposal, hl, propose, hr]

theorem responding_le {t : Tick} {r : TIME} (h : t.responding = some r) : r ≤ Infinity := by
  unfold Tick.responding at h
  split at h
  · obtain ⟨l, -, rfl⟩ := Option.map_eq_some_iff.mp h
    exact Nat.le_pred_of_lt (Nat.mod_lt _ (by decide))
  · cases h

omit [DecidableEq ι] in
/-- The minimum is the earliest response. -/
theorem minimum_le_iff (hc : ∀ i, (w.ticks i).call ≠ none) {t : TIME} : w.minimum ≤ t ↔ w.AnsweredBy t := by
  constructor
  · intro h
    rcases (Finset.fold_min_le _).mp h with h | ⟨k, -, hk⟩
    · exact .inl h
    · cases hr : (w.ticks k).responding with
      | none => exact .inl (responding_none (hc k) hr ▸ hk)
      | some r => exact .inr ⟨k, r, hr, proposal_of_responding hr ▸ hk⟩
  · rintro (h | ⟨k, r, hr, hle⟩)
    · exact (Finset.fold_min_le _).mpr (.inl h)
    · exact (minimum_le k).trans ((proposal_of_responding hr).le.trans hle)

/-- A round lets a simulator go at the minimum, or has it wait there. -/
theorem conclude_cases {t : Tick} {l : Locals} {m : TIME} (hl : t.call = some l) (hm : m ≤ t.proposal) :
    ((m = t.proposal ∨ t.proposal = Infinity) ∧
      t.conclude m = ({ t with grantedTime := m, current := min l.nextTime m, call := none }, some (min l.nextTime m))) ∨
    (¬ (m = t.proposal ∨ t.proposal = Infinity) ∧
      ∃ l', l'.nextTime = l.nextTime ∧ t.conclude m = ({ t with call := some l' }, none)) := by
  have hp : t.proposal = (propose t.integrator t.respond l).nextEstTime := by simp [Tick.proposal, hl]
  have hnext : (propose t.integrator t.respond l).nextTime = l.nextTime := rfl
  rw [hp] at hm ⊢
  unfold Tick.conclude ReactiveConservative.conclude
  simp only [hl]
  by_cases hgo : m = (propose t.integrator t.respond l).nextEstTime ∨
      (propose t.integrator t.respond l).nextEstTime = Infinity
  · refine .inl ⟨hgo, ?_⟩
    rw [if_pos hgo]
    simp only [leave, hnext]
    rcases lt_or_ge l.nextTime m with hlt | hge
    · rw [if_pos hlt, min_eq_left hlt.le]
    · rw [if_neg (not_lt.mpr hge), min_eq_right hge]
  · rw [if_neg hgo, if_pos (lt_of_le_of_ne hm fun he => hgo (.inl he))]
    exact .inr ⟨hgo, { propose t.integrator t.respond l with currentTime := t.integrator.realign m, busywait := true },
      hnext, rfl⟩

omit [DecidableEq ι] in
/-- Whoever is first is let go. -/
theorem first_iff (hc : ∀ i, (w.ticks i).call ≠ none) {i : ι} :
    w.First i ↔ w.minimum = (w.ticks i).proposal ∨ (w.ticks i).proposal = Infinity := by
  cases hr : (w.ticks i).responding with
  | none => exact iff_of_true (by simp [First, hr]) (.inr (responding_none (hc i) hr))
  | some r =>
    rw [proposal_of_responding hr]
    simp only [First, hr, Option.mem_def, Option.some.injEq, forall_eq']
    rw [or_comm]
    refine or_congr_left ⟨fun h => ?_, fun h k r' hr' => ?_⟩
    · refine le_antisymm ((minimum_le i).trans (proposal_of_responding hr).le) ?_
      rcases (minimum_le_iff hc).mp (le_refl w.minimum) with hinf | ⟨k, r', hr', hle⟩
      · exact (responding_le hr).trans hinf
      · exact (h k r' hr').trans hle
    · rw [← h]
      exact (minimum_le k).trans (proposal_of_responding hr').le

section Round

variable (hc : ∀ i, (w.ticks i).call ≠ none)
include hc

omit [DecidableEq ι] in
/-- Who is let go in a round returns what it asked for, or the minimum. -/
theorem next_of_first (h : w.First i) : (w.next.ticks i).call = none ∧ (w.next.ticks i).grantedTime = w.minimum ∧
    w.next.requested i = min (w.requested i) w.minimum ∧ w.next.returned i = some (min (w.requested i) w.minimum) := by
  obtain ⟨l, hl⟩ := Option.ne_none_iff_exists'.mp (hc i)
  rcases conclude_cases hl (minimum_le i) with ⟨-, he⟩ | ⟨hn, -⟩
  · simp only [next, requested, he, hl, and_self]
  · exact absurd ((first_iff hc).mp h) hn

omit [DecidableEq ι] in
/-- Who is not let go stays in its call. -/
theorem next_of_not_first (h : ¬ w.First i) : (w.next.ticks i).call ≠ none ∧ w.next.requested i = w.requested i ∧
    w.next.returned i = none := by
  obtain ⟨l, hl⟩ := Option.ne_none_iff_exists'.mp (hc i)
  rcases conclude_cases hl (minimum_le i) with ⟨hgo, -⟩ | ⟨-, l', hn, he⟩
  · exact absurd ((first_iff hc).mpr hgo) h
  · simp only [next, requested, he, hl, hn, ne_eq, reduceCtorEq, not_false_eq_true, and_self]

omit [DecidableEq ι] in
/-- After a round nobody stands before the minimum, or before the step it asked for. -/
theorem le_requested_next {t : TIME} {j : ι} : t ≤ w.next.requested j ∧ t ≤ w.minimum ↔ t ≤ w.requested j ∧ t ≤ w.minimum := by
  by_cases h : w.First j
  · rw [(next_of_first hc h).2.2.1, le_min_iff, and_assoc, and_self]
  · rw [(next_of_not_first hc h).2.1]

end Round

omit [DecidableEq ι] in
theorem ended_next : w.next.ended = true ↔ w.minimum = Infinity := by
  simp only [next, CommunicatorSimulatorSyncalgo.conclude]
  split <;> simp_all

omit [DecidableEq ι] in
theorem finite_iff (hc : ∀ i, (w.ticks i).call ≠ none) :
    w.minimum ≠ Infinity ↔ ∃ k, ∃ r ∈ (w.ticks k).responding, r ≠ Infinity := by
  constructor
  · intro hm
    have hle : w.minimum ≤ Infinity := (Finset.fold_min_le _).mpr (.inl le_rfl)
    rcases (minimum_le_iff hc).mp le_rfl with h | ⟨k, r, hr, h⟩
    · exact absurd (le_antisymm hle h) hm
    · exact ⟨k, r, hr, fun he => hm (le_antisymm hle (he ▸ h : Infinity ≤ w.minimum))⟩
  · rintro ⟨k, r, hr, hne⟩ hm
    have hle : w.minimum ≤ r := (minimum_le k).trans (proposal_of_responding hr).le
    exact hne (le_antisymm (responding_le hr) (hm ▸ hle))

/-! ### Calls that return at once -/

theorem step_getNextTime {n : TIME} : w.step (.getNextTime i n) = .ok w' ↔
    ((w.ticks i).call = none ∧ (w.ticks i).current < n) ∧
      { w.quiet with
        ticks := Function.update w.ticks i ((w.ticks i).getNextTime n).1
        returned := fun j => if j = i then ((w.ticks i).getNextTime n).2 else none } = w' := by
  unfold World.step
  dsimp only
  split <;> simp_all

omit [Fintype ι] in
theorem requested_update {t : Tick} {j : ι} {v : World ι} (hv : v.ticks = Function.update w.ticks i t) (hj : j ≠ i) :
    v.requested j = w.requested j := by
  unfold requested
  rw [hv, Function.update_of_ne hj]

/-- Every call is in order just if everybody is bounded. -/
theorem calls_inOrder_iff : (∀ i n, w.InOrder (.getNextTime i n)) ↔ w.Bounded := by
  constructor
  · intro h i hi hlt j hj
    have hs := step_getNextTime.mpr ⟨⟨hi, hlt⟩, rfl⟩
    have hret := (h i (w.ticks i).grantedTime _ hs).1 i (w.ticks i).grantedTime
      (by simp [Tick.getNextTime, returnsAtOnce]) j hj
    rwa [requested_update rfl hj] at hret
  · rintro h i n w' hs
    obtain ⟨⟨hi, hlt⟩, rfl⟩ := step_getNextTime.mp hs
    refine ⟨fun k t ht j hj => ?_, nofun⟩
    dsimp only at ht
    split at ht
    · next hk =>
      subst hk
      rw [requested_update rfl hj]
      unfold Tick.getNextTime at ht
      split at ht
      · next ho =>
        cases ht
        have hle : n ≤ (w.ticks k).grantedTime := of_decide_eq_true ho
        exact hle.trans (h k hi (hlt.trans_le hle) j hj)
      · cases ht
    · cases ht

omit [Fintype ι] in
/-- Whether a call returns at once or waits, the step asked for is yet to be executed. -/
theorem requested_getNextTime {n : TIME} {v : World ι}
    (hv : v.ticks = Function.update w.ticks i ((w.ticks i).getNextTime n).1) (hi : (w.ticks i).call = none) :
    v.requested i = n := by
  unfold requested
  rw [hv, Function.update_self]
  by_cases ho : returnsAtOnce (w.ticks i).grantedTime n = true
  · simp [Tick.getNextTime, ho, hi]
  · simp [Tick.getNextTime, ho, enter]

/-! ### Runs in order -/

theorem round_ok (hs : w.step .round = .ok w') : (∀ i, (w.ticks i).call ≠ none) ∧ w.next = w' := by
  simp only [World.step] at hs
  split at hs
  · next h => exact ⟨h.1, Except.ok.inj hs⟩
  · cases hs

/-- A round keeps the order if what it returns is in order, and leaves nobody a grant past the others' steps. -/
theorem keepsOrder_round_iff (hs : w.step .round = .ok w.next) : w.KeepsOrder .round ↔
    ((∀ i t, w.next.returned i = some t → ∀ j, j ≠ i → t ≤ w.next.requested j) ∧
      (w.next.ended = true → ∀ i, w.requested i = Infinity)) ∧ w.next.Bounded := by
  rw [← calls_inOrder_iff]
  refine and_congr ⟨fun h => h w.next hs, fun h v hv => ?_⟩ ⟨fun h => h w.next hs, fun h v hv => ?_⟩
  all_goals
    obtain rfl := Except.ok.inj (hs.symm.trans hv)
    exact h

/-- A round is in order, and the calls after it, just if it is answered. -/
theorem round_iff (hs : w.step .round = .ok w') : w.KeepsOrder .round ↔ w.Answered .round := by
  obtain ⟨hc, rfl⟩ := round_ok hs
  rw [keepsOrder_round_iff hs, ended_next]
  constructor
  · rintro ⟨⟨hret, hend⟩, hb⟩
    refine ⟨fun i hi j hj => ?_, ?_⟩
    · obtain ⟨hcall, hgrant, hreq, hreti⟩ := next_of_first hc hi
      rw [← minimum_le_iff hc]
      -- either the minimum is what is returned, or the grant reaches past the step asked for
      rcases le_or_gt w.minimum (w.requested i) with hle | hlt
      · have := hret i _ hreti j hj
        rw [min_eq_right hle] at this
        exact ((le_requested_next hc).mp ⟨this, le_rfl⟩).1
      · have hcur : (w.next.ticks i).current < (w.next.ticks i).grantedTime := by
          have hcr : (w.next.ticks i).current = w.next.requested i := by
            unfold requested
            rw [hcall]
          rw [hcr, hreq, hgrant, min_eq_left hlt.le]
          exact hlt
        have := hb i hcall hcur j hj
        rw [hgrant] at this
        exact ((le_requested_next hc).mp ⟨this, le_rfl⟩).1
    · rw [← finite_iff hc, or_iff_not_imp_left, not_not]
      exact hend
  · rintro ⟨hans, hfin⟩
    have key : ∀ i, (w.next.ticks i).call = none → ∀ j, j ≠ i → w.minimum ≤ w.next.requested j := by
      intro i hi j hj
      have hfirst : w.First i := by
        by_contra hn
        exact (next_of_not_first hc hn).1 hi
      exact ((le_requested_next hc).mpr ⟨(minimum_le_iff hc).mpr (hans i hfirst j hj), le_rfl⟩).1
    refine ⟨⟨fun i t ht j hj => ?_, fun hm => ?_⟩, fun i hi _ j hj => ?_⟩
    · by_cases hi : w.First i
      · obtain ⟨hcall, -, -, hreti⟩ := next_of_first hc hi
        rw [hreti, Option.some.injEq] at ht
        rw [← ht]
        exact (min_le_right _ _).trans (key i hcall j hj)
      · rw [(next_of_not_first hc hi).2.2] at ht
        cases ht
    · exact hfin.resolve_left fun hf => (finite_iff hc).mpr hf hm
    · by_cases hf : w.First i
      · rw [(next_of_first hc hf).2.1]
        exact key i hi j hj
      · exact absurd hi (next_of_not_first hc hf).1

omit [Fintype ι] in
/-- Messages change the flag only. -/
theorem Bounded.flag (h : w.Bounded) (k : ι) (respond : Bool) :
    Bounded { w.quiet with ticks := Function.update w.ticks k { w.ticks k with respond := respond } } := by
  have same : ∀ j, requested { w.quiet with ticks := Function.update w.ticks k { w.ticks k with respond := respond } } j =
      w.requested j := by
    intro j
    by_cases hj : j = k
    · subst hj
      simp [requested]
    · exact requested_update rfl hj
  intro i hi hlt j hj
  rw [same]
  by_cases hik : i = k
  · subst hik
    simp only [Function.update_self] at hi hlt ⊢
    exact h i hi hlt j hj
  · simp only [Function.update_of_ne hik] at hi hlt ⊢
    exact h i hi hlt j hj

/-- A step other than a round leaves everybody bounded. -/
theorem Bounded.still {l : Label ι} (h : w.Bounded) (hl : l ≠ .round) (hs : w.step l = .ok w') : w'.Bounded := by
  cases l with
  | round => exact absurd rfl hl
  | netGetNextTime n =>
    simp only [World.step] at hs
    split at hs
    · cases hs
      exact h
    · cases hs
  | receivedMessage k =>
    cases hs
    exact h.flag k true
  | sentMessage k =>
    cases hs
    exact h.flag k false
  | getNextTime k n =>
    obtain ⟨⟨hk, hkn⟩, rfl⟩ := step_getNextTime.mp hs
    intro i hi hlt j hj
    by_cases hik : i = k
    · subst hik
      rw [requested_update rfl hj]
      simp only [Function.update_self, Tick.getNextTime] at hi hlt ⊢
      split at hlt
      · next ho =>
        rw [if_pos ho]
        exact h i hk (hkn.trans_le (of_decide_eq_true ho)) j hj
      · next ho =>
        rw [if_neg ho] at hi
        cases hi
    · simp only [Function.update_of_ne hik] at hi hlt ⊢
      refine (h i hi hlt j hj).trans ?_
      by_cases hjk : j = k
      · subst hjk
        have hcur : w.requested j = (w.ticks j).current := by
          unfold requested
          rw [hk]
        exact hcur.trans_le (hkn.le.trans (requested_getNextTime rfl hk).ge)
      · exact (requested_update rfl hjk).ge

theorem keepsOrder_iff {l : Label ι} (h : w.Bounded) (hs : w.step l = .ok w') : w.KeepsOrder l ↔ w.Answered l := by
  by_cases hl : l = .round
  · subst hl
    exact round_iff hs
  · have ha : w.Answered l := by
      cases l with
      | round => exact absurd rfl hl
      | _ => trivial
    refine iff_of_true ⟨?_, fun v hv => calls_inOrder_iff.mpr (h.still hl hv)⟩ ha
    cases l with
    | round => exact absurd rfl hl
    | getNextTime i n => exact calls_inOrder_iff.mpr h i n
    | receivedMessage i | sentMessage i => intro v hv; cases hv; exact ⟨nofun, nofun⟩
    | netGetNextTime n =>
      intro v hv
      simp only [World.step] at hv
      split at hv
      · cases hv; exact ⟨nofun, nofun⟩
      · cases hv

theorem Bounded.step {l : Label ι} (h : w.Bounded) (ha : w.Answered l) (hs : w.step l = .ok w') : w'.Bounded :=
  calls_inOrder_iff.mp (((keepsOrder_iff h hs).mpr ha).2 w' hs)

/-- All along a run everything that is returned, and whatever a further call would return, is in order just if
every round is answered. -/
theorem order_kept_iff (g : ι → Integrator) (ls : List (Label ι)) :
    Trace.Guarded step KeepsOrder (start g) ls ↔ Trace.Guarded step Answered (start g) ls := by
  refine Trace.guarded_congr_of (J := Bounded) (fun s l s' h _ ha hs => h.step ha hs)
    (fun s l s' h _ hs => keepsOrder_iff h hs) ?_
    (Trace.guarded_of_forall fun _ _ => trivial : Trace.Guarded step (fun _ _ => True) _ _)
  intro i _ hlt
  exact absurd hlt (lt_irrefl 0)

/-- The first of two simulators has received a message, responds, and receives another one. -/
theorem order_kept_received : Trace.Guarded step KeepsOrder (start fun _ : Fin 2 => .init .nanoseconds 0 1)
    [.receivedMessage 0, .getNextTime 0 10, .getNextTime 1 20, .netGetNextTime 1, .round,
      .getNextTime 1 20, .getNextTime 0 2, .netGetNextTime 2, .round] :=
  (order_kept_iff _ _).mpr (by decide +kernel)

/-- Without messages one simulator asks for 10 and one for 20. Both are let go in
the first round, and the net sim is told that the simulation has ended. -/
theorem all_let_go : ¬ ∀ (g : Fin 2 → Integrator) (ls : List (Label (Fin 2))) (w w' : World (Fin 2)) (l : Label (Fin 2)),
    Trace.run step (start g) ls = .ok w → w.step l = .ok w' →
      (∀ i t, w'.returned i = some t → ∀ j, j ≠ i → t ≤ w'.requested j) ∧
        (w'.ended = true → ∀ i, w.requested i = Infinity) := by
  intro h
  obtain ⟨w, hw, hc⟩ := Trace.exists_run_of_check step (start fun _ : Fin 2 => .init .nanoseconds 0 1)
    [.getNextTime 0 10, .getNextTime 1 20, .netGetNextTime 1]
    (fun w => Trace.endsIn (fun w' => w'.returned 1 = some 20 ∧ w'.requested 0 = 10) (w.step .round)) (by decide +kernel)
  cases hs : w.step .round with
  | error e => rw [hs] at hc; cases hc
  | ok w' =>
    rw [hs] at hc
    obtain ⟨h1, h0⟩ : w'.returned 1 = some 20 ∧ w'.requested 0 = 10 := of_decide_eq_true hc
    have := (h _ _ _ _ _ hw hs).1 1 20 h1 0 (by decide)
    rw [h0] at this
    exact absurd this (by decide)

end World

end ReactiveConservative

end Fncs

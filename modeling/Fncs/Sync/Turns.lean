/-
The turns of the net sim and of the simulators awake go together: when one of
them knows the sums and not yet the minimum, all of them do (`InStep`).
-/
import Fncs.Sync.Exchange

namespace Fncs.Exchange

open Broker (Request Reply Replies HelloGroup Frame Session)
open Sleepers (Tick)
open ConservativeSleepingTickAlgo (Locals)

/-! ## Halfway through a turn -/

/-- The reductions of times in a turn. -/
inductive Half
  | networkDelay
  | minTime
  deriving DecidableEq, Repr

def half (x : Tick) : Option Half :=
  match x.place with
  | .networkDelay _ => some .networkDelay
  | .minTime _ => some .minTime
  | _ => none

/-- Past the report of a turn. -/
def reduced (x : Tick) : Bool :=
  match x.place with
  | .networkDelay _ | .minTime _ | .gather _ _ => true
  | _ => false

/-- Free to make a call. -/
def Free (x : Tick) : Prop := x.place = .running ∧ x.fault = none

namespace NetSim

def half (x : NetSim) : Option Half :=
  match x.place with
  | .networkDelay => some .networkDelay
  | .minTime => some .minTime
  | _ => none

/-- Halfway through a turn with the difference 0. -/
def Settles (x : NetSim) : Prop := x.half ≠ none ∧ x.diff = 0

variable {ι : Type} {x : NetSim} {r : Request ι} {sent recv d : ℕ} {t delay currentTime : TIME}

theorem half_ack (h : x.half = none) : (x.resume .ack).half = none := by
  obtain ⟨granted, diff, fin, p⟩ := x
  cases p with
  | networkDelay => cases h
  | minTime => cases h
  | _ => rfl

theorem half_diff (hp : x.place = .sendRecv currentTime) :
    (x.resume (.diff d)).half = some .networkDelay ∧ (x.resume (.diff d)).diff = d := by
  obtain ⟨granted, diff, fin, p⟩ := x
  obtain rfl : p = .sendRecv currentTime := hp
  exact ⟨rfl, rfl⟩

theorem half_networkDelay (h : x.half = some .networkDelay) :
    (x.resume (.time t)).half = some .minTime ∧ (x.resume (.time t)).diff = x.diff := by
  obtain ⟨granted, diff, fin, p⟩ := x
  cases p with
  | networkDelay => exact ⟨rfl, rfl⟩
  | _ => cases h

theorem half_minTime (h : x.half = some .minTime) : (x.resume (.time t)).half = none := by
  obtain ⟨granted, diff, fin, p⟩ := x
  cases p with
  | minTime =>
    simp only [resume]
    split
    · rfl
    · rfl
  | _ => cases h

/-- Its proposals are all it asks for halfway through a turn. -/
theorem half_of_request (h : x.request sent recv delay = some r) : x.half ≠ none ↔ ∃ τ, r = .reduceMinTime τ := by
  obtain ⟨granted, diff, fin, p⟩ := x
  cases p <;> cases h <;> simp [half]

theorem sendRecv_of_request {a c : ℕ} (h : x.request sent recv delay = some (.reduceSendRecv a c : Request ι)) :
    ∃ currentTime, x.place = .sendRecv currentTime := by
  obtain ⟨granted, diff, fin, p⟩ := x
  cases p <;> cases h
  exact ⟨_, rfl⟩

theorem not_asks (h : x.request sent recv delay = some r) :
    r ≠ .sleep ∧ (∀ t a, r ≠ .reduceMinTimeAction t a) ∧ ∀ t, r ≠ .allGatherNextTime t := by
  obtain ⟨granted, diff, fin, p⟩ := x
  cases p <;> cases h <;> simp

/-- A call is not halfway through a turn. -/
theorem half_call (hp : x.place = .running) :
    (x.timeStepStart currentTime).half = none ∧ (x.getNextTime currentTime t).half = none := by
  obtain ⟨granted, diff, fin, p⟩ := x
  obtain rfl : p = .running := hp
  unfold timeStepStart getNextTime
  constructor
  · split
    · rfl
    · rfl
  · split
    · rfl
    · rfl

end NetSim

/-! ## The replies -/

section Tick

variable {ι : Type} {x : Tick} {l : Locals} {r : Request ι} {woken : Bool} {sent recv d : ℕ}
  {t delay currentTime nextTime : TIME} {ts : List TIME}

/-- The loop over the table leads to a sleep, to the wait or to the report. -/
theorem place_lookAt (es : List Entry) : (x.lookAt l es).fault ≠ none ∧ (x.lookAt l es).place = x.place ∨
    (∃ rest, (x.lookAt l es).place = .waking rest l) ∨ (x.lookAt l es).place = .waiting l ∨
    (x.lookAt l es).place = .sendRecv l := by
  induction es with
  | nil =>
    unfold Tick.lookAt Tick.beginTurn
    dsimp only
    split
    · exact .inr (.inr (.inl rfl))
    · exact .inr (.inr (.inr rfl))
  | cons e rest ih =>
    unfold Tick.lookAt
    split
    · exact .inl ⟨by simp, rfl⟩
    · split
      · exact .inr (.inl ⟨rest, rfl⟩)
      · exact ih

theorem half_lookAt (h : half x = none) (es : List Entry) : half (x.lookAt l es) = none := by
  obtain ⟨-, hp⟩ | ⟨rest, hp⟩ | hp | hp := place_lookAt (x := x) (l := l) es
  · unfold half at h ⊢
    rw [hp]
    exact h
  · simp [half, hp]
  · simp [half, hp]
  · simp [half, hp]

theorem half_ack (h : half x = none) : half (x.resume woken .ack) = none := by
  obtain ⟨g, a, p, fin, fault⟩ := x
  cases p with
  | waking rest l => exact half_lookAt (x := ⟨g, { a with mightSleep := false }, .waking rest l, fin, fault⟩) rfl rest
  | networkDelay l => cases h
  | minTime l => cases h
  | _ => rfl

theorem half_diff (hp : x.place = .sendRecv l) :
    half (x.resume woken (.diff d)) = some .networkDelay ∧ (x.resume woken (.diff d)).algo.diff = d := by
  obtain ⟨g, a, p, fin, fault⟩ := x
  obtain rfl : p = .sendRecv l := hp
  exact ⟨rfl, rfl⟩

theorem half_networkDelay (woken : Bool) (h : half x = some .networkDelay) :
    (x.resume woken (.time t)).fault ≠ none ∨
    half (x.resume woken (.time t)) = some .minTime ∧ (x.resume woken (.time t)).algo.diff = x.algo.diff := by
  obtain ⟨g, a, p, fin, fault⟩ := x
  cases p with
  | networkDelay l =>
    simp only [Tick.resume]
    split
    · next b l' hb => exact .inr ⟨rfl, (ConservativeSleepingTickAlgo.propose_some hb).1⟩
    · exact .inl (by simp)
  | _ => cases h

theorem half_conclude (h : half x = none) : half (x.conclude t ts l) = none := by
  cases hb : x.algo.gather ts with
  | none =>
    simp only [Tick.conclude, ConservativeSleepingTickAlgo.conclude, hb, Option.map_none]
    exact h
  | some b =>
    obtain ⟨l', -, -, hx⟩ | ⟨τ, -, hx⟩ | ⟨-, hx⟩ := Tick.conclude_spec (t := t) (l := l) hb
    · rw [hx]
      rfl
    · rw [hx]
      rfl
    · rw [hx]
      rfl

theorem half_minTime (woken : Bool) (h : half x = some .minTime) :
    (x.resume woken (.time t)).fault ≠ none ∨ half (x.resume woken (.time t)) = none := by
  obtain ⟨g, a, p, fin, fault⟩ := x
  cases p with
  | minTime l =>
    simp only [Tick.resume]
    split
    · exact .inr rfl
    cases hb : a.gather [] with
    | none => exact .inl (by simp [Tick.conclude, ConservativeSleepingTickAlgo.conclude, hb])
    | some b =>
      right
      obtain ⟨l', -, -, hx⟩ | ⟨τ, -, hx⟩ | ⟨-, hx⟩ :=
        Tick.conclude_spec (x := ⟨g, a, .minTime l, fin, fault⟩) (t := t) (l := l) hb
      · rw [hx]
        rfl
      · rw [hx]
        rfl
      · rw [hx]
        rfl
  | _ => cases h

theorem half_nextTimes (h : half x = none) : half (x.resume woken (.nextTimes ts)) = none := by
  obtain ⟨g, a, p, fin, fault⟩ := x
  cases p with
  | gather t l => exact half_conclude rfl
  | networkDelay l => cases h
  | minTime l => cases h
  | _ => rfl

/-! ## The requests -/

theorem place_of_request (h : x.request sent recv delay = some r) : match r with
    | .barrier => x.place = .timeStepStart ∨ ∃ l, x.place = .waiting l
    | .sleep => (∃ l, x.place = .waiting l) ∨ ∃ rest l, x.place = .waking rest l
    | .reduceSendRecv _ _ => ∃ l, x.place = .sendRecv l
    | .reduceMinTime _ => half x ≠ none
    | .allGatherNextTime _ => ∃ t l, x.place = .gather t l
    | _ => False := by
  obtain ⟨g, a, p, fin, fault⟩ := x
  cases fault with
  | some _ => simp [Tick.request] at h
  | none =>
    cases p with
    | waiting l =>
      by_cases hs : a.sleeps l = true
      · obtain rfl : .sleep = r := by simpa [Tick.request, hs] using h
        exact .inl ⟨l, rfl⟩
      · obtain rfl : .barrier = r := by simpa [Tick.request, hs] using h
        exact .inr ⟨l, rfl⟩
    | running => cases h
    | timeStepStart =>
      cases h
      exact .inl rfl
    | waking rest l =>
      cases h
      exact .inr ⟨rest, l, rfl⟩
    | sendRecv l =>
      cases h
      exact ⟨l, rfl⟩
    | networkDelay l =>
      cases h
      simp [half]
    | minTime l =>
      cases h
      simp [half]
    | gather t l =>
      cases h
      exact ⟨t, l, rfl⟩

theorem half_of_request (h : x.request sent recv delay = some r) (hne : ∀ τ, r ≠ .reduceMinTime τ) : half x = none := by
  have hplace := place_of_request h
  cases r with
  | barrier =>
    obtain hp | ⟨l, hp⟩ := hplace
    · simp [half, hp]
    · simp [half, hp]
  | sleep =>
    obtain ⟨l, hp⟩ | ⟨rest, l, hp⟩ := hplace
    · simp [half, hp]
    · simp [half, hp]
  | reduceSendRecv =>
    obtain ⟨l, hp⟩ := hplace
    simp [half, hp]
  | reduceMinTime τ => exact absurd rfl (hne τ)
  | allGatherNextTime =>
    obtain ⟨t, l, hp⟩ := hplace
    simp [half, hp]
  | _ => exact hplace.elim

/-! ## Who is free -/

theorem not_free_of_half (h : half x ≠ none) : ¬ Free x := by
  intro hf
  rw [half, hf.1] at h
  exact h rfl

/-- A simulator that is asleep is in a call, also when it is woken. -/
theorem not_free_of_sleep (h : x.request sent recv delay = some (.sleep : Request ι)) :
    ¬ Free x ∧ ∀ woken, ¬ Free (x.resume woken .ack) := by
  have hplace : (∃ l, x.place = .waiting l) ∨ ∃ rest l, x.place = .waking rest l := place_of_request h
  obtain ⟨g, a, p, fin, fault⟩ := x
  obtain ⟨l, hp⟩ | ⟨rest, l, hp⟩ := hplace
  · obtain rfl : p = .waiting l := hp
    exact ⟨(fun hf => nomatch hf.1), fun _ hf => nomatch hf.1⟩
  · obtain rfl : p = .waking rest l := hp
    refine ⟨(fun hf => nomatch hf.1), fun _ hf => ?_⟩
    have hplace : (Tick.lookAt l rest ⟨g, { a with mightSleep := false }, .waking rest l, fin, fault⟩).place = .running :=
      hf.1
    obtain ⟨-, hx⟩ | ⟨rest', hx⟩ | hx | hx :=
      place_lookAt (x := ⟨g, { a with mightSleep := false }, .waking rest l, fin, fault⟩) (l := l) rest
    · cases hx.symm.trans hplace
    · cases hx.symm.trans hplace
    · cases hx.symm.trans hplace
    · cases hx.symm.trans hplace

/-! ## Past the report -/

theorem half_of_not_reduced (h : reduced x = false) : half x = none := by
  unfold half
  unfold reduced at h
  split at h
  · cases h
  · cases h
  · cases h
  · split
    · simp_all
    · simp_all
    · rfl

theorem reduced_lookAt (h : reduced x = false) (es : List Entry) : reduced (x.lookAt l es) = false := by
  obtain ⟨-, hp⟩ | ⟨rest, hp⟩ | hp | hp := place_lookAt (x := x) (l := l) es
  · unfold reduced at h ⊢
    rw [hp]
    exact h
  · simp [reduced, hp]
  · simp [reduced, hp]
  · simp [reduced, hp]

/-- A call begins before its report. -/
theorem reduced_call (hp : x.place = .running) :
    reduced (x.timeStepStart currentTime) = false ∧
      ∀ nextTime, reduced (x.getNextTime currentTime nextTime) = false := by
  have hx : reduced x = false := by simp [reduced, hp]
  refine ⟨?_, fun nextTime => ?_⟩
  · unfold Tick.timeStepStart
    split
    · exact hx
    · rfl
  · unfold Tick.getNextTime
    dsimp only
    split
    · exact hx
    split
    · exact reduced_lookAt hx _
    · exact reduced_lookAt hx []

/-- Only a difference gets a simulator past its report. -/
theorem reduced_resume {r : Reply} (h : reduced (x.resume woken r) = true) : reduced x = true ∨ ∃ d, r = .diff d := by
  obtain ⟨g, a, p, fin, fault⟩ := x
  cases p with
  | networkDelay l => exact .inl rfl
  | minTime l => exact .inl rfl
  | gather t l => exact .inl rfl
  | running => cases h
  | timeStepStart => cases r <;> cases h
  | waking rest l =>
    cases r with
    | ack =>
      have hlook := reduced_lookAt (x := ⟨g, { a with mightSleep := false }, .waking rest l, fin, fault⟩) (l := l) rfl rest
      cases hlook.symm.trans h
    | _ => cases h
  | waiting l => cases r <;> cases h
  | sendRecv l =>
    cases r with
    | diff d => exact .inr ⟨d, rfl⟩
    | _ => cases h

/-- A simulator is dormant after a reply because it was so before, or at the end of a turn, or after the loop over
its table. -/
theorem dormant_resume {r : Reply} (h : (x.resume woken r).Dormant) : x.resume woken r = x ∨ reduced x = true ∨
    (∃ rest l, x.place = .waking rest l) ∧ r = .ack := by
  obtain ⟨g, a, p, fin, fault⟩ := x
  cases p with
  | networkDelay l => exact .inr (.inl rfl)
  | minTime l => exact .inr (.inl rfl)
  | gather t l => exact .inr (.inl rfl)
  | running => exact .inl rfl
  | timeStepStart =>
    cases r with
    | ack =>
      obtain ⟨l, hl, -⟩ := h.place
      cases hl
    | _ => exact .inl rfl
  | waking rest l =>
    cases r with
    | ack => exact .inr (.inr ⟨⟨rest, l, rfl⟩, rfl⟩)
    | _ => exact .inl rfl
  | waiting l =>
    cases r with
    | ack =>
      obtain ⟨l', hl, -⟩ := h.place
      cases hl
    | _ => exact .inl rfl
  | sendRecv l =>
    cases r with
    | diff d =>
      obtain ⟨l', hl, -⟩ := h.place
      cases hl
    | _ => exact .inl rfl

end Tick

end Fncs.Exchange

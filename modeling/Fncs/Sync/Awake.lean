/-
Rounds in which all simulators of the sleeping algorithm are awake.

A simulator for which nobody is known to sleep asks for no sleep itself: its
difference is not 0, or it has been granted no time yet, or its call is past
the wait already. While this holds of all of them (`Unfilled`), they go through
the reductions together, up to a gather of their next times.
-/
import Fncs.Sync.Moves

namespace Fncs.Sleepers

open Broker (Request Reply Replies HelloGroup Refusal Frame Session)
open ConservativeSleepingTickAlgo (Locals)

/-- The collective the simulators are in, all of them. -/
inductive Stage
  /-- Up to the sums. -/
  | free
  | networkDelay
  | minTime
  | gather (minNextTime : TIME)
  deriving DecidableEq, Repr

namespace Stage

/-- Where a simulator may be, the last difference of the round being `D`. -/
inductive At (D : ℕ) (a : ConservativeSleepingTickAlgo) : Stage → Place → Prop
  | running (hd : a.diff = 0 → a.grantedTime = 0) : At D a .free .running
  | timeStepStart (hd : a.diff = 0 → a.grantedTime = 0) : At D a .free .timeStepStart
  | waiting {l : Locals} (hd : a.diff ≠ 0) : At D a .free (.waiting l)
  | sendRecv {l : Locals} : At D a .free (.sendRecv l)
  | networkDelay {l : Locals} (hd : a.diff = D) : At D a .networkDelay (.networkDelay l)
  | minTime {l : Locals} (hd : a.diff = D) : At D a .minTime (.minTime l)
  | gather {t : TIME} {l : Locals} (hd : a.diff = 0) (hle : t ≤ l.nextEstTime) : At D a (.gather t) (.gather t l)

/-- The stage that a reduction of times leads to. -/
def afterMinTime (D : ℕ) (t : TIME) : Stage → Stage
  | .networkDelay => .minTime
  | .minTime => if D = 0 then .gather t else .free
  | st => st

end Stage

namespace Tick

variable {ι : Type} {D : ℕ} {st : Stage} {x : Tick} {t τ : TIME} {ts : List TIME} {woken : Bool} {sent recv : ℕ}
  {delay : TIME}

/-- Nobody is known to sleep, and the simulator is not about to. -/
structure Unfilled (D : ℕ) (st : Stage) (x : Tick) : Prop where
  sound : x.fault = none
  mightSleep : x.algo.mightSleep = false
  place : st.At D x.algo x.place

theorem Unfilled.timeStepStart (h : Unfilled D st x) (hp : x.place = .running) {currentTime : TIME} :
    Unfilled D st (x.timeStepStart currentTime) := by
  obtain ⟨g, a, p, fin, fault⟩ := x
  obtain ⟨rfl, hm, hplace⟩ := h
  obtain rfl : p = .running := hp
  cases hplace with
  | running hd =>
    unfold Tick.timeStepStart
    split
    · exact ⟨rfl, hm, .running hd⟩
    · exact ⟨rfl, hm, .timeStepStart hd⟩

/-- The loop over the table is not entered, and granted time is waited for only after a difference. -/
theorem Unfilled.getNextTime (h : Unfilled D st x) (hp : x.place = .running) {currentTime nextTime : TIME} :
    Unfilled D st (x.getNextTime currentTime nextTime) := by
  obtain ⟨g, a, p, fin, fault⟩ := x
  obtain ⟨rfl, hm, hplace⟩ := h
  obtain rfl : p = .running := hp
  cases hplace with
  | running hd =>
    dsimp only at hm hd
    unfold Tick.getNextTime
    dsimp only
    split
    · exact ⟨rfl, hm, .running hd⟩
    rw [if_neg (by simp [hm])]
    unfold Tick.beginTurn
    split
    · next hb =>
      refine ⟨rfl, hm, .waiting fun h0 => ?_⟩
      simp [ConservativeSleepingTickAlgo.enter, hd h0] at hb
    · exact ⟨rfl, hm, .sendRecv⟩

/-- Nobody asks to sleep. -/
theorem Unfilled.not_sleep (h : Unfilled D st x) : x.request sent recv delay ≠ some (.sleep : Request ι) := by
  obtain ⟨g, a, p, fin, fault⟩ := x
  obtain ⟨rfl, hm, hplace⟩ := h
  cases hplace with
  | waiting hd => simpa [Tick.request, ConservativeSleepingTickAlgo.sleeps] using fun _ => hd
  | _ => simp [Tick.request]

theorem Unfilled.barrier (h : Unfilled D st x) (hr : x.request sent recv delay = some (.barrier : Request ι)) :
    Unfilled D st (x.resume woken .ack) := by
  obtain ⟨g, a, p, fin, fault⟩ := x
  obtain ⟨rfl, hm, hplace⟩ := h
  cases hplace with
  | timeStepStart hd => exact ⟨rfl, hm, .running hd⟩
  | waiting hd =>
    have hs (l : Locals) : a.sleeps l = false := by simpa [ConservativeSleepingTickAlgo.sleeps] using fun _ => hd
    simp only [Tick.resume, ConservativeSleepingTickAlgo.awake, hs, Bool.false_eq_true, if_false]
    exact ⟨rfl, hm, .sendRecv⟩
  | _ => simp [Tick.request] at hr

theorem Unfilled.sendRecv (h : Unfilled D st x) {s r d : ℕ}
    (hr : x.request sent recv delay = some (.reduceSendRecv s r : Request ι)) :
    Unfilled d .networkDelay (x.resume woken (.diff d)) := by
  obtain ⟨g, a, p, fin, fault⟩ := x
  obtain ⟨rfl, hm, hplace⟩ := h
  cases hplace with
  | sendRecv => exact ⟨rfl, hm, .networkDelay rfl⟩
  | waiting => simp [Tick.request, ite_eq_iff] at hr
  | _ => simp [Tick.request] at hr

theorem Unfilled.minTime (h : Unfilled D st x) (hr : x.request sent recv delay = some (.reduceMinTime τ : Request ι))
    (ht : t ≤ τ) : Unfilled D (st.afterMinTime D t) (x.resume woken (.time t)) := by
  obtain ⟨g, a, p, fin, fault⟩ := x
  obtain ⟨rfl, hm, hplace⟩ := h
  dsimp only at hm
  cases hplace with
  | networkDelay hd =>
    simp only [Tick.resume, ConservativeSleepingTickAlgo.propose, hm, Bool.and_false, Bool.false_eq_true, if_false]
    exact ⟨rfl, rfl, .minTime hd⟩
  | @minTime l hd =>
    subst hd
    by_cases hd : a.diff = 0
    · have hgathers : a.gathers = true := by simp [ConservativeSleepingTickAlgo.gathers, hm, hd]
      simp only [Tick.resume, hgathers, if_true, Stage.afterMinTime, hd]
      obtain rfl : l.nextEstTime = τ := by simpa [Tick.request] using hr
      exact ⟨rfl, hm, .gather hd ht⟩
    · have hgathers : ¬ a.gathers = true := by simp [ConservativeSleepingTickAlgo.gathers, hd]
      have hb : a.gather [] = some a := by rw [ConservativeSleepingTickAlgo.gather, if_neg hgathers]
      simp only [Tick.resume, if_neg hgathers, Stage.afterMinTime, if_neg hd]
      obtain ⟨l', -, -, hx⟩ | ⟨τ, -, hx⟩ | ⟨-, hx⟩ :=
        conclude_spec (x := ⟨g, a, .minTime l, fin, none⟩) (t := t) (l := l) hb
      · rw [hx]
        exact ⟨rfl, hm, .waiting hd⟩
      · rw [hx]
        exact ⟨rfl, hm, .running fun h0 => absurd h0 hd⟩
      · rw [hx]
        exact ⟨rfl, hm, .running fun h0 => absurd h0 hd⟩
  | waiting => simp [Tick.request, ite_eq_iff] at hr
  | _ => simp [Tick.request] at hr

end Tick

/-! ## All simulators -/

variable {ι : Type} [LinearOrder ι] {g : HelloGroup ι} {awake : Finset ι} {p : ι → Option (Request ι)}
  {ticks ticks' : ι → Tick} {woken : ι → Bool} {D : ℕ} {st : Stage}

/-- The whole group is awake. -/
theorem mem_awake_of_unfilled (h : ∀ i ∈ powerSims g, (ticks i).Unfilled D st) (hb : Blocked g p ticks)
    (hasleep : ∀ i ∈ powerSims g, i ∉ awake → p i = some .sleep) : ∀ i ∈ powerSims g, i ∈ awake := by
  intro i hi
  by_contra hia
  obtain ⟨_, _, _, hr⟩ := hb i hi _ (hasleep i hi hia)
  exact (h i hi).not_sleep hr

/-- What a gather of everybody's next times does. -/
structure Gathered (g : HelloGroup ι) (p : ι → Option (Request ι)) (woken : ι → Bool) (ticks ticks' : ι → Tick)
    (time : ι → TIME) (times : ι → List TIME) : Prop where
  asked : ∀ i ∈ powerSims g, p i = some (.allGatherNextTime (time i))
  others : ∀ i ∈ powerSims g, (times i : Multiset TIME) = ((powerSims g).erase i).val.map time
  moved : ∀ i ∈ powerSims g, ticks' i = (ticks i).resume (woken i) (.nextTimes (times i))

/-- The simulators stay together until they gather. -/
theorem unfilled_moves (h : ∀ i ∈ powerSims g, (ticks i).Unfilled D st) (hb : Blocked g p ticks)
    (hasleep : ∀ i ∈ powerSims g, i ∉ awake → p i = some .sleep) (hm : Moves g awake p woken ticks ticks') :
    (∃ time times, Gathered g p woken ticks ticks' time times) ∨
      ∃ D' st', ∀ i ∈ powerSims g, (ticks' i).Unfilled D' st' := by
  have hawake := mem_awake_of_unfilled h hb hasleep
  cases hm with
  | barrier hp hm =>
    refine .inr ⟨D, st, fun i hi => ?_⟩
    obtain ⟨_, _, _, hr⟩ := hb i hi _ (hp i hi (hawake i hi))
    rw [hm i hi, if_pos (hawake i hi)]
    exact (h i hi).barrier hr
  | minTime t hp hm =>
    refine .inr ⟨D, st.afterMinTime D t, fun i hi => ?_⟩
    obtain ⟨τ, hpi, ht⟩ := hp i hi (hawake i hi)
    obtain ⟨_, _, _, hr⟩ := hb i hi _ hpi
    rw [hm i hi, if_pos (hawake i hi)]
    exact (h i hi).minTime hr ht
  | sendRecv d hp hm =>
    refine .inr ⟨d, .networkDelay, fun i hi => ?_⟩
    obtain ⟨_, _, hpi⟩ := hp i hi (hawake i hi)
    obtain ⟨_, _, _, hr⟩ := hb i hi _ hpi
    rw [hm i hi, if_pos (hawake i hi)]
    exact (h i hi).sendRecv hr
  | gather time times hp htimes hm =>
    have hall : powerSims g ∩ awake = powerSims g := Finset.inter_eq_left.mpr hawake
    refine .inl ⟨time, times, fun i hi => hp i hi (hawake i hi), fun i hi => hall ▸ htimes i hi (hawake i hi), ?_⟩
    intro i hi
    rw [hm i hi, if_pos (hawake i hi)]
  | still hp hm =>
    refine .inr ⟨D, st, fun i hi => absurd (hawake i hi) (hp i hi)⟩
  | wake hp hm =>
    refine .inr ⟨D, st, fun i hi => ?_⟩
    obtain ⟨_, _, _, hr⟩ := hb i hi _ (hp i hi)
    exact absurd hr (h i hi).not_sleep

end Fncs.Sleepers

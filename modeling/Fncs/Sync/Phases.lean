/-
The phases of a run in which no call sleeps more than once before its first
reduction.

All simulators are awake up to a gather of their next times. Then all but those
at the minimum sleep. If there are two or more of these, each sleeps in its next
call, before any reduction, and when all of them have, everybody wakes. A single
one goes on alone. In neither case does a reduction take place that a simulator
misses in the middle of a call.
-/
import Fncs.Sync.Dormancy

namespace Fncs.Sleepers

open Broker (Request Reply Replies HelloGroup Refusal Frame Session)
open ConservativeSleepingTickAlgo (Locals)

/-! ## All simulators -/

variable {ι : Type} [LinearOrder ι] {g : HelloGroup ι} {awake : Finset ι} {p : ι → Option (Request ι)}
  {ticks ticks' : ι → Tick} {woken : ι → Bool} {D : ℕ} {st : Stage} {i : ι}

/-- Where a run is. -/
inductive Phase (g : HelloGroup ι) (ticks : ι → Tick) : Prop
  /-- A simulator has come to what C++ leaves undefined; the others wait for it. -/
  | stuck (i : ι) (hi : i ∈ powerSims g) (hf : (ticks i).fault ≠ none)
  | together (D : ℕ) (st : Stage) (h : ∀ i ∈ powerSims g, (ticks i).Unfilled D st)
  | sleepy (h : ∀ i ∈ powerSims g, (ticks i).Sleepy)
  | lone (k : ι) (hk : k ∈ powerSims g) (h : (ticks k).Lone) (hrest : ∀ j ∈ powerSims g, j ≠ k → (ticks j).Dormant)

/-- A fault of any simulator, or what else is known of each of them. -/
theorem Phase.of_forall {Q : ι → Prop} (h : ∀ i ∈ powerSims g, (ticks i).fault ≠ none ∨ Q i)
    (hQ : (∀ i ∈ powerSims g, Q i) → Phase g ticks) : Phase g ticks := by
  by_cases hf : ∃ i ∈ powerSims g, (ticks i).fault ≠ none
  · obtain ⟨i, hi, hf⟩ := hf
    exact .stuck i hi hf
  · exact hQ fun i hi => (h i hi).resolve_left fun hfi => hf ⟨i, hi, hfi⟩

/-- Nobody moves while one simulator is stuck. -/
theorem Moves.sound (hm : Moves g awake p woken ticks ticks') (hb : Blocked g p ticks)
    (hasleep : ∀ i ∈ powerSims g, i ∉ awake → p i = some .sleep) (hi : i ∈ powerSims g) : (ticks i).fault = none := by
  have hasks {r : Request ι} (hr : p i = some r) : (ticks i).fault = none := by
    obtain ⟨_, _, _, hreq⟩ := hb i hi r hr
    by_contra hf
    have hsome : (ticks i).fault.isSome = true := Option.isSome_iff_ne_none.mpr hf
    simp [Tick.request, hsome] at hreq
  by_cases hia : i ∈ awake
  · cases hm with
    | barrier hp _ => exact hasks (hp i hi hia)
    | minTime t hp _ =>
      obtain ⟨τ, hr, -⟩ := hp i hi hia
      exact hasks hr
    | sendRecv d hp _ =>
      obtain ⟨_, _, hr⟩ := hp i hi hia
      exact hasks hr
    | gather time times hp _ _ => exact hasks (hp i hi hia)
    | still hp _ => exact absurd hia (hp i hi)
    | wake hp _ => exact hasks (hp i hi)
  · exact hasks (hasleep i hi hia)

/-- What the gather of everybody's next times leads to. -/
theorem Gathered.phase {time : ι → TIME} {times : ι → List TIME}
    (hg : Gathered g p woken ticks ticks' time times) (h : ∀ i ∈ powerSims g, (ticks i).Unfilled D st)
    (hb : Blocked g p ticks) (hbounded : ∀ i ∈ powerSims g, (ticks' i).algo.Bounded (numberOfPowerSims g - 1)) :
    Phase g ticks' := by
  have hcases : ∀ i ∈ powerSims g, ∃ min, st = .gather min ∧ ((ticks' i).fault ≠ none ∨
      (min ≠ 0 ∧ (ticks' i).Dormant) ∨ (min ≠ 0 ∧ time i = min ∧ (ticks' i).Granted (times i) min) ∨
      (min = 0 ∧ (ticks' i).Ended)) := by
    intro i hi
    obtain ⟨_, _, _, hr⟩ := hb i hi _ (hg.asked i hi)
    obtain ⟨min, hst, -, hx⟩ := (h i hi).gathered hr (times i) (woken i)
    rw [← hg.moved i hi] at hx
    exact ⟨min, hst, hx⟩
  by_cases hmin : ∃ min, st = .gather min
  swap
  · refine .sleepy fun i hi => ?_
    obtain ⟨min, hst, -⟩ := hcases i hi
    exact absurd ⟨min, hst⟩ hmin
  obtain ⟨min, rfl⟩ := hmin
  have hcases : ∀ i ∈ powerSims g, (ticks' i).fault ≠ none ∨ (min ≠ 0 ∧ (ticks' i).Dormant) ∨
      (min ≠ 0 ∧ time i = min ∧ (ticks' i).Granted (times i) min) ∨ (min = 0 ∧ (ticks' i).Ended) := by
    intro i hi
    obtain ⟨_, hst, hx⟩ := hcases i hi
    cases hst
    exact hx
  by_cases hone : ∃ k ∈ powerSims g, min ≠ 0 ∧ time k = min ∧ (ticks' k).Granted (times k) min ∧
      ∀ j ∈ powerSims g, j ≠ k → time j ≠ min
  · obtain ⟨k, hk, hpos, htk, hgk, hothers⟩ := hone
    refine .of_forall (Q := fun i => i ≠ k → (ticks' i).Dormant) (fun i hi => ?_) fun hrest => .lone k hk hgk.lone hrest
    obtain hf | ⟨-, hd⟩ | ⟨-, ht, -⟩ | ⟨h0, -⟩ := hcases i hi
    · exact .inl hf
    · exact .inr fun _ => hd
    · exact .inr fun hik => absurd ht (hothers i hi hik)
    · exact absurd h0 hpos
  · refine .of_forall (Q := fun i => (ticks' i).Sleepy) (fun i hi => ?_) .sleepy
    obtain hf | ⟨-, hd⟩ | ⟨hpos, ht, hgi⟩ | ⟨-, he⟩ := hcases i hi
    · exact .inl hf
    · exact .inr (.dormant hd)
    · -- another simulator asked for the minimum as well
      have hother : ∃ j ∈ powerSims g, j ≠ i ∧ time j = min := by
        by_contra hno
        exact hone ⟨i, hi, hpos, ht, hgi, fun j hj hji htj => hno ⟨j, hj, hji, htj⟩⟩
      obtain ⟨j, hj, hji, htj⟩ := hother
      have hmem : j ∈ (powerSims g).erase i := Finset.mem_erase.mpr ⟨hji, hj⟩
      have hts : min ∈ times i := by
        rw [← Multiset.mem_coe, hg.others i hi, ← htj]
        exact Multiset.mem_map_of_mem time hmem
      have hsize : 0 < numberOfPowerSims g - 1 := by
        rw [numberOfPowerSims, ← Finset.card_erase_of_mem hi]
        exact Finset.card_pos.mpr ⟨j, hmem⟩
      exact .inr (.poised (hgi.poised (hbounded i hi) hsize hts))
    · exact .inr (.ended he)

/-- Who sleeps stays as it is, unless everybody does and is woken. -/
theorem Moves.kept {j : ι} (hm : Moves g awake p woken ticks ticks') (hb : Blocked g p ticks) (hj : j ∈ powerSims g)
    (hw : (ticks j).Dormant ∨ (ticks j).Waking) :
    ticks' j = ticks j ∨ ∀ i ∈ powerSims g, p i = some .sleep ∧ ticks' i = (ticks i).resume (woken i) .ack := by
  have hasks {r : Request ι} (hr : p j = some r) : r = .sleep := by
    obtain ⟨_, _, _, hreq⟩ := hb j hj r hr
    exact Tick.only_sleep hw hreq
  have resumes {reply : ι → Reply} (hm : Resumes g awake woken reply ticks ticks') (hja : j ∉ awake) :
      ticks' j = ticks j := by rw [hm j hj, if_neg hja]
  cases hm with
  | barrier hp hm => exact .inl (resumes hm fun hja => by cases hasks (hp j hj hja))
  | minTime t hp hm =>
    refine .inl (resumes hm fun hja => ?_)
    obtain ⟨τ, hr, -⟩ := hp j hj hja
    cases hasks hr
  | sendRecv d hp hm =>
    refine .inl (resumes hm fun hja => ?_)
    obtain ⟨_, _, hr⟩ := hp j hj hja
    cases hasks hr
  | gather time times hp _ hm => exact .inl (resumes hm fun hja => by cases hasks (hp j hj hja))
  | still _ hm => exact .inl (hm j hj)
  | wake hp hm => exact .inr fun i hi => ⟨hp i hi, hm i hi⟩

/-- Everybody is woken. -/
theorem Phase.of_woken (hw : ∀ i ∈ powerSims g, (ticks i).Dormant ∨ (ticks i).Waking)
    (hm : ∀ i ∈ powerSims g, ticks' i = (ticks i).resume (woken i) .ack) : Phase g ticks' := by
  refine .of_forall (Q := fun i => (ticks' i).Unfilled 0 .free) (fun i hi => ?_) (.together 0 .free)
  rw [hm i hi]
  obtain hd | hwaking := hw i hi
  · exact .inr hd.wake
  · exact hwaking.wake

/-- The simulators that sleep or are about to. -/
theorem Phase.sleepy_moves (h : ∀ i ∈ powerSims g, (ticks i).Sleepy) (hb : Blocked g p ticks)
    (hm : Moves g awake p woken ticks ticks') : Phase g ticks' := by
  have hasks {i : ι} (hi : i ∈ powerSims g) {r : Request ι} (hr : p i = some r) :
      (r = .sleep ∧ ((ticks i).Dormant ∨ (ticks i).Waking)) ∨
        (r = .barrier ∧ ((ticks i).resume (woken i) .ack).Sleepy) := by
    obtain ⟨_, _, _, hreq⟩ := hb i hi r hr
    exact (h i hi).of_request hreq
  have resumes {reply : ι → Reply} (hm : Resumes g awake woken reply ticks ticks')
      (hr : ∀ i ∈ powerSims g, i ∈ awake → ((ticks i).resume (woken i) (reply i)).Sleepy) : Phase g ticks' := by
    refine .sleepy fun i hi => ?_
    rw [hm i hi]
    split
    · next hia => exact hr i hi hia
    · exact h i hi
  cases hm with
  | barrier hp hm =>
    refine resumes hm fun i hi hia => ?_
    obtain ⟨hr, -⟩ | ⟨-, hs⟩ := hasks hi (hp i hi hia)
    · cases hr
    · exact hs
  | minTime t hp hm =>
    refine resumes hm fun i hi hia => ?_
    obtain ⟨τ, hpi, -⟩ := hp i hi hia
    obtain ⟨hr, -⟩ | ⟨hr, -⟩ := hasks hi hpi
    · cases hr
    · cases hr
  | sendRecv d hp hm =>
    refine resumes hm fun i hi hia => ?_
    obtain ⟨_, _, hpi⟩ := hp i hi hia
    obtain ⟨hr, -⟩ | ⟨hr, -⟩ := hasks hi hpi
    · cases hr
    · cases hr
  | gather time times hp _ hm =>
    refine resumes hm fun i hi hia => ?_
    obtain ⟨hr, -⟩ | ⟨hr, -⟩ := hasks hi (hp i hi hia)
    · cases hr
    · cases hr
  | still _ hm =>
    refine .sleepy fun i hi => ?_
    rw [hm i hi]
    exact h i hi
  | wake hp hm =>
    refine .of_woken (fun i hi => ?_) hm
    obtain ⟨-, hw⟩ | ⟨hr, -⟩ := hasks hi (hp i hi)
    · exact hw
    · cases hr

/-- One simulator goes on, and the others sleep. -/
theorem Phase.lone_moves {k : ι} (hk : k ∈ powerSims g) (h : (ticks k).Lone)
    (hrest : ∀ j ∈ powerSims g, j ≠ k → (ticks j).Dormant) (hb : Blocked g p ticks)
    (hm : Moves g awake p woken ticks ticks') : Phase g ticks' := by
  by_cases hwake : ∀ i ∈ powerSims g, p i = some .sleep ∧ ticks' i = (ticks i).resume (woken i) .ack
  · refine .of_woken (fun i hi => ?_) fun i hi => (hwake i hi).2
    by_cases hik : i = k
    · subst hik
      obtain ⟨_, _, _, hr⟩ := hb i hi _ (hwake i hi).1
      exact h.of_sleep hr
    · exact .inl (hrest i hi hik)
  have hothers : ∀ j ∈ powerSims g, j ≠ k → (ticks' j).Dormant := by
    intro j hj hjk
    have hd := hrest j hj hjk
    rw [(hm.kept hb hj (.inl hd)).resolve_right hwake]
    exact hd
  have hlone (hx : (ticks' k).fault ≠ none ∨ (ticks' k).Lone) : Phase g ticks' :=
    hx.elim (.stuck k hk) fun hx => .lone k hk hx hothers
  have resumes {reply : ι → Reply} (hm : Resumes g awake woken reply ticks ticks')
      (hx : k ∈ awake → ((ticks k).resume (woken k) (reply k)).fault ≠ none ∨
        ((ticks k).resume (woken k) (reply k)).Lone) : Phase g ticks' := by
    refine hlone ?_
    rw [hm k hk]
    split
    · next hka => exact hx hka
    · exact .inr h
  cases hm with
  | barrier hp hm =>
    refine resumes hm fun hka => ?_
    obtain ⟨_, _, _, hr⟩ := hb k hk _ (hp k hk hka)
    exact .inr (h.barrier hr)
  | minTime t hp hm =>
    refine resumes hm fun hka => ?_
    obtain ⟨τ, hpk, -⟩ := hp k hk hka
    obtain ⟨_, _, _, hr⟩ := hb k hk _ hpk
    exact h.minTime hr
  | sendRecv d hp hm =>
    refine resumes hm fun hka => ?_
    obtain ⟨_, _, hpk⟩ := hp k hk hka
    obtain ⟨_, _, _, hr⟩ := hb k hk _ hpk
    exact .inr (h.sendRecv hr)
  | gather time times hp _ hm =>
    refine resumes hm fun hka => ?_
    obtain ⟨_, _, _, hr⟩ := hb k hk _ (hp k hk hka)
    exact absurd hr h.not_gather
  | still _ hm =>
    refine hlone ?_
    rw [hm k hk]
    exact .inr h
  | wake hp hm => exact absurd (fun i hi => ⟨hp i hi, hm i hi⟩) hwake

/-- What the broker lets go leads from phase to phase. -/
theorem Phase.moves (h : Phase g ticks) (hb : Blocked g p ticks)
    (hasleep : ∀ i ∈ powerSims g, i ∉ awake → p i = some .sleep) (hm : Moves g awake p woken ticks ticks')
    (hbounded : ∀ i ∈ powerSims g, (ticks' i).algo.Bounded (numberOfPowerSims g - 1)) : Phase g ticks' := by
  cases h with
  | stuck i hi hf => exact absurd (hm.sound hb hasleep hi) hf
  | together D st h =>
    obtain ⟨time, times, hg⟩ | ⟨D', st', h'⟩ := unfilled_moves h hb hasleep hm
    · exact hg.phase h hb hbounded
    · exact .together D' st' h'
  | sleepy h => exact sleepy_moves h hb hm
  | lone k hk h hrest => exact lone_moves hk h hrest hb hm

/-! ## Runs -/

variable {s s' : State ι}

/-- A call sleeps at most once before its first reduction. -/
def SleepsOnce (s : State ι) : Event ι → Prop
  | .getNextTime i currentTime nextTime =>
    ConservativeSleepingTickAlgo.returnsAtOnce (s.ticks i).algo.grantedTime nextTime = false →
      (s.ticks i).sleepsFirst currentTime nextTime ≤ 1
  | .timeStepStart .. | .request .. | .netSim .. => True

instance (s : State ι) : (e : Event ι) → Decidable (SleepsOnce s e)
  | .getNextTime i currentTime nextTime => inferInstanceAs (Decidable
    (ConservativeSleepingTickAlgo.returnsAtOnce (s.ticks i).algo.grantedTime nextTime = false →
      (s.ticks i).sleepsFirst currentTime nextTime ≤ 1))
  | .timeStepStart .. | .request .. | .netSim .. => isTrue trivial

/-- Who was told to finish makes no call. -/
def Unfinished (s : State ι) : Event ι → Prop
  | .timeStepStart i _ | .getNextTime i _ _ => (s.ticks i).finished = false
  | .request .. | .netSim .. => True

/-- The simulator that calls moves, and no other. -/
theorem call_ticks {F : Tick → Tick} (hs : s.call g i F = .ok s') :
    s'.ticks i = F (s.ticks i) ∧ ∀ j, j ≠ i → s'.ticks j = s.ticks j := by
  obtain ⟨-, rfl⟩ := call_ok.mp hs
  exact ⟨Function.update_self .., fun j hj => Function.update_of_ne hj ..⟩

/-- A call of a simulator outside the algorithm, of which it is known what it does in each phase. -/
theorem Phase.call (h : Phase g s.ticks) {F : Tick → Tick}
    (htogether : ∀ D st, (s.ticks i).Unfilled D st → (s.ticks i).place = .running → (F (s.ticks i)).Unfilled D st)
    (hsleepy : (s.ticks i).Sleepy → (s.ticks i).place = .running →
      (F (s.ticks i)).fault ≠ none ∨ (F (s.ticks i)).Sleepy)
    (hlone : (s.ticks i).Lone → (s.ticks i).place = .running → (F (s.ticks i)).fault ≠ none ∨ (F (s.ticks i)).Lone)
    (hs : s.call g i F = .ok s') : Phase g s'.ticks := by
  obtain ⟨⟨hi, hrun, hsound⟩, -⟩ := call_ok.mp hs
  obtain ⟨hself, hother⟩ := call_ticks hs
  rw [← hself] at htogether hsleepy hlone
  cases h with
  | stuck j hj hf =>
    have hji : j ≠ i := by
      intro hji
      subst hji
      exact hf hsound
    exact .stuck j hj (by rwa [hother j hji])
  | together D st h =>
    refine .together D st fun j hj => ?_
    by_cases hji : j = i
    · subst hji
      exact htogether D st (h j hj) hrun
    · rw [hother j hji]
      exact h j hj
  | sleepy h =>
    refine .of_forall (Q := fun j => (s'.ticks j).Sleepy) (fun j hj => ?_) .sleepy
    by_cases hji : j = i
    · subst hji
      exact hsleepy (h j hj) hrun
    · rw [hother j hji]
      exact .inr (h j hj)
  | lone k hk h hrest =>
    -- the others sleep, so the call is that of `k`
    have hik : i = k := by
      by_contra hik
      obtain ⟨l, hl, -⟩ := (hrest i hi hik).place
      rw [hrun] at hl
      cases hl
    subst hik
    obtain hf | hl := hlone h hrun
    · exact .stuck i hi hf
    · refine .lone i hi hl fun j hj hji => ?_
      rw [hother j hji]
      exact hrest j hj hji

/-- The simulators wait for the requests they block in, and their run is in some phase. -/
structure Paced (g : HelloGroup ι) (s : State ι) : Prop where
  linked : Linked g s
  phase : Phase g s.ticks

theorem Paced.start (g : HelloGroup ι) (integrator : ι → Integrator) (fresh : ι → ℕ → TIME) :
    Paced g (.start g integrator fresh g.formed) where
  linked := .start g integrator fresh
  phase := .together 0 .free fun _ _ => ⟨rfl, rfl, .running fun _ => rfl⟩

theorem Paced.send {f : Frame ι} (h : Paced g s) (hf : Sends g s f) (hs : s.send g f woken = .ok s') : Paced g s' := by
  obtain ⟨hlinked, -, hmoves⟩ := h.linked.send hf hs
  refine ⟨hlinked, ?_⟩
  obtain hsame | ⟨awake, hm, hasleep⟩ := hmoves
  · rw [hsame]
    exact h.phase
  · exact h.phase.moves (h.linked.blocked.posted hf) hasleep hm hlinked.bounded

/-- What one step keeps. -/
theorem Paced.step (h : Paced g s) {e : Event ι} (hfin : Unfinished s e) (honce : SleepsOnce s e)
    (hs : s.step g e = .ok s') : Paced g s' := by
  obtain ⟨i, currentTime, rfl, hs⟩ | ⟨i, currentTime, nextTime, rfl, hs⟩ | ⟨i, _, _, _, _, r, -, -, -, hf, hs⟩ |
    ⟨r, _, -, hf, hs⟩ := step_cases hs
  · have hfin : (s.ticks i).finished = false := hfin
    refine ⟨h.linked.call (fun _ => Tick.algo_timeStepStart) hs, h.phase.call ?_ ?_ ?_ hs⟩
    · exact fun D st hx hp => hx.timeStepStart hp
    · exact fun hx hp => .inr (.poised (hx.of_running hp hfin).timeStepStart)
    · exact fun hx hp => .inr (hx.timeStepStart hp)
  · have hfin : (s.ticks i).finished = false := hfin
    have honce : ConservativeSleepingTickAlgo.returnsAtOnce (s.ticks i).algo.grantedTime nextTime = false →
      (s.ticks i).sleepsFirst currentTime nextTime ≤ 1 := honce
    refine ⟨h.linked.call (fun _ => Tick.algo_getNextTime) hs, h.phase.call ?_ ?_ ?_ hs⟩
    · exact fun D st hx hp => hx.getNextTime hp
    · exact fun hx hp => ((hx.of_running hp hfin).getNextTime honce).imp_right fun hx' => hx'.elim .poised .waking
    · exact fun hx hp => hx.getNextTime hp honce
  · exact h.send hf hs
  · exact h.send hf hs

end Fncs.Sleepers

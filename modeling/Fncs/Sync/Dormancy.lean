/-
Simulators of which a call sleeps at most once before its first reduction.

Such a simulator sleeps in the wait of a turn (`Dormant`), or in the loop over
its table, whose other entries it stays below (`Waking`). Woken, it goes on to
the reductions with everybody else. After a gather it has been granted the
minimum, or is dormant. Granted the minimum with another one, it sleeps in its
next call whatever that asks for (`Poised`); granted it alone, it goes on
without the others up to the entries of its table (`Lone`).
-/
import Fncs.Sync.Awake

namespace Fncs.Sleepers

open Broker (Request Reply Replies HelloGroup Refusal Frame Session)
open ConservativeSleepingTickAlgo (Locals)

namespace Tick

/-- How often a call that does not return at once sleeps before its first reduction. -/
def sleepsFirst (currentTime nextTime : TIME) (x : Tick) : ℕ :=
  (x.algo.passed nextTime).length + if x.algo.diff = 0 ∧ currentTime < x.algo.grantedTime then 1 else 0

variable {ι : Type} {D : ℕ} {st : Stage} {x : Tick} {l : Locals} {t τ : TIME} {ts : List TIME} {woken : Bool}
  {sent recv : ℕ} {delay currentTime nextTime : TIME} {r : Request ι}

/-! ## The loop over the table -/

/-- The loop reads an entry that was never written, or sleeps at the first entry that `nextTime` has come
up to, or finds none. -/
theorem lookAt_cases (es : List Entry) : (x.lookAt l es).fault ≠ none ∨
    (∃ pre e rest, es = pre ++ e :: rest ∧ l.nextTime ≥ e.value ∧ x.lookAt l es = { x with place := .waking rest l }) ∨
    ((∀ e ∈ es, e.written = true ∧ l.nextTime < e.value) ∧ x.lookAt l es = x.beginTurn l) := by
  induction es with
  | nil => exact .inr (.inr ⟨nofun, rfl⟩)
  | cons e rest ih =>
    unfold Tick.lookAt
    split
    · exact .inl (by simp)
    next hw =>
    split
    · next hv => exact .inr (.inl ⟨[], e, rest, rfl, hv, rfl⟩)
    next hv =>
    obtain hf | ⟨pre, e', rest', rfl, hv', hx⟩ | ⟨hall, hx⟩ := ih
    · exact .inl hf
    · exact .inr (.inl ⟨e :: pre, e', rest', rfl, hv', hx⟩)
    · refine .inr (.inr ⟨?_, hx⟩)
      intro e' he'
      obtain rfl | he' := List.mem_cons.mp he'
      · exact ⟨by simpa using hw, Nat.lt_of_not_le hv⟩
      · exact hall e' he'

/-! ## A simulator that sleeps -/

/-- In the wait of a turn, asleep or about to. -/
structure Dormant (x : Tick) : Prop where
  sound : x.fault = none
  diff : x.algo.diff = 0
  place : ∃ l, x.place = .waiting l ∧ l.busywait = true

/-- In the sleep of the loop over the table, and the only one of the call. -/
structure Waking (x : Tick) : Prop where
  sound : x.fault = none
  place : ∃ rest l, x.place = .waking rest l ∧ (∀ e ∈ rest, l.nextTime < e.value) ∧
    (l.busywait = true → x.algo.diff ≠ 0)

theorem Dormant.request (h : Dormant x) : x.request sent recv delay = some (.sleep : Request ι) := by
  obtain ⟨g, a, p, fin, fault⟩ := x
  obtain ⟨rfl, hd, l, rfl, hb⟩ := h
  simpa [Tick.request, ConservativeSleepingTickAlgo.sleeps, hb] using hd

theorem Waking.request (h : Waking x) : x.request sent recv delay = some (.sleep : Request ι) := by
  obtain ⟨g, a, p, fin, fault⟩ := x
  obtain ⟨rfl, rest, l, rfl, -, -⟩ := h
  rfl

theorem only_sleep (h : Dormant x ∨ Waking x) (hr : x.request sent recv delay = some r) : r = .sleep := by
  obtain h | h := h
  · rw [h.request] at hr
    exact (Option.some.inj hr).symm
  · rw [h.request] at hr
    exact (Option.some.inj hr).symm

/-- Awake again, the simulator is past every wait. -/
theorem Dormant.wake (h : Dormant x) : (x.resume woken .ack).Unfilled 0 .free := by
  obtain ⟨g, a, p, fin, fault⟩ := x
  obtain ⟨rfl, hd, l, rfl, hb⟩ := h
  have hs : a.sleeps l = true := by simpa [ConservativeSleepingTickAlgo.sleeps, hb] using hd
  simp only [Tick.resume, ConservativeSleepingTickAlgo.awake, hs, if_true]
  exact ⟨rfl, rfl, .sendRecv⟩

theorem Waking.wake (h : Waking x) : (x.resume woken .ack).fault ≠ none ∨ (x.resume woken .ack).Unfilled 0 .free := by
  obtain ⟨g, a, p, fin, fault⟩ := x
  obtain ⟨rfl, rest, l, rfl, hrest, hb⟩ := h
  simp only [Tick.resume]
  obtain hf | ⟨pre, e, rest', rfl, hv, -⟩ | ⟨-, hx⟩ :=
    lookAt_cases (x := ⟨g, { a with mightSleep := false }, .waking rest l, fin, none⟩) (l := l) rest
  · exact .inl hf
  · exact absurd (hrest e (by simp)) (Nat.not_lt.mpr hv)
  · rw [hx]
    refine .inr ⟨rfl, rfl, ?_⟩
    dsimp only [Tick.beginTurn]
    split
    · next hbusy => exact .waiting (hb hbusy)
    · exact .sendRecv

/-! ## After a gather with two or more at the minimum -/

/-- Outside the algorithm, with an entry that the next call comes up to. -/
structure Poised (x : Tick) : Prop where
  sound : x.fault = none
  mightSleep : x.algo.mightSleep = true
  place : x.place = .running ∨ x.place = .timeStepStart
  entry : ∃ e ∈ x.algo.powersimgrantedTime, e.written = true → e.value ≤ x.algo.grantedTime

/-- Told to finish. -/
structure Ended (x : Tick) : Prop where
  sound : x.fault = none
  finished : x.finished = true
  place : x.place = .running

/-- Asleep, or about to sleep before anything else. -/
inductive Sleepy (x : Tick) : Prop
  | dormant (h : Dormant x)
  | waking (h : Waking x)
  | poised (h : Poised x)
  | ended (h : Ended x)

/-- All it asks for is to sleep, or the barrier of `timeStepStart`. -/
theorem Sleepy.of_request {w : Bool} (h : Sleepy x) (hr : x.request sent recv delay = some r) :
    (r = .sleep ∧ (Dormant x ∨ Waking x)) ∨ (r = .barrier ∧ Sleepy (x.resume w .ack)) := by
  cases h with
  | dormant h =>
    rw [h.request] at hr
    exact .inl ⟨(Option.some.inj hr).symm, .inl h⟩
  | waking h =>
    rw [h.request] at hr
    exact .inl ⟨(Option.some.inj hr).symm, .inr h⟩
  | poised h =>
    obtain ⟨g, a, p, fin, fault⟩ := x
    obtain ⟨rfl, hm, hp, he⟩ := h
    obtain rfl | rfl : p = .running ∨ p = .timeStepStart := hp
    · simp [Tick.request] at hr
    · refine .inr ⟨?_, .poised ⟨rfl, hm, .inl rfl, he⟩⟩
      simpa [Tick.request, eq_comm] using hr
  | ended h =>
    obtain ⟨g, a, p, fin, fault⟩ := x
    obtain ⟨rfl, -, rfl⟩ := h
    simp [Tick.request] at hr

/-- A simulator that may make a call is poised. -/
theorem Sleepy.of_running (h : Sleepy x) (hp : x.place = .running) (hf : x.finished = false) : Poised x := by
  cases h with
  | dormant h =>
    obtain ⟨l, hl, -⟩ := h.place
    rw [hp] at hl
    cases hl
  | waking h =>
    obtain ⟨rest, l, hl, -⟩ := h.place
    rw [hp] at hl
    cases hl
  | poised h => exact h
  | ended h =>
    have hfin := h.finished
    rw [hf] at hfin
    cases hfin

theorem Poised.timeStepStart (h : Poised x) : Poised (x.timeStepStart currentTime) := by
  unfold Tick.timeStepStart
  split
  · exact h
  · exact ⟨h.sound, h.mightSleep, .inr rfl, h.entry⟩

/-- The rest of the loop, and the wait after it, let a call that sleeps once go on. -/
theorem waking_of_once (hsound : x.fault = none) (hm : x.algo.mightSleep = true)
    (hl : l = ConservativeSleepingTickAlgo.enter x.algo.grantedTime currentTime nextTime)
    (honce : x.sleepsFirst currentTime nextTime ≤ 1) {pre rest : List Entry} {e : Entry}
    (hes : x.algo.powersimgrantedTime = pre ++ e :: rest) (he : nextTime ≥ e.value) :
    Waking { x with place := .waking rest l } := by
  have hpassed : (x.algo.passed nextTime).length =
      (pre.filter fun e => nextTime ≥ e.value).length + (rest.filter fun e => nextTime ≥ e.value).length + 1 := by
    rw [ConservativeSleepingTickAlgo.passed, if_pos hm, hes, List.filter_append, List.length_append,
      List.filter_cons_of_pos (by simpa using he), List.length_cons]
    omega
  unfold sleepsFirst at honce
  refine ⟨hsound, rest, l, rfl, ?_, ?_⟩
  · have hnone : (rest.filter fun e => nextTime ≥ e.value).length = 0 := by omega
    intro e' he'
    have hnot := List.filter_eq_nil_iff.mp (List.length_eq_zero_iff.mp hnone) e' he'
    rw [hl]
    simpa [ConservativeSleepingTickAlgo.enter] using hnot
  · intro hb hd
    rw [hl] at hb
    have hlt : currentTime < x.algo.grantedTime := by simpa [ConservativeSleepingTickAlgo.enter] using hb
    have hcount : (if x.algo.diff = 0 ∧ currentTime < x.algo.grantedTime then 1 else 0) = 1 := if_pos ⟨hd, hlt⟩
    omega

/-- The call is over at once, or sleeps. -/
theorem Poised.getNextTime (h : Poised x)
    (honce : ConservativeSleepingTickAlgo.returnsAtOnce x.algo.grantedTime nextTime = false →
      x.sleepsFirst currentTime nextTime ≤ 1) :
    (x.getNextTime currentTime nextTime).fault ≠ none ∨ Poised (x.getNextTime currentTime nextTime) ∨
      Waking (x.getNextTime currentTime nextTime) := by
  unfold Tick.getNextTime
  dsimp only
  split
  · exact .inr (.inl h)
  next hat =>
  have hge : x.algo.grantedTime ≤ nextTime := by simpa [ConservativeSleepingTickAlgo.returnsAtOnce] using hat
  rw [if_pos h.mightSleep]
  obtain hfault | ⟨pre, e, rest, hes, hv, hx⟩ | ⟨hall, -⟩ := lookAt_cases (x := x)
    (l := ConservativeSleepingTickAlgo.enter x.algo.grantedTime currentTime nextTime) x.algo.powersimgrantedTime
  · exact .inl hfault
  · rw [hx]
    exact .inr (.inr (waking_of_once h.sound h.mightSleep rfl (honce (by simpa using hat)) hes hv))
  · -- the entry that the call comes up to is not passed over
    obtain ⟨e, he, hle⟩ := h.entry
    obtain ⟨hw, hlt⟩ := hall e he
    have hlt : nextTime < e.value := hlt
    exact absurd ((hle hw).trans hge) (Nat.not_le.mpr hlt)

/-! ## A single simulator at the minimum -/

/-- Where a simulator may be that knows of sleepers. -/
inductive LoneAt (a : ConservativeSleepingTickAlgo) : Place → Prop
  | running : LoneAt a .running
  | timeStepStart : LoneAt a .timeStepStart
  | waiting {l : Locals} (hd : a.diff ≠ 0) : LoneAt a (.waiting l)
  | sendRecv {l : Locals} : LoneAt a (.sendRecv l)
  | networkDelay {l : Locals} : LoneAt a (.networkDelay l)
  | minTime {l : Locals} : LoneAt a (.minTime l)

/-- Going on without the others, or asleep as well. -/
inductive Lone (x : Tick) : Prop
  | dormant (h : Dormant x)
  | waking (h : Waking x)
  | awake (hsound : x.fault = none) (hm : x.algo.mightSleep = true) (hp : LoneAt x.algo x.place)

theorem Lone.sound (h : Lone x) : x.fault = none := by
  cases h with
  | dormant h => exact h.sound
  | waking h => exact h.sound
  | awake hsound _ _ => exact hsound

/-- Outside the algorithm it knows of sleepers. -/
theorem Lone.of_running (h : Lone x) (hp : x.place = .running) : x.algo.mightSleep = true := by
  cases h with
  | dormant h =>
    obtain ⟨l, hl, -⟩ := h.place
    rw [hp] at hl
    cases hl
  | waking h =>
    obtain ⟨rest, l, hl, -⟩ := h.place
    rw [hp] at hl
    cases hl
  | awake _ hm _ => exact hm

theorem Lone.timeStepStart (h : Lone x) (hp : x.place = .running) : Lone (x.timeStepStart currentTime) := by
  unfold Tick.timeStepStart
  split
  · exact h
  · exact .awake h.sound (h.of_running hp) .timeStepStart

theorem Lone.getNextTime (h : Lone x) (hp : x.place = .running)
    (honce : ConservativeSleepingTickAlgo.returnsAtOnce x.algo.grantedTime nextTime = false →
      x.sleepsFirst currentTime nextTime ≤ 1) :
    (x.getNextTime currentTime nextTime).fault ≠ none ∨ Lone (x.getNextTime currentTime nextTime) := by
  have hm := h.of_running hp
  unfold Tick.getNextTime
  dsimp only
  split
  · exact .inr h
  next hat =>
  obtain hfault | ⟨pre, e, rest, hes, hv, hx⟩ | ⟨-, hx⟩ := lookAt_cases (x := x)
    (l := ConservativeSleepingTickAlgo.enter x.algo.grantedTime currentTime nextTime) x.algo.powersimgrantedTime
  · exact .inl hfault
  · rw [hx]
    exact .inr (.waking (waking_of_once h.sound hm rfl (honce (by simpa using hat)) hes hv))
  · rw [hx]
    unfold Tick.beginTurn
    split
    · next hb =>
      by_cases hd : x.algo.diff = 0
      · exact .inr (.dormant ⟨h.sound, hd, _, rfl, hb⟩)
      · exact .inr (.awake h.sound hm (.waiting hd))
    · exact .inr (.awake h.sound hm .sendRecv)

/-- A request to sleep is one of these two. -/
theorem Lone.of_sleep (h : Lone x) (hr : x.request sent recv delay = some (.sleep : Request ι)) :
    Dormant x ∨ Waking x := by
  cases h with
  | dormant h => exact .inl h
  | waking h => exact .inr h
  | awake hsound hm hp =>
    obtain ⟨g, a, p, fin, fault⟩ := x
    obtain rfl : fault = none := hsound
    cases hp with
    | waiting hd => simp [Tick.request, ConservativeSleepingTickAlgo.sleeps, hd] at hr
    | _ => simp [Tick.request] at hr

/-- Any other comes from where it goes on. -/
theorem Lone.of_request (h : Lone x) (hr : x.request sent recv delay = some r) (hne : r ≠ .sleep) :
    x.fault = none ∧ x.algo.mightSleep = true ∧ LoneAt x.algo x.place := by
  cases h with
  | dormant h =>
    rw [h.request] at hr
    exact absurd (Option.some.inj hr).symm hne
  | waking h =>
    rw [h.request] at hr
    exact absurd (Option.some.inj hr).symm hne
  | awake hsound hm hp => exact ⟨hsound, hm, hp⟩

theorem Lone.barrier (h : Lone x) (hr : x.request sent recv delay = some (.barrier : Request ι)) :
    Lone (x.resume woken .ack) := by
  obtain ⟨hsound, hm, hp⟩ := h.of_request hr (by simp)
  obtain ⟨g, a, p, fin, fault⟩ := x
  obtain rfl : fault = none := hsound
  cases hp with
  | timeStepStart => exact .awake rfl hm .running
  | waiting hd =>
    have hs (l : Locals) : a.sleeps l = false := by simpa [ConservativeSleepingTickAlgo.sleeps] using fun _ => hd
    simp only [Tick.resume, ConservativeSleepingTickAlgo.awake, hs, Bool.false_eq_true, if_false]
    exact .awake rfl hm .sendRecv
  | _ => simp [Tick.request] at hr

theorem Lone.sendRecv (h : Lone x) {s r d : ℕ}
    (hr : x.request sent recv delay = some (.reduceSendRecv s r : Request ι)) : Lone (x.resume woken (.diff d)) := by
  obtain ⟨hsound, hm, hp⟩ := h.of_request hr (by simp)
  obtain ⟨g, a, p, fin, fault⟩ := x
  obtain rfl : fault = none := hsound
  cases hp with
  | sendRecv => exact .awake rfl hm .networkDelay
  | waiting => simp [Tick.request, ite_eq_iff] at hr
  | _ => simp [Tick.request] at hr

/-- The minimum alone ends the turn. -/
theorem Lone.minTime (h : Lone x) (hr : x.request sent recv delay = some (.reduceMinTime τ : Request ι)) :
    (x.resume woken (.time t)).fault ≠ none ∨ Lone (x.resume woken (.time t)) := by
  obtain ⟨hsound, hm, hp⟩ := h.of_request hr (by simp)
  obtain ⟨g, a, p, fin, fault⟩ := x
  obtain rfl : fault = none := hsound
  dsimp only at hm
  cases hp with
  | networkDelay =>
    simp only [Tick.resume]
    split
    · next b l' hb => exact .inr (.awake rfl ((ConservativeSleepingTickAlgo.propose_mightSleep hb).trans hm) .minTime)
    · exact .inl (by simp)
  | @minTime l =>
    have hgathers : ¬ a.gathers = true := by simp [ConservativeSleepingTickAlgo.gathers, hm]
    have hb : a.gather [] = some a := by rw [ConservativeSleepingTickAlgo.gather, if_neg hgathers]
    simp only [Tick.resume, if_neg hgathers]
    obtain ⟨l', hbusy, -, hx⟩ | ⟨τ, -, hx⟩ | ⟨-, hx⟩ :=
      conclude_spec (x := ⟨g, a, .minTime l, fin, none⟩) (t := t) (l := l) hb
    · rw [hx]
      by_cases hd : a.diff = 0
      · exact .inr (.dormant ⟨rfl, hd, l', rfl, hbusy⟩)
      · exact .inr (.awake rfl hm (.waiting hd))
    · rw [hx]
      exact .inr (.awake rfl hm .running)
    · rw [hx]
      exact .inr (.awake rfl hm .running)
  | waiting => simp [Tick.request, ite_eq_iff] at hr
  | _ => simp [Tick.request] at hr

/-- Nobody known to sleep is asked for its next time. -/
theorem Lone.not_gather (h : Lone x) : x.request sent recv delay ≠ some (.allGatherNextTime τ : Request ι) := by
  intro hr
  obtain ⟨hsound, -, hp⟩ := h.of_request hr (by simp)
  obtain ⟨g, a, p, fin, fault⟩ := x
  obtain rfl : fault = none := hsound
  cases hp with
  | waiting => simp [Tick.request, ite_eq_iff] at hr
  | _ => simp [Tick.request] at hr

/-! ## The gather -/

/-- Granted the minimum, which is what it asked for; the others' times are in the table. -/
structure Granted (ts : List TIME) (t : TIME) (x : Tick) : Prop where
  sound : x.fault = none
  mightSleep : x.algo.mightSleep = true
  place : x.place = .running
  grantedTime : x.algo.grantedTime = t
  table : ∀ u ∈ ts, u ≠ Infinity → ∃ e ∈ x.algo.powersimgrantedTime, e.value = u

theorem Granted.lone (h : Granted ts t x) : Lone x :=
  .awake h.sound h.mightSleep (h.place ▸ .running)

/-- The next call comes up to the time of another simulator that was granted the minimum too. -/
theorem Granted.poised {n : ℕ} (h : Granted ts t x) (hb : x.algo.Bounded n) (hn : 0 < n) (ht : t ∈ ts) : Poised x := by
  refine ⟨h.sound, h.mightSleep, .inl h.place, ?_⟩
  rw [h.grantedTime]
  by_cases hinf : t = Infinity
  · -- the table has an entry, and no time is later
    have hpos : 0 < x.algo.powersimgrantedTime.length := by
      rw [hb.size]
      exact hn
    refine ⟨_, List.getElem_mem hpos, fun hw => ?_⟩
    rw [hinf]
    exact hb.value _ (List.getElem_mem hpos) hw
  · obtain ⟨e, he, rfl⟩ := h.table t ht hinf
    exact ⟨e, he, fun _ => le_rfl⟩

/-- What the gather leaves of a simulator that asked for `τ`: waiting below `τ`, or granted `τ`, or told to finish. -/
theorem Unfilled.gathered (h : Unfilled D st x) (hr : x.request sent recv delay = some (.allGatherNextTime τ : Request ι))
    (ts : List TIME) (woken : Bool) :
    ∃ min, st = .gather min ∧ min ≤ τ ∧ ((x.resume woken (.nextTimes ts)).fault ≠ none ∨
      (min ≠ 0 ∧ Dormant (x.resume woken (.nextTimes ts))) ∨
      (min ≠ 0 ∧ τ = min ∧ Granted ts min (x.resume woken (.nextTimes ts))) ∨
      (min = 0 ∧ Ended (x.resume woken (.nextTimes ts)))) := by
  obtain ⟨g, a, p, fin, fault⟩ := x
  obtain ⟨rfl, hm, hplace⟩ := h
  dsimp only at hm
  cases hplace with
  | @gather min l hd hle =>
    obtain rfl : l.nextEstTime = τ := by simpa [Tick.request] using hr
    refine ⟨min, rfl, hle, ?_⟩
    have hgathers : a.gathers = true := by simpa [ConservativeSleepingTickAlgo.gathers, hm] using hd
    cases hstore : a.store 0 ts with
    | none =>
      left
      simp [Tick.resume, Tick.conclude, ConservativeSleepingTickAlgo.conclude, ConservativeSleepingTickAlgo.gather,
        hgathers, hstore]
    | some b =>
      have hb : a.gather ts = some { b with mightSleep := true } := by
        rw [ConservativeSleepingTickAlgo.gather, if_pos hgathers, hstore, Option.map_some]
      have hdiff : b.diff = 0 := (ConservativeSleepingTickAlgo.store_diff hstore).trans hd
      have hleast := GracePeriodSyncAlgo.conclude_least (g := g) hle
      simp only [Tick.resume]
      obtain ⟨l', hbusy, ho, hx⟩ | ⟨τ, ho, hx⟩ | ⟨ho, hx⟩ :=
        conclude_spec (x := ⟨g, a, .gather min l, fin, none⟩) (t := min) (l := l) hb
      · rw [hleast] at ho
        rw [hx]
        refine .inr (.inl ⟨?_, rfl, hdiff, l', rfl, hbusy⟩)
        rintro rfl
        cases ho
      · rw [hleast] at ho
        rw [hx]
        split at ho
        · cases ho
        next h0 =>
        split at ho
        · cases ho
        next hlt =>
        have hmin : l.nextEstTime = min := Nat.le_antisymm (Nat.le_of_not_lt hlt) hle
        obtain rfl : l.nextEstTime = τ := GracePeriodSyncAlgo.Outcome.returned.inj ho
        have htable : ∀ u ∈ ts, u ≠ Infinity → ∃ e ∈ b.powersimgrantedTime, e.value = u := fun u hu hinf =>
          ConservativeSleepingTickAlgo.mem_of_store hstore hu hinf
        exact .inr (.inr (.inl ⟨h0, hmin, rfl, rfl, rfl, hmin, htable⟩))
      · rw [hleast] at ho
        rw [hx]
        split at ho
        · next h0 => exact .inr (.inr (.inr ⟨h0, rfl, rfl, rfl⟩))
        · split at ho
          · cases ho
          · cases ho
  | waiting => simp [Tick.request, ite_eq_iff] at hr
  | _ => simp [Tick.request] at hr

end Tick

end Fncs.Sleepers

/-
A simulator of the sleeping algorithm when no messages are exchanged.

It sees no difference and has nothing to respond to, so a call proposes the
time it asks for (`Calm`), and a reply lets it go on or returns that time
(`Goes`). What it knows of a sleeper (`Knows`) is the sleeper's time in its
table: only a call below it gets past the loop over the table.
-/
import Fncs.Sync.Dormancy

namespace Fncs.Sleepers

open Broker (Request Reply Replies HelloGroup Refusal Frame Session)
open ConservativeSleepingTickAlgo (Locals)

/-- The locals of a call under way. -/
def Place.locals : Place → Option Locals
  | .running | .timeStepStart => none
  | .waking _ l | .waiting l | .sendRecv l | .networkDelay l | .minTime l | .gather _ l => some l

namespace Tick

/-- The time a call under way asks for, which it has not been granted yet. -/
def requested (x : Tick) : Option TIME := x.place.locals.map GracePeriodSyncAlgo.Locals.nextTime

variable {ι : Type} {x : Tick} {l : Locals} {t τ : TIME} {sent recv : ℕ} {currentTime nextTime : TIME} {r : Reply}

/-! ## A simulator that has no messages -/

/-- Nothing to respond to, and a time after 0. -/
structure Asks (l : Locals) : Prop where
  needToRespond : l.needToRespond = false
  pos : 0 < l.nextTime
  le : l.nextTime ≤ Infinity

/-- Where a simulator may be that asks for its `nextTime` and proposes it. -/
inductive CalmAt : Place → Prop
  | running : CalmAt .running
  | timeStepStart : CalmAt .timeStepStart
  | waking {rest : List Entry} {l : Locals} (hl : Asks l) : CalmAt (.waking rest l)
  | waiting {l : Locals} (hl : Asks l) : CalmAt (.waiting l)
  | sendRecv {l : Locals} (hl : Asks l) : CalmAt (.sendRecv l)
  | networkDelay {l : Locals} (hl : Asks l) : CalmAt (.networkDelay l)
  | minTime {l : Locals} (hl : Asks l) (hest : l.nextEstTime = l.nextTime) : CalmAt (.minTime l)
  | gather {t : TIME} {l : Locals} (hl : Asks l) (hest : l.nextEstTime = l.nextTime) (ht : t ≠ 0) : CalmAt (.gather t l)

/-- No difference was ever seen, and nobody has ended the run. -/
structure Calm (x : Tick) : Prop where
  finished : x.finished = false
  diff : x.algo.diff = 0
  place : CalmAt x.place

/-- What a reply brings: no difference, and no end of the run. -/
def QuietReply : Reply → Prop
  | .diff d => d = 0
  | .time t => t ≠ 0
  | _ => True

/-- What a reply does to a simulator: its call goes on, or returns the time it asked for, which is then
not after the minimum. -/
inductive Goes (x x' : Tick) : Prop
  | on (hr : x'.requested = x.requested) (hg : x'.algo.grantedTime = x.algo.grantedTime)
  | returns (n : TIME) (hr : x.requested = some n) (hp : x'.place = .running) (hg : x'.algo.grantedTime = n)
    (hfrom : (x.algo.mightSleep = true ∧ ∃ l, x.place = .minTime l) ∨ ∃ t l, x.place = .gather t l ∧ n ≤ t)

theorem Calm.timeStepStart (h : Calm x) : Calm (x.timeStepStart currentTime) := by
  unfold Tick.timeStepStart
  split
  · exact h
  · exact ⟨h.finished, h.diff, .timeStepStart⟩

theorem Calm.beginTurn (h : Calm x) (hl : Asks l) : Calm (x.beginTurn l) := by
  refine ⟨h.finished, h.diff, ?_⟩
  unfold Tick.beginTurn
  dsimp only
  split
  · exact .waiting hl
  · exact .sendRecv hl

theorem Calm.lookAt (h : Calm x) (hl : Asks l) (es : List Entry) : Calm (x.lookAt l es) := by
  induction es with
  | nil => exact h.beginTurn hl
  | cons e rest ih =>
    unfold Tick.lookAt
    split
    · exact ⟨h.finished, h.diff, h.place⟩
    · split
      · exact ⟨h.finished, h.diff, .waking hl⟩
      · exact ih

theorem Calm.getNextTime (h : Calm x) (hlt : currentTime < nextTime) (hle : nextTime ≤ Infinity) :
    Calm (x.getNextTime currentTime nextTime) := by
  have hl : Asks (ConservativeSleepingTickAlgo.enter x.algo.grantedTime currentTime nextTime) :=
    ⟨rfl, (Nat.zero_le _).trans_lt hlt, hle⟩
  unfold Tick.getNextTime
  dsimp only
  split
  · exact h
  · split
    · exact h.lookAt hl _
    · exact h.beginTurn hl

/-- The loop over the table stays in the call it belongs to, unless it fails where it began. -/
theorem requested_lookAt (es : List Entry) :
    (x.lookAt l es).requested = some l.nextTime ∨ (x.lookAt l es).place = x.place := by
  induction es with
  | nil =>
    left
    unfold Tick.lookAt Tick.beginTurn Tick.requested
    dsimp only
    split
    · rfl
    · rfl
  | cons e rest ih =>
    unfold Tick.lookAt
    split
    · exact .inr rfl
    · split
      · exact .inl rfl
      · exact ih

/-- A call without messages proposes its `nextTime`, and leaves the table alone. -/
theorem Calm.propose (h : Calm x) (hl : Asks l) :
    x.algo.propose x.integrator x.algo.diff l = some (x.algo, { l with nextEstTime := l.nextTime }) := by
  have hp : GracePeriodSyncAlgo.propose x.integrator 0 l = { l with nextEstTime := l.nextTime } := by
    rw [GracePeriodSyncAlgo.propose, if_pos ⟨rfl, hl.needToRespond⟩]
  have ha : { x.algo with diff := 0 } = x.algo := by rw [← h.diff]
  unfold ConservativeSleepingTickAlgo.propose
  simp [h.diff, hp, hl.needToRespond, ha]

/-- The end of a turn. -/
theorem Calm.conclude (h : Calm x) (hl : Asks l) (hest : l.nextEstTime = l.nextTime) (ht : t ≠ 0)
    (hx : x.place.locals = some l)
    (hfrom : l.nextTime ≤ t → (x.algo.mightSleep = true ∧ ∃ l, x.place = .minTime l) ∨
      ∃ t l', x.place = .gather t l' ∧ l.nextTime ≤ t) {ts : List TIME} :
    Calm (x.conclude t ts l) ∧ Goes x (x.conclude t ts l) ∧ (x.algo.mightSleep = true →
      (x.conclude t ts l).algo.powersimgrantedTime = x.algo.powersimgrantedTime) := by
  have hreq : x.requested = some l.nextTime := by rw [requested, hx, Option.map_some]
  cases hb : x.algo.gather ts with
  | none =>
    have hfault : x.conclude t ts l = { x with fault := some .outOfBounds } := by
      rw [Tick.conclude, ConservativeSleepingTickAlgo.conclude, hb, Option.map_none]
    rw [hfault]
    exact ⟨⟨h.finished, h.diff, h.place⟩, .on rfl rfl, fun _ => rfl⟩
  | some b =>
    have hdiff : b.diff = 0 := (ConservativeSleepingTickAlgo.gather_diff hb).trans h.diff
    have hkept : b.grantedTime = x.algo.grantedTime ∧
        (x.algo.mightSleep = true → b.powersimgrantedTime = x.algo.powersimgrantedTime) := by
      obtain ⟨hg, es, rfl⟩ | ⟨-, rfl⟩ := ConservativeSleepingTickAlgo.gather_eq hb
      · refine ⟨rfl, fun hm => ?_⟩
        simp [ConservativeSleepingTickAlgo.gathers, hm] at hg
      · exact ⟨rfl, fun _ => rfl⟩
    obtain ⟨h0, hc⟩ | ⟨l', hc, -, hnext, hneed⟩ | ⟨hle, hc⟩ := GracePeriodSyncAlgo.conclude_cases x.integrator t l
    · exact absurd h0 ht
    · obtain ⟨m, -, ho, hx'⟩ | ⟨τ, ho, -⟩ | ⟨ho, -⟩ := conclude_spec (t := t) (l := l) hb
      · obtain rfl : l' = m := GracePeriodSyncAlgo.Outcome.again.inj (hc.symm.trans ho)
        rw [hx']
        refine ⟨⟨h.finished, hdiff, .waiting ⟨?_, ?_, ?_⟩⟩, .on ?_ hkept.1, hkept.2⟩
        · rw [hneed]
          exact hl.needToRespond
        · rw [hnext]
          exact hl.pos
        · rw [hnext]
          exact hl.le
        · rw [hreq, ← hnext]
          rfl
      · cases hc.symm.trans ho
      · cases hc.symm.trans ho
    · obtain ⟨m, -, ho, -⟩ | ⟨τ, ho, hx'⟩ | ⟨ho, -⟩ := conclude_spec (t := t) (l := l) hb
      · cases hc.symm.trans ho
      · obtain rfl : l.nextEstTime = τ := GracePeriodSyncAlgo.Outcome.returned.inj (hc.symm.trans ho)
        rw [hx']
        rw [hest] at hle ⊢
        exact ⟨⟨h.finished, hdiff, .running⟩, .returns l.nextTime hreq rfl rfl (hfrom hle), hkept.2⟩
      · cases hc.symm.trans ho

/-- A reply that brings no message. -/
theorem Calm.resume (h : Calm x) (hr : QuietReply r) : Calm (x.resume false r) ∧ Goes x (x.resume false r) ∧
    (x.algo.mightSleep = true →
      (x.resume false r).algo.powersimgrantedTime = x.algo.powersimgrantedTime) := by
  obtain ⟨hfin, hd, hplace⟩ := h
  unfold Tick.resume
  split
  · next hp => exact ⟨⟨hfin, hd, .running⟩, .on (by rw [requested, requested, hp]; rfl) rfl, fun _ => rfl⟩
  · next rest l hp =>
    have hx : x.requested = some l.nextTime := by rw [requested, hp]; rfl
    rw [hp] at hplace
    cases hplace with
    | waking hl =>
      have hm : Calm { x with algo := { x.algo with mightSleep := false } } := ⟨hfin, hd, hp ▸ .waking hl⟩
      refine ⟨hm.lookAt hl rest, .on ?_ (by rw [algo_lookAt]), fun _ => by rw [algo_lookAt]⟩
      obtain hreq | hsame := requested_lookAt (x := { x with algo := { x.algo with mightSleep := false } }) (l := l) rest
      · rw [hreq, hx]
      · rw [requested, hsame, requested]
  · next l hp =>
    have hx : x.requested = some l.nextTime := by rw [requested, hp]; rfl
    rw [hp] at hplace
    cases hplace with
    | waiting hl =>
      have hl' : (x.algo.awake false l).2 = l := by
        rw [ConservativeSleepingTickAlgo.awake_locals]
        simp
      rw [hl']
      refine ⟨⟨hfin, ?_, .sendRecv hl⟩, .on hx.symm ?_, fun _ => ConservativeSleepingTickAlgo.awake_table⟩
      · unfold ConservativeSleepingTickAlgo.awake
        split
        · exact hd
        · exact hd
      · unfold ConservativeSleepingTickAlgo.awake
        split
        · rfl
        · rfl
  · next l d hp =>
    have hx : x.requested = some l.nextTime := by rw [requested, hp]; rfl
    rw [hp] at hplace
    cases hplace with
    | sendRecv hl => exact ⟨⟨hfin, hr, .networkDelay hl⟩, .on hx.symm rfl, fun _ => rfl⟩
  · next l t hp =>
    have hx : x.requested = some l.nextTime := by rw [requested, hp]; rfl
    rw [hp] at hplace
    cases hplace with
    | networkDelay hl =>
      have hc : Calm x := ⟨hfin, hd, hp ▸ .networkDelay hl⟩
      rw [hc.propose hl]
      exact ⟨⟨hfin, hd, .minTime ⟨hl.needToRespond, hl.pos, hl.le⟩ rfl⟩, .on hx.symm rfl, fun _ => rfl⟩
  · next l t hp =>
    have hx : x.requested = some l.nextTime := by rw [requested, hp]; rfl
    rw [hp] at hplace
    cases hplace with
    | minTime hl hest =>
      split
      · exact ⟨⟨hfin, hd, .gather hl hest hr⟩, .on hx.symm rfl, fun _ => rfl⟩
      · next hg =>
        have hc : Calm x := ⟨hfin, hd, hp ▸ .minTime hl hest⟩
        have hm : x.algo.mightSleep = true := by simpa [ConservativeSleepingTickAlgo.gathers, hd] using hg
        exact hc.conclude hl hest hr (by rw [hp]; rfl) fun _ => .inl ⟨hm, l, hp⟩
  · next t l ts hp =>
    rw [hp] at hplace
    cases hplace with
    | gather hl hest ht =>
      have hc : Calm x := ⟨hfin, hd, hp ▸ .gather hl hest ht⟩
      exact hc.conclude hl hest ht (by rw [hp]; rfl) fun hle => .inr ⟨t, l, hp, hle⟩
  · exact ⟨⟨hfin, hd, hplace⟩, .on rfl rfl, fun _ => rfl⟩

/-! ## What a simulator knows of one that sleeps -/

theorem Sleepy.not_reducing (h : Sleepy x) : (∀ l, x.place ≠ .minTime l) ∧ ∀ t l, x.place ≠ .gather t l := by
  cases h with
  | dormant h =>
    obtain ⟨l', hl, -⟩ := h.place
    simp [hl]
  | waking h =>
    obtain ⟨rest, l', hl, -⟩ := h.place
    simp [hl]
  | poised h =>
    obtain hl | hl := h.place
    · simp [hl]
    · simp [hl]
  | ended h => simp [h.place]

theorem requested_of_running (hp : x.place = .running) : x.requested = none := by
  rw [requested, hp]
  rfl

theorem Poised.requested (h : Poised x) : x.requested = none := by
  obtain hl | hl := h.place
  · exact requested_of_running hl
  · rw [Tick.requested, hl]
    rfl

theorem Lone.not_gathering (h : Lone x) : x.place ≠ .gather t l := by
  cases h with
  | dormant h =>
    obtain ⟨l', hl, -⟩ := h.place
    simp [hl]
  | waking h =>
    obtain ⟨rest, l', hl, -⟩ := h.place
    simp [hl]
  | awake _ _ hp =>
    intro hx
    rw [hx] at hp
    cases hp

/-- The time a call in the reductions asks for. -/
def reducing (x : Tick) : Option TIME :=
  match x.place with
  | .sendRecv l | .networkDelay l | .minTime l => some l.nextTime
  | _ => none

/-- The time `n` of a sleeper is in the table, and no reduction is for a later one. -/
structure Knows (n : TIME) (x : Tick) : Prop where
  table : n = Infinity ∨ ∃ e ∈ x.algo.powersimgrantedTime, e.value = n
  before : ∀ m, x.reducing = some m → m ≤ n

variable {n m : TIME} {x' : Tick}

theorem Knows.kept (h : Knows n x) (htable : x'.algo.powersimgrantedTime = x.algo.powersimgrantedTime)
    (hred : ∀ m, x'.reducing = some m → x.reducing = some m) : Knows n x' where
  table := by
    rw [htable]
    exact h.table
  before m hm := h.before m (hred m hm)

theorem requested_of_reducing (h : x.reducing = some m) : x.requested = some m := by
  obtain ⟨g, a, p, fin, fault⟩ := x
  cases p with
  | sendRecv l => exact h
  | networkDelay l => exact h
  | minTime l => exact h
  | _ => cases h

/-- Nobody who knows of sleepers waits without messages. -/
theorem Calm.reducing_of_lone (h : Calm x) (hp : LoneAt x.algo x.place) (hm : x.requested = some m) :
    x.reducing = some m := by
  obtain ⟨g, a, p, fin, fault⟩ := x
  cases hp with
  | running => cases hm
  | timeStepStart => cases hm
  | waiting hd => exact absurd h.diff hd
  | sendRecv => exact hm
  | networkDelay => exact hm
  | minTime => exact hm

theorem reducing_beginTurn (h : (x.beginTurn l).reducing = some m) : m = l.nextTime := by
  unfold Tick.beginTurn at h
  split at h
  · cases h
  · exact (Option.some.inj h).symm

/-- In the gather a call asks for what it proposed. -/
theorem Calm.requested_of_gather (h : Calm x) {delay : TIME}
    (hr : x.request sent recv delay = some (.allGatherNextTime τ : Request ι)) : x.requested = some τ := by
  obtain ⟨g, a, p, fin, fault⟩ := x
  obtain ⟨-, -, hp⟩ := h
  cases fault with
  | some _ => simp [Tick.request] at hr
  | none =>
    cases hp with
    | gather hl hest ht =>
      have hτ := Request.allGatherNextTime.inj (Option.some.inj hr)
      rw [← hτ, hest]
      rfl
    | waiting => simp [Tick.request, ite_eq_iff] at hr
    | _ => simp [Tick.request] at hr

theorem requested_timeStepStart (hp : x.place = .running) : (x.timeStepStart currentTime).requested = none := by
  unfold Tick.timeStepStart
  split
  · exact requested_of_running hp
  · rfl

/-- A call asks for a time not before what was granted, or is over at once. -/
theorem requested_getNextTime (hp : x.place = .running) :
    (x.getNextTime currentTime nextTime).requested = none ∨
      ((x.getNextTime currentTime nextTime).requested = some nextTime ∧ x.algo.grantedTime ≤ nextTime) := by
  have hnone : x.requested = none := requested_of_running hp
  unfold Tick.getNextTime
  dsimp only
  split
  · exact .inl hnone
  next hat =>
  have hge : x.algo.grantedTime ≤ nextTime := by simpa [ConservativeSleepingTickAlgo.returnsAtOnce] using hat
  split
  · obtain hreq | hsame := requested_lookAt (x := x)
      (l := ConservativeSleepingTickAlgo.enter x.algo.grantedTime currentTime nextTime) x.algo.powersimgrantedTime
    · exact .inr ⟨hreq, hge⟩
    · left
      rw [requested, hsame]
      exact hnone
  · refine .inr ⟨?_, hge⟩
    unfold Tick.beginTurn requested
    dsimp only
    split
    · rfl
    · rfl

/-- A call of a simulator that knows of sleepers gets to the reductions only below its table. -/
theorem Knows.getNextTime (h : Knows n x) (hm : x.algo.mightSleep = true)
    (hle : nextTime ≤ Infinity) (hsound : (x.getNextTime currentTime nextTime).fault = none) :
    Knows n (x.getNextTime currentTime nextTime) := by
  refine ⟨by rw [algo_getNextTime]; exact h.table, ?_⟩
  unfold Tick.getNextTime at hsound ⊢
  dsimp only at hsound ⊢
  split
  · exact h.before
  next hat =>
  rw [if_neg hat, if_pos hm] at hsound
  obtain hf | ⟨pre, e, rest, -, -, hx⟩ | ⟨hall, hx⟩ := lookAt_cases (x := x)
    (l := ConservativeSleepingTickAlgo.enter x.algo.grantedTime currentTime nextTime) x.algo.powersimgrantedTime
  · exact absurd hsound hf
  · rw [hx]
    intro m hred
    cases hred
  · rw [hx]
    intro m hred
    have hnext : m = nextTime := reducing_beginTurn hred
    rw [hnext]
    obtain rfl | ⟨e, he, rfl⟩ := h.table
    · exact hle
    · have hlt : nextTime < e.value := (hall e he).2
      exact hlt.le

end Tick

end Fncs.Sleepers

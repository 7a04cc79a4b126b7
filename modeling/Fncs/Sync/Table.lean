/-
The table of the others' next times, `powersimgrantedTime`.

Until the next times are gathered for the first time nobody sleeps, and all
simulators go through the rounds together. If everyone then asks for less than
`Infinity`, the gather fills every table, and from there on every entry may be
read and every list of times fits (`Full`). What is left is the write to the
first entry, which a table of no entries does not have.
-/
import Fncs.Sync.Awake

namespace Fncs.Sleepers

open Broker (Request Reply Replies HelloGroup Refusal Frame Session)
open ConservativeSleepingTickAlgo (Locals Extends)

/-! ## Full tables -/

namespace Tick

/-- The simulator writes the first entry once the delay reduction is over. -/
def overwrites (x : Tick) : Bool :=
  match x.place with
  | .networkDelay l => x.algo.overwrites x.algo.diff l
  | _ => false

/-- The simulator gathers the next times, and asks for `Infinity` itself. -/
def gathersInfinity (x : Tick) : Bool :=
  match x.place with
  | .gather _ l => l.nextEstTime == Infinity
  | _ => false

/-- Every entry may be read, those included that a loop under way has not looked at. -/
structure Full (x : Tick) : Prop where
  sound : x.fault = none
  full : x.algo.tableFull = true
  rest : ∀ rest l, x.place = .waking rest l → ∀ e ∈ rest, e.written = true

variable {ι : Type} {D : ℕ} {st : Stage} {x : Tick} {l : Locals} {t τ : TIME} {ts : List TIME} {woken : Bool}
  {sent recv : ℕ} {delay : TIME}

/-- Anywhere but in the loop over the table. -/
theorem Full.move (h : Full x) {p : Place} (hp : ∀ rest l, p ≠ .waking rest l) : Full { x with place := p } :=
  ⟨h.sound, h.full, fun rest l hr => absurd hr (hp rest l)⟩

theorem Full.beginTurn (h : Full x) : Full (x.beginTurn l) := by
  unfold Tick.beginTurn
  refine h.move fun rest l' => ?_
  split
  · simp
  · simp

theorem Full.lookAt (h : Full x) {es : List Entry} (hes : ∀ e ∈ es, e.written = true) : Full (x.lookAt l es) := by
  induction es with
  | nil => exact h.beginTurn
  | cons e rest ih =>
    have hrest : ∀ e ∈ rest, e.written = true := fun e he => hes e (List.mem_cons_of_mem _ he)
    unfold Tick.lookAt
    rw [if_neg (by simp [hes e List.mem_cons_self])]
    split
    · refine ⟨h.sound, h.full, ?_⟩
      intro rest' l' hr
      cases hr
      exact hrest
    · exact ih hrest

theorem Full.timeStepStart (h : Full x) {currentTime : TIME} : Full (x.timeStepStart currentTime) := by
  unfold Tick.timeStepStart
  split
  · exact h
  · exact h.move (by simp)

theorem Full.getNextTime (h : Full x) {currentTime nextTime : TIME} : Full (x.getNextTime currentTime nextTime) := by
  unfold Tick.getNextTime
  dsimp only
  split
  · exact h
  split
  · exact h.lookAt (List.all_eq_true.mp h.full)
  · exact h.beginTurn

theorem Full.of_extends (h : Full x) {y : Tick} (hsound : y.fault = none) (he : Extends x.algo y.algo)
    (hp : ∀ rest l, y.place ≠ .waking rest l) : Full y :=
  ⟨hsound, he.tableFull h.full, fun rest l hr => absurd hr (hp rest l)⟩

/-- Times for no more entries than there are. -/
theorem Full.conclude (h : Full x) (hts : ts.length ≤ x.algo.powersimgrantedTime.length) :
    Full (x.conclude t ts l) := by
  obtain ⟨b, hb, he, -⟩ := ConservativeSleepingTickAlgo.gather_spec hts
  obtain ⟨l', -, -, hx⟩ | ⟨τ, -, hx⟩ | ⟨-, hx⟩ := conclude_spec (t := t) (l := l) hb
  · rw [hx]
    exact h.of_extends h.sound he (by simp)
  · rw [hx]
    exact h.of_extends h.sound ⟨he.size, he.written⟩ (by simp)
  · rw [hx]
    exact h.of_extends h.sound he (by simp)

theorem Full.resume (h : Full x) {r : Reply}
    (hts : ∀ ts, r = .nextTimes ts → ts.length ≤ x.algo.powersimgrantedTime.length)
    (hn : x.overwrites = true → 0 < x.algo.powersimgrantedTime.length) : Full (x.resume woken r) := by
  unfold Tick.resume
  split
  · exact h.move (by simp)
  · next rest l hp =>
    have hm : Full { x with algo := { x.algo with mightSleep := false } } := ⟨h.sound, h.full, h.rest⟩
    exact hm.lookAt (h.rest rest l hp)
  · next l hp => exact h.of_extends h.sound (.of_eq ConservativeSleepingTickAlgo.awake_table) (by simp)
  · exact h.of_extends h.sound (.of_eq rfl) (by simp)
  · next l t hp =>
    have hfirst : x.algo.overwrites x.algo.diff l = true → 0 < x.algo.powersimgrantedTime.length := by
      intro ho
      exact hn (by simp only [overwrites, hp, ho])
    obtain ⟨b, l', hb, he⟩ := ConservativeSleepingTickAlgo.propose_spec (g := x.integrator) hfirst
    rw [hb]
    exact h.of_extends h.sound he (by simp)
  · split
    · exact h.move (by simp)
    · exact h.conclude (Nat.zero_le _)
  · next t l ts hp => exact h.conclude (hts ts rfl)
  · exact h

/-- A simulator whose table is full anyway. -/
theorem Unfilled.full (h : Unfilled D st x) (hx : x.algo.tableFull = true) : Full x where
  sound := h.sound
  full := hx
  rest rest l hp := by
    have hplace := h.place
    rw [hp] at hplace
    cases hplace

/-- The first gather. -/
theorem Unfilled.gather (h : Unfilled D st x) (hr : x.request sent recv delay = some (.allGatherNextTime τ : Request ι))
    (hlen : ts.length = x.algo.powersimgrantedTime.length) (hts : ∀ t ∈ ts, t ≠ Infinity) :
    Full (x.resume woken (.nextTimes ts)) := by
  obtain ⟨g, a, p, fin, fault⟩ := x
  obtain ⟨rfl, hm, hplace⟩ := h
  dsimp only at hm hlen
  cases hplace with
  | @gather min l hd =>
    have hgathers : a.gathers = true := by simpa [ConservativeSleepingTickAlgo.gathers, hm] using hd
    obtain ⟨b, hb, he, hfull⟩ := ConservativeSleepingTickAlgo.gather_spec hlen.le
    have hfull := hfull hgathers hlen hts
    obtain ⟨l', -, -, hx⟩ | ⟨τ, -, hx⟩ | ⟨-, hx⟩ :=
      conclude_spec (x := ⟨g, a, .gather min l, fin, none⟩) (t := min) (l := l) hb
    · simp only [Tick.resume, hx]
      exact ⟨rfl, hfull, by simp⟩
    · simp only [Tick.resume, hx]
      exact ⟨rfl, hfull, by simp⟩
    · simp only [Tick.resume, hx]
      exact ⟨rfl, hfull, by simp⟩
  | waiting => simp [Tick.request, ite_eq_iff] at hr
  | _ => simp [Tick.request] at hr

theorem gathersInfinity_of_request (hr : x.request sent recv delay = some (.allGatherNextTime Infinity : Request ι)) :
    x.gathersInfinity = true := by
  obtain ⟨g, a, p, fin, fault⟩ := x
  cases fault with
  | some _ => simp [Tick.request] at hr
  | none =>
    cases p with
    | gather t l => simpa [Tick.request, gathersInfinity] using hr
    | waiting => simp [Tick.request, ite_eq_iff] at hr
    | _ => simp [Tick.request] at hr

end Tick

/-! ## The system -/

variable {ι : Type} [LinearOrder ι] {g : HelloGroup ι} {s s' : State ι} {f : Frame ι} {woken : ι → Bool} {i : ι}

/-- The tables are full. -/
def AllFull (g : HelloGroup ι) (ticks : ι → Tick) : Prop := ∀ i ∈ powerSims g, (ticks i).Full

/-- Nobody has slept yet, and nobody has asked for `Infinity` in a gather. -/
structure Gathering (g : HelloGroup ι) (s : State ι) : Prop where
  ticks : ∃ D st, ∀ i ∈ powerSims g, (s.ticks i).Unfilled D st
  finite : ∀ i ∈ powerSims g, ∀ t, s.session.pending i = some (.allGatherNextTime t) → t ≠ Infinity

/-- The gathered times are those of the other participants. -/
theorem gathered_length {who : Finset ι} {time : ι → TIME} {ts : List TIME} (hi : i ∈ who)
    (h : (ts : Multiset TIME) = (who.erase i).val.map time) : ts.length = who.card - 1 := by
  have hcard := congrArg Multiset.card h
  rwa [Multiset.coe_card, Multiset.card_map, ← Finset.card_def, Finset.card_erase_of_mem hi] at hcard

/-- Full tables stay full: what is gathered fits, whoever is awake. -/
theorem AllFull.moves {awake : Finset ι} {p : ι → Option (Request ι)} {ticks ticks' : ι → Tick}
    (h : AllFull g ticks) (hsize : ∀ i ∈ powerSims g, (ticks i).algo.Bounded (numberOfPowerSims g - 1))
    (hone : numberOfPowerSims g = 1 → ∀ i ∈ powerSims g, (ticks i).overwrites = false)
    (hm : Moves g awake p woken ticks ticks') : AllFull g ticks' := by
  have hfirst {i : ι} (hi : i ∈ powerSims g) :
      (ticks i).overwrites = true → 0 < (ticks i).algo.powersimgrantedTime.length := by
    intro ho
    have hpos : 0 < numberOfPowerSims g := Finset.card_pos.mpr ⟨i, hi⟩
    by_contra hlen
    have := (hsize i hi).size
    rw [hone (by omega) i hi] at ho
    cases ho
  have resumes {reply : ι → Reply} (hm : Resumes g awake woken reply ticks ticks')
      (hts : ∀ i ∈ powerSims g, i ∈ awake → ∀ ts, reply i = .nextTimes ts →
        ts.length ≤ (ticks i).algo.powersimgrantedTime.length) : AllFull g ticks' := by
    intro i hi
    rw [hm i hi]
    split
    · next hia => exact (h i hi).resume (hts i hi hia) (hfirst hi)
    · exact h i hi
  cases hm with
  | barrier _ hm => exact resumes hm fun _ _ _ _ hr => by cases hr
  | minTime t _ hm => exact resumes hm fun _ _ _ _ hr => by cases hr
  | sendRecv d _ hm => exact resumes hm fun _ _ _ _ hr => by cases hr
  | gather time times hp htimes hm =>
    refine resumes hm fun i hi hia ts hr => ?_
    cases hr
    have hlength := gathered_length (Finset.mem_inter.mpr ⟨hi, hia⟩) (htimes i hi hia)
    have hle : (powerSims g ∩ awake).card ≤ numberOfPowerSims g := Finset.card_le_card Finset.inter_subset_left
    have := (hsize i hi).size
    omega
  | still _ hm =>
    intro i hi
    rw [hm i hi]
    exact h i hi
  | wake _ hm =>
    intro i hi
    rw [hm i hi]
    exact (h i hi).resume (fun _ hr => by cases hr) (hfirst hi)

/-- The first gather fills all tables. -/
theorem Gathered.allFull {p : ι → Option (Request ι)} {ticks ticks' : ι → Tick} {time : ι → TIME}
    {times : ι → List TIME} {D : ℕ} {st : Stage} (hg : Gathered g p woken ticks ticks' time times)
    (h : ∀ i ∈ powerSims g, (ticks i).Unfilled D st) (hb : Blocked g p ticks)
    (hsize : ∀ i ∈ powerSims g, (ticks i).algo.Bounded (numberOfPowerSims g - 1))
    (hfin : ∀ i ∈ powerSims g, ∀ t, p i = some (.allGatherNextTime t) → t ≠ Infinity) : AllFull g ticks' := by
  intro i hi
  rw [hg.moved i hi]
  obtain ⟨_, _, _, hr⟩ := hb i hi _ (hg.asked i hi)
  have hlength : (times i).length = numberOfPowerSims g - 1 := gathered_length hi (hg.others i hi)
  refine (h i hi).gather hr (by rw [hlength, (hsize i hi).size]) fun t ht => ?_
  rw [← Multiset.mem_coe, hg.others i hi] at ht
  obtain ⟨j, hj, rfl⟩ := Multiset.mem_map.mp ht
  have hj : j ∈ powerSims g := Finset.mem_of_mem_erase (show j ∈ (powerSims g).erase i from hj)
  exact hfin j hj _ (hg.asked j hj)

/-! ## Runs -/

/-- The simulator whose request comes next. -/
def Event.requester : Event ι → Option ι
  | .request i _ _ _ _ => some i
  | _ => none

/-- The two cases the table is not made for stay out: the only simulator sees a
message once the times have been gathered, and somebody asks for `Infinity`
when the tables are filled. -/
def Careful (g : HelloGroup ι) (s : State ι) (e : Event ι) : Prop :=
  (numberOfPowerSims g = 1 → ∀ i ∈ powerSims g, (s.ticks i).overwrites = false) ∧
    ∀ i ∈ powerSims g, e.requester = some i → (s.ticks i).gathersInfinity = true →
      ∀ j ∈ powerSims g, (s.ticks j).algo.tableFull = true

instance (g : HelloGroup ι) (s : State ι) (e : Event ι) : Decidable (Careful g s e) :=
  inferInstanceAs (Decidable (_ ∧ _))

/-- Every simulator has used its table, of one entry for each other simulator, in bounds, and read no
entry before it was written. -/
def TableUsed (g : HelloGroup ι) (s : State ι) : Prop :=
  ∀ i ∈ powerSims g, (s.ticks i).fault = none ∧
    (s.ticks i).algo.powersimgrantedTime.length = numberOfPowerSims g - 1

/-- The tables are full, or nobody has slept yet. -/
structure Settled (g : HelloGroup ι) (s : State ι) : Prop where
  linked : Linked g s
  tables : AllFull g s.ticks ∨ Gathering g s

theorem Settled.used (h : Settled g s) : TableUsed g s := by
  intro i hi
  refine ⟨?_, (h.linked.bounded i hi).size⟩
  obtain hfull | ⟨⟨D, st, hticks⟩, -⟩ := h.tables
  · exact (hfull i hi).sound
  · exact (hticks i hi).sound

theorem Settled.start (g : HelloGroup ι) (integrator : ι → Integrator) (fresh : ι → ℕ → TIME) :
    Settled g (.start g integrator fresh g.formed) where
  linked := .start g integrator fresh
  tables := .inr ⟨⟨0, .free, fun _ _ => ⟨rfl, rfl, .running fun _ => rfl⟩⟩, nofun⟩

theorem Settled.allFull (h : Settled g s) (hall : ∀ i ∈ powerSims g, (s.ticks i).algo.tableFull = true) :
    AllFull g s.ticks := by
  obtain hfull | ⟨⟨D, st, hticks⟩, -⟩ := h.tables
  · exact hfull
  · exact fun i hi => (hticks i hi).full (hall i hi)

/-- A call that keeps what the tables are. -/
theorem Settled.call (h : Settled g s) {F : Tick → Tick} (halgo : ∀ x, (F x).algo = x.algo)
    (hfull : ∀ {x}, Tick.Full x → (F x).Full)
    (hfirst : ∀ {D st x}, Tick.Unfilled D st x → x.place = .running → (F x).Unfilled D st)
    (hs : s.call g i F = .ok s') : Settled g s' := by
  refine ⟨h.linked.call halgo hs, ?_⟩
  obtain ⟨⟨hi, hrun, hsound⟩, rfl⟩ := call_ok.mp hs
  obtain hall | ⟨⟨D, st, hticks⟩, hfin⟩ := h.tables
  · refine .inl fun j hj => ?_
    by_cases hji : j = i
    · subst hji
      simp only [Function.update_self]
      exact hfull (hall j hj)
    · simp only [Function.update_of_ne hji]
      exact hall j hj
  · refine .inr ⟨⟨D, st, fun j hj => ?_⟩, hfin⟩
    by_cases hji : j = i
    · subst hji
      simp only [Function.update_self]
      exact hfirst (hticks j hj) hrun
    · simp only [Function.update_of_ne hji]
      exact hticks j hj

/-- A request that reaches the broker. -/
theorem Settled.send (h : Settled g s) (hf : Sends g s f)
    (hone : numberOfPowerSims g = 1 → ∀ i ∈ powerSims g, (s.ticks i).overwrites = false)
    (hfin : ∀ i ∈ powerSims g, f.identity = i → f.request = .allGatherNextTime Infinity → AllFull g s.ticks)
    (hs : s.send g f woken = .ok s') : Settled g s' := by
  obtain ⟨hlinked, hpending, hmoves⟩ := h.linked.send hf hs
  refine ⟨hlinked, ?_⟩
  have hfull (hall : AllFull g s.ticks) : AllFull g s'.ticks := by
    obtain hsame | ⟨awake, hm, -⟩ := hmoves
    · rwa [hsame]
    · exact hall.moves h.linked.bounded hone hm
  by_cases hall : AllFull g s.ticks
  · exact .inl (hfull hall)
  obtain ⟨⟨D, st, hticks⟩, hfinite⟩ := h.tables.resolve_left hall
  have hposted : ∀ i ∈ powerSims g, ∀ t, s.session.posted f i = some (.allGatherNextTime t) → t ≠ Infinity := by
    intro i hi t ht
    obtain ⟨hfi, hr⟩ | ⟨-, hp⟩ := Pending.post_eq_some.mp ht
    · intro hinf
      subst hinf
      exact hall (hfin i hi hfi.symm hr)
    · exact hfinite i hi t hp
  have hfinite' : ∀ i ∈ powerSims g, ∀ t, s'.session.pending i = some (.allGatherNextTime t) → t ≠ Infinity :=
    fun i hi t ht => hposted i hi t (hpending i _ ht)
  obtain hsame | ⟨awake, hm, hasleep⟩ := hmoves
  · exact .inr ⟨⟨D, st, by rwa [hsame]⟩, hfinite'⟩
  · have hblocked := h.linked.blocked.posted hf
    obtain ⟨time, times, hg⟩ | hticks' := unfilled_moves hticks hblocked hasleep hm
    · exact .inl (hg.allFull hticks hblocked h.linked.bounded hposted)
    · exact .inr ⟨hticks', hfinite'⟩

/-- What one step keeps. -/
theorem Settled.step (h : Settled g s) {e : Event ι} (hc : Careful g s e) (hs : s.step g e = .ok s') :
    Settled g s' := by
  obtain ⟨i, _, rfl, hs⟩ | ⟨i, _, _, rfl, hs⟩ | ⟨i, _, _, _, _, r, rfl, hi, hr, hf, hs⟩ | ⟨r, _, rfl, hf, hs⟩ :=
    step_cases hs
  · exact h.call (fun _ => Tick.algo_timeStepStart) (fun hx => hx.timeStepStart) (fun hx hp => hx.timeStepStart hp) hs
  · exact h.call (fun _ => Tick.algo_getNextTime) (fun hx => hx.getNextTime) (fun hx hp => hx.getNextTime hp) hs
  · refine h.send hf hc.1 (fun j hj he hinf => ?_) hs
    subst he
    obtain rfl : r = .allGatherNextTime Infinity := hinf
    exact h.allFull (hc.2 i hi rfl (Tick.gathersInfinity_of_request hr))
  · exact h.send hf hc.1 (fun i hi he => absurd he.symm (Finset.ne_of_mem_erase hi)) hs

/-- Whatever messages, sleeps and times there are: while the steps are careful, the tables are used in
bounds and read where they are written. -/
theorem table_used (g : HelloGroup ι) (integrator : ι → Integrator) (fresh : ι → ℕ → TIME) {es : List (Event ι)}
    (hg : Trace.Guarded (State.step g) (Careful g) (.start g integrator fresh g.formed) es) :
    Trace.Always (State.step g) (TableUsed g) (.start g integrator fresh g.formed) es := by
  have hinv : Trace.Always (State.step g) (Settled g) (.start g integrator fresh g.formed) es :=
    Trace.always_of_guarded (fun _ _ _ h hc hs => h.step hc hs) (.start g integrator fresh) hg
  exact hinv.imp fun _ h => h.used

/-! Two simulators, of which the second sleeps until the first goes past its time. -/

def twoSims : HelloGroup ℕ := ⟨[1, 2, 0], by decide, 0, by decide⟩

def inNanoseconds (_ : ℕ) : Integrator := ⟨.nanoseconds, 0, 1⟩

/-- The simulator's request, with no messages. -/
def asks (i : ℕ) : Event ℕ := .request i 0 0 Infinity fun _ => false

def netSimAsks (r : Request ℕ) : Event ℕ := .netSim r fun _ => false

/-- One turn of two simulators, up to the gather. -/
def oneTurn : List (Event ℕ) :=
  [asks 1, asks 2, netSimAsks (.reduceSendRecv 0 0), asks 1, asks 2, netSimAsks (.reduceMinTime Infinity),
    asks 1, asks 2, netSimAsks (.reduceMinTime Infinity), asks 1, asks 2]

def sleptOnce : List (Event ℕ) :=
  [.getNextTime 1 0 10, .getNextTime 2 0 20] ++ oneTurn ++ [asks 2, .getNextTime 1 10 30, asks 1, asks 1]

theorem table_used_sleptOnce :
    Trace.Guarded (State.step twoSims) (Careful twoSims)
        (.start twoSims inNanoseconds (fun _ _ => 0) twoSims.formed) sleptOnce ∧
      Trace.Always (State.step twoSims) (TableUsed twoSims)
        (.start twoSims inNanoseconds (fun _ _ => 0) twoSims.formed) sleptOnce := by
  have hg : Trace.Guarded (State.step twoSims) (Careful twoSims)
      (.start twoSims inNanoseconds (fun _ _ => 0) twoSims.formed) sleptOnce := by decide +kernel
  exact ⟨hg, table_used twoSims inNanoseconds (fun _ _ => 0) hg⟩

/-! The two misuses: one simulator, whose table is empty, sends a message in its second call; and of two
simulators one asks for `Infinity`, which the other leaves out of its table. -/

def oneSim : HelloGroup ℕ := ⟨[1, 0], by decide, 0, by decide⟩

def messageSent : List (Event ℕ) :=
  [.getNextTime 1 0 10, asks 1, netSimAsks (.reduceSendRecv 0 0), asks 1, netSimAsks (.reduceMinTime Infinity),
    asks 1, netSimAsks (.reduceMinTime Infinity), asks 1, .getNextTime 1 10 20,
    .request 1 1 0 Infinity fun _ => false, netSimAsks (.reduceSendRecv 0 0), asks 1,
    netSimAsks (.reduceMinTime Infinity)]

def infinityAsked : List (Event ℕ) :=
  [.getNextTime 1 0 10, .getNextTime 2 0 Infinity] ++ oneTurn ++ [.getNextTime 1 10 20]

theorem table_misused :
    (∃ s, Trace.run (State.step oneSim) (.start oneSim inNanoseconds (fun _ _ => 0) oneSim.formed) messageSent = .ok s ∧
      (s.ticks 1).fault = some .outOfBounds ∧ ¬ TableUsed oneSim s) ∧
    ∃ s, Trace.run (State.step twoSims) (.start twoSims inNanoseconds (fun _ _ => 0) twoSims.formed) infinityAsked = .ok s ∧
      (s.ticks 1).fault = some .unwritten ∧ ¬ TableUsed twoSims s := by
  obtain ⟨s, hs, hcheck⟩ := Trace.exists_run_of_check (State.step oneSim)
    (.start oneSim inNanoseconds (fun _ _ => 0) oneSim.formed) messageSent
    (fun s => (s.ticks 1).fault == some .outOfBounds) (by decide +kernel)
  obtain ⟨s', hs', hcheck'⟩ := Trace.exists_run_of_check (State.step twoSims)
    (.start twoSims inNanoseconds (fun _ _ => 0) twoSims.formed) infinityAsked
    (fun s => (s.ticks 1).fault == some .unwritten) (by decide +kernel)
  have hout : (s.ticks 1).fault = some .outOfBounds := by simpa using hcheck
  have hunwritten : (s'.ticks 1).fault = some .unwritten := by simpa using hcheck'
  refine ⟨⟨s, hs, hout, fun h => ?_⟩, s', hs', hunwritten, fun h => ?_⟩
  · rw [(h 1 (by decide)).1] at hout
    cases hout
  · rw [(h 1 (by decide)).1] at hunwritten
    cases hunwritten

end Fncs.Sleepers

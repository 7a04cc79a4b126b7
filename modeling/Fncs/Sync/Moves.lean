/-
What a step of the sleeping system does to its simulators. A simulator waits for
the request it blocks in (`Linked`), so whatever the broker lets go moves the
simulators awake, all of them, from one collective on, or wakes all of them
(`Moves`).
-/
import Fncs.Sync.Entries
import Fncs.Sync.Sleepers

namespace Fncs.Sleepers

open Broker (Request Reply Replies HelloGroup Refusal Frame Session)
open ConservativeSleepingTickAlgo (Locals)

namespace Tick

variable {ι : Type} {x : Tick} {l : Locals} {t : TIME} {ts : List TIME} {woken : Bool} {sent recv : ℕ} {delay : TIME}

/-! ## The members a call starts with -/

theorem algo_lookAt (es : List Entry) : (x.lookAt l es).algo = x.algo := by
  induction es with
  | nil => rfl
  | cons e rest ih =>
    unfold Tick.lookAt
    split
    · rfl
    · split
      · rfl
      · exact ih

theorem algo_timeStepStart {currentTime : TIME} : (x.timeStepStart currentTime).algo = x.algo := by
  unfold Tick.timeStepStart
  split
  · rfl
  · rfl

theorem algo_getNextTime {currentTime nextTime : TIME} : (x.getNextTime currentTime nextTime).algo = x.algo := by
  unfold Tick.getNextTime
  dsimp only
  split
  · rfl
  · split
    · exact algo_lookAt _
    · rfl

/-- The end of a turn, with the members the gather leaves: the call returns, or waits. -/
theorem conclude_spec {b : ConservativeSleepingTickAlgo} (hb : x.algo.gather ts = some b) :
    (∃ l', l'.busywait = true ∧ GracePeriodSyncAlgo.conclude x.integrator t l = .again l' ∧
      x.conclude t ts l = { x with algo := b, place := .waiting l' }) ∨
    (∃ τ, GracePeriodSyncAlgo.conclude x.integrator t l = .returned τ ∧
      x.conclude t ts l = { x with algo := { b with grantedTime := τ }, place := .running }) ∨
    (GracePeriodSyncAlgo.conclude x.integrator t l = .finished ∧
      x.conclude t ts l = { x with algo := b, place := .running, finished := true }) := by
  have hc : x.algo.conclude x.integrator t ts l = some (b, GracePeriodSyncAlgo.conclude x.integrator t l) := by
    rw [ConservativeSleepingTickAlgo.conclude, hb, Option.map_some]
  unfold Tick.conclude
  rw [hc]
  cases ho : GracePeriodSyncAlgo.conclude x.integrator t l with
  | again l' =>
    have hbusy : l'.busywait = true := GracePeriodSyncAlgo.busywait_of_again ho
    exact .inl ⟨l', hbusy, rfl, by simp [Tick.beginTurn, hbusy]⟩
  | returned τ => exact .inr (.inl ⟨τ, rfl, rfl⟩)
  | finished => exact .inr (.inr ⟨rfl, rfl⟩)

theorem bounded_conclude {n : ℕ} (h : x.algo.Bounded n) (hts : ∀ t ∈ ts, t ≤ Infinity) :
    (x.conclude t ts l).algo.Bounded n := by
  cases hb : x.algo.gather ts with
  | none =>
    simp only [Tick.conclude, ConservativeSleepingTickAlgo.conclude, hb, Option.map_none]
    exact h
  | some b =>
    have hbounded := h.gather hts hb
    obtain ⟨l', -, -, hx⟩ | ⟨τ, -, hx⟩ | ⟨-, hx⟩ := conclude_spec (t := t) (l := l) hb
    · rw [hx]
      exact hbounded
    · rw [hx]
      exact ⟨hbounded.size, hbounded.value⟩
    · rw [hx]
      exact hbounded

/-- The table keeps its size, and 64-bit times. -/
theorem bounded_resume {n : ℕ} {r : Reply} (h : x.algo.Bounded n)
    (hts : ∀ ts, r = .nextTimes ts → ∀ t ∈ ts, t ≤ Infinity) : (x.resume woken r).algo.Bounded n := by
  have keep {b : ConservativeSleepingTickAlgo} (hb : b.powersimgrantedTime = x.algo.powersimgrantedTime) : b.Bounded n :=
    ⟨by rw [hb, h.size], by rw [hb]; exact h.value⟩
  unfold Tick.resume
  split
  · exact h
  · rw [algo_lookAt]
    exact keep rfl
  · exact keep ConservativeSleepingTickAlgo.awake_table
  · exact keep rfl
  · split
    · next hb => exact h.propose hb
    · exact h
  · split
    · exact h
    · exact bounded_conclude h (by simp)
  · next ts _ _ => exact bounded_conclude h (hts _ rfl)
  · exact h

/-- A tick simulator takes no part in the reduction with an action. -/
theorem request_ne_action (x : Tick) {a : ℕ} : x.request sent recv delay ≠ some (.reduceMinTimeAction t a : Request ι) := by
  unfold Tick.request
  split
  · simp
  · split
    · simp
    · simp
    · simp
    · simp [ite_eq_iff]
    · simp
    · simp
    · simp
    · simp

end Tick

variable {ι : Type} [LinearOrder ι] {g : HelloGroup ι} {s s' : State ι} {f : Frame ι} {woken : ι → Bool} {i : ι}

theorem send_ok : s.send g f woken = .ok s' ↔ Broker.collectivesOnly g.netSim s.session f = true ∧
    ∃ b out pubs, s.session.broker.step f.identity f.context f.request = .ok (b, out, pubs) ∧
      s' = ⟨s.session.after f b out, s.resumed out woken⟩ := by
  unfold State.send
  split
  · next ha =>
    cases hb : s.session.broker.step f.identity f.context f.request with
    | error e => simp
    | ok x =>
      obtain ⟨b, out, pubs⟩ := x
      simp [ha, eq_comm]
  · next ha => simp [ha]

theorem call_ok {F : Tick → Tick} : s.call g i F = .ok s' ↔
    (i ∈ powerSims g ∧ (s.ticks i).place = .running ∧ (s.ticks i).fault = none) ∧
      s' = { s with ticks := Function.update s.ticks i (F (s.ticks i)) } := by
  unfold State.call
  split
  · next hi => simp [hi, eq_comm]
  · next hi => simp [hi]

/-- The unanswered requests are those the simulators block in. -/
def Blocked (g : HelloGroup ι) (p : ι → Option (Request ι)) (ticks : ι → Tick) : Prop :=
  ∀ i ∈ powerSims g, ∀ r, p i = some r → ∃ sent recv delay, (ticks i).request sent recv delay = some r

/-- The sender of `f`, if it is a simulator, blocks in the request. -/
def Sends (g : HelloGroup ι) (s : State ι) (f : Frame ι) : Prop :=
  ∀ i ∈ powerSims g, f.identity = i → ∃ sent recv delay, (s.ticks i).request sent recv delay = some f.request

theorem resumed_of_notMem {out : Replies ι} (h : i ∉ out.map Prod.fst) : s.resumed out woken i = s.ticks i := by
  have hr : System.replyTo out i = none := by
    rw [System.replyTo, Option.map_eq_none_iff, List.find?_eq_none]
    intro e he hei
    exact h (List.mem_map.mpr ⟨e, he, of_decide_eq_true hei⟩)
  simp [State.resumed, hr]

theorem Blocked.posted (h : Blocked g s.session.pending s.ticks) (hf : Sends g s f) :
    Blocked g (s.session.posted f) s.ticks := by
  intro i hi r hr
  obtain ⟨hfi, hr⟩ | ⟨-, hr⟩ := Pending.post_eq_some.mp hr
  · rw [← hr]
    exact hf i hi hfi.symm
  · exact h i hi r hr

theorem Blocked.answered {p : ι → Option (Request ι)} {out : Replies ι} (h : Blocked g p s.ticks) :
    Blocked g (Session.answered p out) (s.resumed out woken) := by
  intro i hi r hr
  obtain ⟨hnot, hr⟩ := Pending.answer_eq_some.mp hr
  rw [resumed_of_notMem hnot]
  exact h i hi r hr

/-- A simulator outside the algorithm waits for nothing. -/
theorem Blocked.call (h : Blocked g s.session.pending s.ticks) {F : Tick → Tick} (hs : s.call g i F = .ok s') :
    Blocked g s'.session.pending s'.ticks := by
  obtain ⟨⟨-, hrun, -⟩, rfl⟩ := call_ok.mp hs
  intro j hj r hr
  by_cases hji : j = i
  · subst hji
    obtain ⟨_, _, _, hreq⟩ := h j hj r hr
    simp [Tick.request, hrun] at hreq
  · simp only [Function.update_of_ne hji]
    exact h j hj r hr

/-! ## What a release does to the simulators -/

/-- Everyone in `who` goes on with its reply, and nobody else. -/
def Resumes (g : HelloGroup ι) (who : Finset ι) (woken : ι → Bool) (reply : ι → Reply) (ticks ticks' : ι → Tick) : Prop :=
  ∀ i ∈ powerSims g, ticks' i = if i ∈ who then (ticks i).resume (woken i) (reply i) else ticks i

/-- The simulators of `awake` have left one collective together, or all of them have been woken. -/
inductive Moves (g : HelloGroup ι) (awake : Finset ι) (p : ι → Option (Request ι)) (woken : ι → Bool)
    (ticks ticks' : ι → Tick) : Prop
  | barrier (hp : ∀ i ∈ powerSims g, i ∈ awake → p i = some .barrier)
      (hm : Resumes g awake woken (fun _ => .ack) ticks ticks')
  | minTime (t : TIME) (hp : ∀ i ∈ powerSims g, i ∈ awake → ∃ τ, p i = some (.reduceMinTime τ) ∧ t ≤ τ)
      (hm : Resumes g awake woken (fun _ => .time t) ticks ticks')
  | sendRecv (d : ℕ) (hp : ∀ i ∈ powerSims g, i ∈ awake → ∃ sent recv, p i = some (.reduceSendRecv sent recv))
      (hm : Resumes g awake woken (fun _ => .diff d) ticks ticks')
  | gather (time : ι → TIME) (times : ι → List TIME)
      (hp : ∀ i ∈ powerSims g, i ∈ awake → p i = some (.allGatherNextTime (time i)))
      (htimes : ∀ i ∈ powerSims g, i ∈ awake →
        (times i : Multiset TIME) = ((powerSims g ∩ awake).erase i).val.map time)
      (hm : Resumes g awake woken (fun i => .nextTimes (times i)) ticks ticks')
  | still (hp : ∀ i ∈ powerSims g, i ∉ awake) (hm : ∀ i ∈ powerSims g, ticks' i = ticks i)
  | wake (hp : ∀ i ∈ powerSims g, p i = some .sleep)
      (hm : ∀ i ∈ powerSims g, ticks' i = (ticks i).resume (woken i) .ack)

theorem resumes_of_answered {out : Replies ι} {who : Finset ι} {reply : ι → Reply}
    (ha : Broker.Answered out who reply) : Resumes g who woken reply s.ticks (s.resumed out woken) := by
  intro i _
  rw [State.resumed, System.replyTo_eq ha]
  split
  · next h =>
    split at h
    · cases h
    · next hi => rw [if_neg hi]
  · next r h =>
    split at h
    · next hi =>
      cases h
      rw [if_pos hi]
    · cases h

theorem moves_of_release {awake : Finset ι} {p : ι → Option (Request ι)} {sent recv : ℕ} {out : Replies ι}
    (h : Broker.Release g.netSim awake p sent recv out) (hb : Blocked g p s.ticks)
    (hsub : awake ⊆ g.members.toFinset) (hasleep : ∀ i ∈ powerSims g, i ∉ awake → p i = some .sleep) :
    Moves g awake p woken s.ticks (s.resumed out woken) := by
  have hne {i : ι} (hi : i ∈ powerSims g) : i ≠ g.netSim := Finset.ne_of_mem_erase hi
  cases h with
  | barrier hp ha => exact .barrier (fun i _ hia => (hp i ()).mpr ⟨hia, rfl⟩) (resumes_of_answered ha)
  | reduceMinTime time min hp hmin ha =>
    refine .minTime min (fun i _ hia => ⟨time i, (hp i _).mpr ⟨hia, rfl⟩, ?_⟩) (resumes_of_answered ha)
    exact hmin.2 ⟨i, hia, rfl⟩
  | reduceMinTimeAction val time action hp _ _ ha =>
    have hnot : ∀ i ∈ powerSims g, i ∉ awake := by
      intro i hi hia
      obtain ⟨_, _, _, hr⟩ := hb i hi _ ((hp i _).mpr ⟨hia, rfl⟩)
      exact Tick.request_ne_action _ hr
    refine .still hnot fun i hi => ?_
    rw [resumes_of_answered ha i hi, if_neg (hnot i hi)]
  | reduceSendRecv val d hp _ _ _ ha =>
    exact .sendRecv d (fun i _ hia => ⟨_, _, (hp i (val i)).mpr ⟨hia, rfl⟩⟩) (resumes_of_answered ha)
  | allGather time times hp htimes ha =>
    have hmem {i : ι} (hi : i ∈ powerSims g) : i ∈ awake.erase g.netSim ↔ i ∈ awake := by simp [hne hi]
    have hwho : awake.erase g.netSim = powerSims g ∩ awake := by
      ext i
      simp only [powerSims, Finset.mem_erase, Finset.mem_inter]
      exact ⟨fun h => ⟨⟨h.1, hsub h.2⟩, h.2⟩, fun h => ⟨h.1.1, h.2⟩⟩
    refine .gather time times (fun i hi hia => (hp i _).mpr ⟨(hmem hi).mpr hia, rfl⟩)
      (fun i hi hia => hwho ▸ htimes i ((hmem hi).mpr hia)) fun i hi => ?_
    rw [resumes_of_answered ha i hi]
    simp only [hmem hi]
  | wake sleepers hp hone ha =>
    have hall : ∀ i ∈ powerSims g, p i = some .sleep := fun i hi => hasleep i hi (by simp [hone, hne hi])
    refine .wake hall fun i hi => ?_
    rw [resumes_of_answered ha i hi, if_pos ((hp i ()).mp (hall i hi)).1]

/-- The broker agrees with what the simulators block in. Each table has an entry for every other simulator. -/
structure Linked (g : HelloGroup ι) (s : State ι) : Prop where
  session : Broker.SessionAgrees g s.session
  blocked : Blocked g s.session.pending s.ticks
  bounded : ∀ i ∈ powerSims g, (s.ticks i).algo.Bounded (numberOfPowerSims g - 1)

theorem Linked.start (g : HelloGroup ι) (integrator : ι → Integrator) (fresh : ι → ℕ → TIME) :
    Linked g (.start g integrator fresh g.formed) where
  session := ⟨rfl, g.context, rfl, .formed g⟩
  blocked := nofun
  bounded i _ := by
    refine ⟨by simp [State.start, ConservativeSleepingTickAlgo.create], fun e he hw => ?_⟩
    obtain ⟨k, -, rfl⟩ := List.mem_map.mp he
    cases hw

theorem Linked.call (h : Linked g s) {F : Tick → Tick} (hF : ∀ x, (F x).algo = x.algo) (hs : s.call g i F = .ok s') :
    Linked g s' := by
  refine ⟨?_, h.blocked.call hs, fun j hj => ?_⟩
  · obtain ⟨-, rfl⟩ := call_ok.mp hs
    exact h.session
  · obtain ⟨-, rfl⟩ := call_ok.mp hs
    by_cases hji : j = i
    · subst hji
      simp only [Function.update_self, hF]
      exact h.bounded j hj
    · simp only [Function.update_of_ne hji]
      exact h.bounded j hj

/-- The replies that move a simulator bring 64-bit times. -/
theorem Moves.bounded {awake : Finset ι} {p : ι → Option (Request ι)} {ticks ticks' : ι → Tick} {n : ℕ}
    (hm : Moves g awake p woken ticks ticks') (hfits : ∀ i r, p i = some r → r.fits = true)
    (h : ∀ i ∈ powerSims g, (ticks i).algo.Bounded n) : ∀ i ∈ powerSims g, (ticks' i).algo.Bounded n := by
  have resumes {reply : ι → Reply} (hm : Resumes g awake woken reply ticks ticks')
      (hts : ∀ i ∈ powerSims g, i ∈ awake → ∀ ts, reply i = .nextTimes ts → ∀ t ∈ ts, t ≤ Infinity) :
      ∀ i ∈ powerSims g, (ticks' i).algo.Bounded n := by
    intro i hi
    rw [hm i hi]
    split
    · next hia => exact Tick.bounded_resume (h i hi) (hts i hi hia)
    · exact h i hi
  cases hm with
  | barrier _ hm => exact resumes hm fun _ _ _ _ hr => by cases hr
  | minTime t _ hm => exact resumes hm fun _ _ _ _ hr => by cases hr
  | sendRecv d _ hm => exact resumes hm fun _ _ _ _ hr => by cases hr
  | gather time times hp htimes hm =>
    refine resumes hm fun i hi hia ts hr t ht => ?_
    cases hr
    rw [← Multiset.mem_coe, htimes i hi hia] at ht
    obtain ⟨j, hj, rfl⟩ := Multiset.mem_map.mp ht
    have hj : j ∈ powerSims g ∩ awake := Finset.mem_of_mem_erase (show j ∈ (powerSims g ∩ awake).erase i from hj)
    have hfit := hfits j _ (hp j (Finset.mem_inter.mp hj).1 (Finset.mem_inter.mp hj).2)
    simpa [Request.fits] using hfit
  | still _ hm =>
    intro i hi
    rw [hm i hi]
    exact h i hi
  | wake _ hm =>
    intro i hi
    rw [hm i hi]
    exact Tick.bounded_resume (h i hi) fun _ hr => by cases hr

/-- A request that reaches the broker, and what the broker lets go. -/
theorem Linked.released (h : Linked g s) (hs : s.send g f woken = .ok s') :
    ∃ b out, s' = ⟨s.session.after f b out, s.resumed out woken⟩ ∧ Broker.SessionAgrees g s'.session ∧
      (∀ i r, s.session.posted f i = some r → r.fits = true) ∧
      (out = [] ∨ ∃ awake, Broker.Release g.netSim awake (s.session.posted f) s.session.sentSum s.session.recvSum out ∧
        awake ⊆ g.members.toFinset ∧ ∀ i ∈ powerSims g, i ∉ awake → s.session.posted f i = some .sleep) := by
  obtain ⟨hc, b, out, pubs, hb, rfl⟩ := send_ok.mp hs
  obtain ⟨hw, c, hctxs, hag⟩ := h.session
  obtain ⟨c', rfl, hag', hrel⟩ := Broker.step_handles hw hctxs hag hc hb
  simp only [Broker.collectivesOnly, Bool.and_eq_true, Option.isNone_iff_eq_none] at hc
  refine ⟨_, out, rfl, ⟨hw, c', rfl, hag'⟩, fun i r hr => ?_, hrel.imp_right fun hrel => ?_⟩
  · obtain ⟨-, rfl⟩ | ⟨-, hr⟩ := Pending.post_eq_some.mp hr
    · exact hc.1.2
    · exact hag.proper.fits i r hr
  · exact ⟨_, hrel, hag.awakeFor_subset,
      fun i hi hia => hag.asleep_of_notMem hc.1.1.1.1.2 (Finset.mem_of_mem_erase hi) hia⟩

/-- What a request that reaches the broker does. -/
theorem Linked.send (h : Linked g s) (hf : Sends g s f) (hs : s.send g f woken = .ok s') : Linked g s' ∧
    (∀ i r, s'.session.pending i = some r → s.session.posted f i = some r) ∧
    (s'.ticks = s.ticks ∨ ∃ awake, Moves g awake (s.session.posted f) woken s.ticks s'.ticks ∧
      ∀ i ∈ powerSims g, i ∉ awake → s.session.posted f i = some .sleep) := by
  obtain ⟨b, out, rfl, hag, hfits, hrel⟩ := h.released hs
  have hposted := h.blocked.posted hf
  have hmoves : s.resumed out woken = s.ticks ∨
      ∃ awake, Moves g awake (s.session.posted f) woken s.ticks (s.resumed out woken) ∧
        ∀ i ∈ powerSims g, i ∉ awake → s.session.posted f i = some .sleep := by
    obtain rfl | ⟨awake, hrel, hsub, hasleep⟩ := hrel
    · exact .inl rfl
    · exact .inr ⟨awake, moves_of_release hrel hposted hsub hasleep, hasleep⟩
  refine ⟨⟨hag, hposted.answered, ?_⟩, fun i r hr => (Pending.answer_eq_some.mp hr).2, hmoves⟩
  obtain hsame | ⟨awake, hm, -⟩ := hmoves
  · intro i hi
    show (s.resumed out woken i).algo.Bounded _
    rw [hsame]
    exact h.bounded i hi
  · exact hm.bounded hfits h.bounded

/-- A step is a call of a simulator outside the algorithm, or a request of a simulator or of the net sim. -/
theorem step_cases {e : Event ι} (hs : s.step g e = .ok s') :
    (∃ i currentTime, e = .timeStepStart i currentTime ∧ s.call g i (Tick.timeStepStart currentTime) = .ok s') ∨
    (∃ i currentTime nextTime, e = .getNextTime i currentTime nextTime ∧
      s.call g i (Tick.getNextTime currentTime nextTime) = .ok s') ∨
    (∃ i sent recv delay woken r, e = .request i sent recv delay woken ∧ i ∈ powerSims g ∧
      (s.ticks i).request sent recv delay = some r ∧ Sends g s ⟨i, 0, r⟩ ∧ s.send g ⟨i, 0, r⟩ woken = .ok s') ∨
    (∃ r woken, e = .netSim r woken ∧ Sends g s ⟨g.netSim, 0, r⟩ ∧ s.send g ⟨g.netSim, 0, r⟩ woken = .ok s') := by
  cases e with
  | timeStepStart i currentTime => exact .inl ⟨i, currentTime, rfl, hs⟩
  | getNextTime i currentTime nextTime => exact .inr (.inl ⟨i, currentTime, nextTime, rfl, hs⟩)
  | request i sent recv delay woken =>
    simp only [State.step] at hs
    split at hs
    · next r hr =>
      split at hs
      · next hi =>
        refine .inr (.inr (.inl ⟨i, sent, recv, delay, woken, r, rfl, hi, hr, ?_, hs⟩))
        intro j _ hj
        subst hj
        exact ⟨sent, recv, delay, hr⟩
      · cases hs
    · cases hs
  | netSim r woken =>
    refine .inr (.inr (.inr ⟨r, woken, rfl, ?_, hs⟩))
    intro i hi hin
    exact absurd hin.symm (Finset.ne_of_mem_erase hi)

theorem Linked.step (h : Linked g s) {e : Event ι} (hs : s.step g e = .ok s') : Linked g s' := by
  obtain ⟨i, _, -, hs⟩ | ⟨i, _, _, -, hs⟩ | ⟨i, _, _, _, _, r, -, -, -, hf, hs⟩ | ⟨r, _, -, hf, hs⟩ := step_cases hs
  · exact h.call (fun _ => Tick.algo_timeStepStart) hs
  · exact h.call (fun _ => Tick.algo_getNextTime) hs
  · exact (h.send hf hs).1
  · exact (h.send hf hs).1

end Fncs.Sleepers

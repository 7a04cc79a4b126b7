/-
The order in which the sleeping algorithm grants time, when no messages are
exchanged.

A simulator is granted a time while another one is asleep only if it has the
other's time in its table. That table is of the gather in which it was granted
the minimum alone, and it stays true as long as the others sleep; but a call
that sleeps twice leaves the simulators it woke to go on without it, and its
table behind.
-/
import Fncs.Sync.Calm
import Fncs.Sync.Phases
import Fncs.Sync.Table

namespace Fncs.Sleepers

open Broker (Request Reply Replies HelloGroup Refusal Frame Session)
open ConservativeSleepingTickAlgo (Locals)

/-! ## A run without messages -/

variable {ι : Type} [LinearOrder ι] {g : HelloGroup ι} {s s' : State ι} {f : Frame ι} {p : ι → Option (Request ι)}
  {ticks ticks' : ι → Tick} {woken : ι → Bool} {awake : Finset ι} {out : Replies ι} {i j k : ι} {n : TIME}

/-- No messages: nothing is counted, nobody is woken by one, and the net sim takes part in the collectives with
`Infinity`. Every call asks for a time after its current one. -/
def Quiet (g : HelloGroup ι) : Event ι → Prop
  | .timeStepStart .. => True
  | .getNextTime _ currentTime nextTime => currentTime < nextTime ∧ nextTime ≤ Infinity
  | .request _ sent recv delay woken => (sent = 0 ∧ recv = 0 ∧ delay = Infinity) ∧ ∀ i ∈ powerSims g, woken i = false
  | .netSim r woken =>
    (r = .barrier ∨ r = .reduceSendRecv 0 0 ∨ r = .reduceMinTime Infinity) ∧ ∀ i ∈ powerSims g, woken i = false

instance (g : HelloGroup ι) : (e : Event ι) → Decidable (Quiet g e)
  | .timeStepStart .. => isTrue trivial
  | .getNextTime _ currentTime nextTime => inferInstanceAs (Decidable (currentTime < nextTime ∧ nextTime ≤ Infinity))
  | .request _ sent recv delay woken =>
    inferInstanceAs (Decidable ((sent = 0 ∧ recv = 0 ∧ delay = Infinity) ∧ ∀ i ∈ powerSims g, woken i = false))
  | .netSim r woken => inferInstanceAs (Decidable ((r = .barrier ∨ r = .reduceSendRecv 0 0 ∨
      r = .reduceMinTime Infinity) ∧ ∀ i ∈ powerSims g, woken i = false))

/-- Nothing to report, and no end of the run. -/
def SilentRequest : Request ι → Prop
  | .reduceSendRecv sent recv => sent = 0 ∧ recv = 0
  | .reduceMinTime t => t ≠ 0
  | _ => True

omit [LinearOrder ι] in
theorem silent_of_netSim {r : Request ι} (hr : r = .barrier ∨ r = .reduceSendRecv 0 0 ∨ r = .reduceMinTime Infinity) :
    SilentRequest r := by
  obtain rfl | rfl | rfl := hr
  · trivial
  · exact ⟨rfl, rfl⟩
  · exact (by decide : Infinity ≠ 0)

/-- Nothing was ever reported. -/
structure Silent (s : Session ι) : Prop where
  sent : s.sentSum = 0
  recv : s.recvSum = 0
  pending : ∀ i r, s.pending i = some r → SilentRequest r

theorem Silent.posted {s : Session ι} (h : Silent s) (hf : SilentRequest f.request) :
    ∀ i r, s.posted f i = some r → SilentRequest r := by
  intro i r hr
  obtain ⟨-, rfl⟩ | ⟨-, hr⟩ := Pending.post_eq_some.mp hr
  · exact hf
  · exact h.pending i r hr

omit [LinearOrder ι] in
theorem round_silent (hp : ∀ i r, p i = some r → SilentRequest r) (out : Replies ι) :
    Session.roundSent p out = 0 ∧ Session.roundRecv p out = 0 := by
  constructor
  · refine List.sum_eq_zero fun m hm => ?_
    obtain ⟨e, -, rfl⟩ := List.mem_map.mp hm
    split
    · next hr => exact (hp _ _ hr).1
    · rfl
  · refine List.sum_eq_zero fun m hm => ?_
    obtain ⟨e, -, rfl⟩ := List.mem_map.mp hm
    split
    · next hr => exact (hp _ _ hr).2
    · rfl

theorem Silent.after {s : Session ι} (h : Silent s) (hf : SilentRequest f.request) {b : Broker ι} :
    Silent (s.after f b out) := by
  obtain ⟨hs, hr⟩ := round_silent (h.posted hf) out
  refine ⟨?_, ?_, fun i r hir => h.posted hf i r (Pending.answer_eq_some.mp hir).2⟩
  · rw [Session.after, hs, h.sent]
  · rw [Session.after, hr, h.recv]

/-- What the broker answers. -/
theorem replies_quiet {netSim : ι} (h : Broker.Release netSim awake p 0 0 out)
    (hp : ∀ i r, p i = some r → SilentRequest r) {r : Reply} (hr : System.replyTo out i = some r) :
    Tick.QuietReply r := by
  have reply {who : Finset ι} {reply : ι → Reply} (ha : Broker.Answered out who reply)
      (hq : ∀ i ∈ who, Tick.QuietReply (reply i)) : Tick.QuietReply r := by
    rw [System.replyTo_eq ha] at hr
    split at hr
    · next hi =>
      cases hr
      exact hq i hi
    · cases hr
  cases h with
  | barrier _ ha => exact reply ha fun _ _ => trivial
  | reduceMinTime time min hpart hmin ha =>
    obtain ⟨j, hj, rfl⟩ := hmin.1
    exact reply ha fun _ _ => hp j _ ((hpart j _).mpr ⟨hj, rfl⟩)
  | reduceMinTimeAction _ _ _ _ _ _ ha => exact reply ha fun _ _ => trivial
  | reduceSendRecv val d hpart _ _ hexact ha =>
    have hval (j : ι) (hj : j ∈ awake) : (val j).1 = 0 ∧ (val j).2 = 0 := hp j _ ((hpart j (val j)).mpr ⟨hj, rfl⟩)
    have hs : ∑ j ∈ awake, (val j).1 = 0 := Finset.sum_eq_zero fun j hj => (hval j hj).1
    have hv : ∑ j ∈ awake, (val j).2 = 0 := Finset.sum_eq_zero fun j hj => (hval j hj).2
    rw [hs, hv] at hexact
    have hd : d + (0 + 0) = 0 + 0 := hexact (by decide) (by decide)
    have hzero : d = 0 := by omega
    exact reply ha fun _ _ => hzero
  | allGather _ _ _ _ ha => exact reply ha fun _ _ => trivial
  | wake _ _ _ ha => exact reply ha fun _ _ => trivial

/-! ## The order -/

/-- Whatever was granted is not after what anybody asks for, nor after what anybody outside was granted; and
who goes on while another sleeps knows the sleeper's time. -/
structure Ordered (g : HelloGroup ι) (ticks : ι → Tick) : Prop where
  asked : ∀ i ∈ powerSims g, ∀ j ∈ powerSims g, ∀ n, (ticks j).requested = some n → (ticks i).algo.grantedTime ≤ n
  outside : ∀ i ∈ powerSims g, ∀ j ∈ powerSims g, (ticks j).requested = none →
    (ticks i).algo.grantedTime ≤ (ticks j).algo.grantedTime
  aware : (∀ i ∈ powerSims g, (ticks i).fault = none) → ∀ k ∈ powerSims g, ∀ j ∈ powerSims g, k ≠ j →
    (ticks k).algo.mightSleep = true → ¬ (ticks k).Dormant → (ticks j).Dormant → ∀ n, (ticks j).requested = some n →
      (ticks k).Knows n

/-- A sleeper asks for some time. -/
theorem Tick.Dormant.requested {x : Tick} (h : x.Dormant) : ∃ n, x.requested = some n := by
  obtain ⟨l, hl, -⟩ := h.place
  exact ⟨l.nextTime, by rw [Tick.requested, hl]; rfl⟩

/-- A call returns only what nobody else waits for an earlier time than. -/
theorem Phase.returns (h : Phase g ticks) (hsound : ∀ i ∈ powerSims g, (ticks i).fault = none)
    (hcalm : ∀ i ∈ powerSims g, (ticks i).Calm) (ho : Ordered g ticks) (hi : i ∈ powerSims g)
    (hr : (ticks i).requested = some n)
    (hfrom : ((ticks i).algo.mightSleep = true ∧ ∃ l, (ticks i).place = .minTime l) ∨
      ∃ t l, (ticks i).place = .gather t l ∧ n ≤ t) :
    ∀ j ∈ powerSims g, j ≠ i → ∃ m, (ticks j).requested = some m ∧ n ≤ m := by
  cases h with
  | stuck k hk hf => exact absurd (hsound k hk) hf
  | together D st h =>
    obtain ⟨hm, -⟩ | ⟨t, l, hp, hn⟩ := hfrom
    · rw [(h i hi).mightSleep] at hm
      cases hm
    · -- all are in the gather, which the same minimum led to
      obtain rfl : st = .gather t := by
        have hplace := (h i hi).place
        rw [hp] at hplace
        cases hplace
        rfl
      intro j hj _
      have hplace := (h j hj).place
      have hcalmj := (hcalm j hj).place
      generalize hpj : (ticks j).place = pj at hplace hcalmj
      cases hplace with
      | gather _ hle =>
        cases hcalmj with
        | gather _ hest _ =>
          refine ⟨_, by rw [Tick.requested, hpj]; rfl, ?_⟩
          rw [← hest]
          exact hn.trans hle
  | sleepy h =>
    obtain ⟨-, l, hp⟩ | ⟨t, l, hp, -⟩ := hfrom
    · exact absurd hp ((h i hi).not_reducing.1 l)
    · exact absurd hp ((h i hi).not_reducing.2 t l)
  | lone k hk h hrest =>
    have hik : i = k := by
      by_contra hik
      obtain ⟨l, hl, -⟩ := (hrest i hi hik).place
      obtain ⟨-, l', hp⟩ | ⟨t, l', hp, -⟩ := hfrom
      · cases hp.symm.trans hl
      · cases hp.symm.trans hl
    subst hik
    intro j hj hji
    have hd := hrest j hj hji
    obtain ⟨m, hm⟩ := hd.requested
    refine ⟨m, hm, ?_⟩
    obtain ⟨hsleep, l, hp⟩ | ⟨t, l, hp, -⟩ := hfrom
    · have hnd : ¬ (ticks i).Dormant := by
        intro hdi
        obtain ⟨l', hl', -⟩ := hdi.place
        cases hp.symm.trans hl'
      have hknows := ho.aware hsound i hi j hj hji.symm hsleep hnd hd m hm
      have hred : (ticks i).reducing = (ticks i).requested := by rw [Tick.reducing, Tick.requested, hp]; rfl
      exact hknows.before n (hred.trans hr)
    · exact absurd hp h.not_gathering

/-- What the replies do to each simulator. -/
def Replied (g : HelloGroup ι) (ticks ticks' : ι → Tick) : Prop :=
  ∀ i ∈ powerSims g, Tick.Goes (ticks i) (ticks' i) ∧ ((ticks i).algo.mightSleep = true →
    (ticks' i).algo.powersimgrantedTime = (ticks i).algo.powersimgrantedTime)

/-- A simulator goes on as it was, or its call returns a time that the others all wait for, or for later ones. -/
theorem Replied.cases (hreply : Replied g ticks ticks') (h : Phase g ticks)
    (hsound : ∀ i ∈ powerSims g, (ticks i).fault = none) (hcalm : ∀ i ∈ powerSims g, (ticks i).Calm)
    (ho : Ordered g ticks) (hi : i ∈ powerSims g) :
    ((ticks' i).requested = (ticks i).requested ∧ (ticks' i).algo.grantedTime = (ticks i).algo.grantedTime) ∨
    ∃ n, (ticks i).requested = some n ∧ (ticks' i).requested = none ∧ (ticks' i).algo.grantedTime = n ∧
      ∀ j ∈ powerSims g, j ≠ i → ∃ m, (ticks j).requested = some m ∧ n ≤ m := by
  obtain ⟨hgo, -⟩ := hreply i hi
  cases hgo with
  | on hr hg => exact .inl ⟨hr, hg⟩
  | returns n hr hp hg hfrom =>
    exact .inr ⟨n, hr, Tick.requested_of_running hp, hg, h.returns hsound hcalm ho hi hr hfrom⟩

/-- The times granted stay in order. -/
theorem Replied.granted (hreply : Replied g ticks ticks') (h : Phase g ticks)
    (hsound : ∀ i ∈ powerSims g, (ticks i).fault = none) (hcalm : ∀ i ∈ powerSims g, (ticks i).Calm)
    (ho : Ordered g ticks) (hi : i ∈ powerSims g) (hj : j ∈ powerSims g) :
    (∀ n, (ticks' j).requested = some n → (ticks' i).algo.grantedTime ≤ n) ∧
      ((ticks' j).requested = none → (ticks' i).algo.grantedTime ≤ (ticks' j).algo.grantedTime) := by
  obtain rfl | hji := eq_or_ne j i
  · obtain ⟨hr, hg⟩ | ⟨n, -, hr, -, -⟩ := hreply.cases h hsound hcalm ho hj
    · refine ⟨fun n hn => ?_, fun _ => le_rfl⟩
      rw [hg]
      exact ho.asked j hj j hj n (hr ▸ hn)
    · refine ⟨fun n hn => ?_, fun _ => le_rfl⟩
      cases hr.symm.trans hn
  obtain ⟨hri, hgi⟩ | ⟨a, hri, -, hgi, hfirst⟩ := hreply.cases h hsound hcalm ho hi
  · obtain ⟨hrj, hgj⟩ | ⟨b, hrj, hnone, hgj, -⟩ := hreply.cases h hsound hcalm ho hj
    · rw [hgi, hgj, hrj]
      exact ⟨ho.asked i hi j hj, ho.outside i hi j hj⟩
    · rw [hgi, hgj, hnone]
      exact ⟨nofun, fun _ => ho.asked i hi j hj b hrj⟩
  · obtain ⟨m, hm, hle⟩ := hfirst j hj hji
    obtain ⟨hrj, -⟩ | ⟨b, hrj, hnone, hgj, -⟩ := hreply.cases h hsound hcalm ho hj
    · rw [hgi, hrj, hm]
      exact ⟨fun n hn => Option.some.inj hn ▸ hle, nofun⟩
    · obtain rfl : m = b := Option.some.inj (hm.symm.trans hrj)
      rw [hgi, hgj, hnone]
      exact ⟨nofun, fun _ => hle⟩

/-- Nobody is known to sleep once everybody has been woken. -/
theorem Tick.mightSleep_of_woken {x : Tick} {w : Bool} (h : x.Dormant ∨ x.Waking)
    (hsound : (x.resume w .ack).fault = none) : (x.resume w .ack).algo.mightSleep = false := by
  obtain hd | hw := h
  · exact hd.wake.mightSleep
  · exact (hw.wake.resolve_left (not_not.mpr hsound)).mightSleep

/-- What is known of sleepers stays known. -/
theorem Replied.aware (hreply : Replied g ticks ticks') (h : Phase g ticks) (hb : Blocked g p ticks)
    (hasleep : ∀ i ∈ powerSims g, i ∉ awake → p i = some .sleep) (hm : Moves g awake p woken ticks ticks')
    (hcalm : ∀ i ∈ powerSims g, (ticks i).Calm) (hcalm' : ∀ i ∈ powerSims g, (ticks' i).Calm) (ho : Ordered g ticks)
    (hsound' : ∀ i ∈ powerSims g, (ticks' i).fault = none) (hk : k ∈ powerSims g) (hj : j ∈ powerSims g) (hkj : k ≠ j)
    (hsleep : (ticks' k).algo.mightSleep = true) (hnot : ¬ (ticks' k).Dormant) (hd : (ticks' j).Dormant)
    (hn : (ticks' j).requested = some n) : (ticks' k).Knows n := by
  have hsound : ∀ i ∈ powerSims g, (ticks i).fault = none := fun i hi => hm.sound hb hasleep hi
  -- the sleeper has not returned
  have hwaits : (ticks j).requested = (ticks' j).requested := by
    obtain ⟨hgo, -⟩ := hreply j hj
    cases hgo with
    | on hr _ => exact hr.symm
    | returns _ _ hp _ _ =>
      obtain ⟨l, hl, -⟩ := hd.place
      cases hp.symm.trans hl
  cases h with
  | stuck i hi hf => exact absurd (hsound i hi) hf
  | together D st h =>
    obtain ⟨time, times, hg⟩ | ⟨D', st', h'⟩ := unfilled_moves h hb hasleep hm
    · obtain ⟨_, _, _, hrk⟩ := hb k hk _ (hg.asked k hk)
      obtain ⟨_, _, _, hrj⟩ := hb j hj _ (hg.asked j hj)
      obtain ⟨min, -, -, hx⟩ := (h k hk).gathered hrk (times k) (woken k)
      rw [← hg.moved k hk] at hx
      obtain hf | ⟨-, hdk⟩ | ⟨-, -, hgk⟩ | ⟨-, hend⟩ := hx
      · exact absurd (hsound' k hk) hf
      · exact absurd hdk hnot
      · have hmem : n ∈ times k := by
          rw [← Multiset.mem_coe, hg.others k hk]
          refine Multiset.mem_map.mpr ⟨j, Finset.mem_erase.mpr ⟨hkj.symm, hj⟩, ?_⟩
          exact Option.some.inj (((hcalm j hj).requested_of_gather hrj).symm.trans (hwaits.trans hn))
        refine ⟨?_, fun m hm => ?_⟩
        · by_cases hinf : n = Infinity
          · exact .inl hinf
          · exact .inr (hgk.table n hmem hinf)
        · rw [Tick.reducing, hgk.place] at hm
          cases hm
      · have hfin := (hcalm' k hk).finished
        rw [hend.finished] at hfin
        cases hfin
    · rw [(h' k hk).mightSleep] at hsleep
      cases hsleep
  | sleepy h =>
    by_cases hwake : ∀ i ∈ powerSims g, p i = some .sleep ∧ ticks' i = (ticks i).resume (woken i) .ack
    · obtain ⟨hp, hx⟩ := hwake k hk
      obtain ⟨_, _, _, hr⟩ := hb k hk _ hp
      obtain ⟨-, hw⟩ | ⟨hr, -⟩ := (h k hk).of_request (w := false) hr
      · rw [hx, Tick.mightSleep_of_woken hw (hx ▸ hsound' k hk)] at hsleep
        cases hsleep
      · cases hr
    have hkept {i : ι} (hi : i ∈ powerSims g) (hw : (ticks i).Dormant ∨ (ticks i).Waking) : ticks' i = ticks i :=
      (hm.kept hb hi hw).resolve_right hwake
    -- the sleeper was asleep already
    have hjd : (ticks j).Dormant := by
      cases h j hj with
      | dormant h => exact h
      | waking h => exact hkept hj (.inr h) ▸ hd
      | poised h =>
        rw [hn, h.requested] at hwaits
        cases hwaits
      | ended h =>
        rw [hn, Tick.requested_of_running h.place] at hwaits
        cases hwaits
    have hjn : (ticks j).requested = some n := hwaits.trans hn
    cases h k hk with
    | dormant h => exact absurd (hkept hk (.inl h) ▸ h) hnot
    | waking h =>
      rw [hkept hk (.inr h)] at hsleep hnot ⊢
      exact ho.aware hsound k hk j hj hkj hsleep hnot hjd n hjn
    | poised h =>
      have hnone := h.requested
      refine (ho.aware hsound k hk j hj hkj h.mightSleep ?_ hjd n hjn).kept ((hreply k hk).2 h.mightSleep) fun m hm => ?_
      · intro hdk
        obtain ⟨m, hm⟩ := hdk.requested
        cases hnone.symm.trans hm
      · have hred := Tick.requested_of_reducing hm
        obtain ⟨hgo, -⟩ := hreply k hk
        cases hgo with
        | on hr _ => cases (hnone.symm.trans hr.symm).trans hred
        | returns _ hr _ _ _ => cases hnone.symm.trans hr
    | ended h =>
      have hfin := (hcalm k hk).finished
      rw [h.finished] at hfin
      cases hfin
  | lone i hi h hrest =>
    by_cases hwake : ∀ i ∈ powerSims g, p i = some .sleep ∧ ticks' i = (ticks i).resume (woken i) .ack
    · obtain ⟨hp, hx⟩ := hwake k hk
      obtain ⟨_, _, _, hr⟩ := hb k hk _ hp
      have hw : (ticks k).Dormant ∨ (ticks k).Waking := by
        by_cases hki : k = i
        · subst hki
          exact h.of_sleep hr
        · exact .inl (hrest k hk hki)
      rw [hx, Tick.mightSleep_of_woken hw (hx ▸ hsound' k hk)] at hsleep
      cases hsleep
    have hkept {i : ι} (hi : i ∈ powerSims g) (hw : (ticks i).Dormant ∨ (ticks i).Waking) : ticks' i = ticks i :=
      (hm.kept hb hi hw).resolve_right hwake
    have hki : k = i := by
      by_contra hki
      have hdk := hrest k hk hki
      exact hnot (hkept hk (.inl hdk) ▸ hdk)
    subst hki
    have hjd := hrest j hj hkj.symm
    have hjn : (ticks j).requested = some n := hwaits.trans hn
    cases h with
    | dormant h => exact absurd (hkept hk (.inl h) ▸ h) hnot
    | waking h =>
      rw [hkept hk (.inr h)] at hsleep hnot ⊢
      exact ho.aware hsound k hk j hj hkj hsleep hnot hjd n hjn
    | awake _ hmight hp =>
      refine (ho.aware hsound k hk j hj hkj hmight ?_ hjd n hjn).kept ((hreply k hk).2 hmight) fun m hm => ?_
      · intro hdk
        exact absurd (hkept hk (.inl hdk) ▸ hdk) hnot
      · have hred := Tick.requested_of_reducing hm
        obtain ⟨hgo, -⟩ := hreply k hk
        cases hgo with
        | on hr _ => exact (hcalm k hk).reducing_of_lone hp (hr.symm.trans hred)
        | returns _ _ hp' _ _ => cases (Tick.requested_of_running hp').symm.trans hred

/-- A call keeps the order. -/
theorem Ordered.call (ho : Ordered g s.ticks) (h : Phase g s.ticks) {F : Tick → Tick}
    (halgo : (F (s.ticks i)).algo = (s.ticks i).algo)
    (hreq : (F (s.ticks i)).requested = none ∨
      ∃ n, (F (s.ticks i)).requested = some n ∧ (s.ticks i).algo.grantedTime ≤ n)
    (hknows : ∀ n, (s.ticks i).Knows n → (s.ticks i).algo.mightSleep = true → (F (s.ticks i)).fault = none →
      (F (s.ticks i)).Knows n)
    (hnot : (s.ticks i).Sleepy → (F (s.ticks i)).fault = none → ¬ (F (s.ticks i)).Dormant)
    (hs : s.call g i F = .ok s') : Ordered g s'.ticks := by
  obtain ⟨⟨hi, hrun, hfault⟩, -⟩ := call_ok.mp hs
  obtain ⟨hself, hother⟩ := call_ticks hs
  rw [← hself] at halgo hreq hknows hnot
  have hnone : (s.ticks i).requested = none := Tick.requested_of_running hrun
  have hgranted (j : ι) : (s'.ticks j).algo.grantedTime = (s.ticks j).algo.grantedTime := by
    by_cases hji : j = i
    · rw [hji, halgo]
    · rw [hother j hji]
  have hrunning (hd : (s.ticks i).Dormant) : False := by
    obtain ⟨l, hl, -⟩ := hd.place
    cases hrun.symm.trans hl
  refine ⟨fun k hk j hj n hn => ?_, fun k hk j hj hn => ?_, fun hsound' k hk j hj hkj hsleep hnd hd n hn => ?_⟩
  · rw [hgranted]
    by_cases hji : j = i
    · subst hji
      obtain hr | ⟨m, hr, hle⟩ := hreq
      · cases hr.symm.trans hn
      · obtain rfl : m = n := Option.some.inj (hr.symm.trans hn)
        exact (ho.outside k hk j hj hnone).trans hle
    · rw [hother j hji] at hn
      exact ho.asked k hk j hj n hn
  · rw [hgranted, hgranted]
    by_cases hji : j = i
    · subst hji
      exact ho.outside k hk j hj hnone
    · rw [hother j hji] at hn
      exact ho.outside k hk j hj hn
  · have hsound : ∀ j ∈ powerSims g, (s.ticks j).fault = none := by
      intro j hj
      by_cases hji : j = i
      · rw [hji]
        exact hfault
      · rw [← hother j hji]
        exact hsound' j hj
    by_cases hki : k = i
    · subst hki
      rw [hother j hkj.symm] at hd hn
      rw [halgo] at hsleep
      exact hknows n (ho.aware hsound k hk j hj hkj hsleep hrunning hd n hn) hsleep (hsound' k hk)
    rw [hother k hki] at hsleep hnd ⊢
    by_cases hji : j = i
    · subst hji
      -- who sleeps from a call that has not been to a reduction knows of no other simulator awake
      cases h with
      | stuck l hl hf => exact absurd (hsound l hl) hf
      | together D st h =>
        rw [(h k hk).mightSleep] at hsleep
        cases hsleep
      | sleepy h => exact absurd hd (hnot (h j hj) (hsound' j hj))
      | lone l hl h hrest =>
        by_cases hjl : j = l
        · exact absurd (hrest k hk (hjl ▸ hki)) hnd
        · exact absurd (hrest j hj hjl) hrunning
    · rw [hother j hji] at hd hn
      exact ho.aware hsound k hk j hj hkj hsleep hnd hd n hn

/-! ## Runs -/

/-- A run without messages in which nobody sleeps twice. -/
structure Orderly (g : HelloGroup ι) (s : State ι) : Prop where
  paced : Paced g s
  calm : ∀ i ∈ powerSims g, (s.ticks i).Calm
  silent : Silent s.session
  ordered : Ordered g s.ticks

theorem Orderly.start (g : HelloGroup ι) (integrator : ι → Integrator) (fresh : ι → ℕ → TIME) :
    Orderly g (.start g integrator fresh g.formed) where
  paced := .start g integrator fresh
  calm _ _ := ⟨rfl, rfl, .running⟩
  silent := ⟨rfl, rfl, nofun⟩
  ordered := by
    refine ⟨fun _ _ _ _ _ hn => (nomatch hn), fun _ _ _ _ _ => le_rfl, fun _ _ _ _ _ _ _ _ hd => ?_⟩
    obtain ⟨n, hn⟩ := hd.requested
    cases hn

theorem Orderly.unfinished (h : Orderly g s) {e : Event ι} (hs : s.step g e = .ok s') : Unfinished s e := by
  obtain ⟨i, _, rfl, hs⟩ | ⟨i, _, _, rfl, hs⟩ | ⟨i, _, _, _, _, r, rfl, -⟩ | ⟨r, _, rfl, -⟩ := step_cases hs
  · exact (h.calm i (call_ok.mp hs).1.1).finished
  · exact (h.calm i (call_ok.mp hs).1.1).finished
  · trivial
  · trivial

omit [LinearOrder ι] in
/-- What a call without messages asks the broker for. -/
theorem Tick.Calm.silent {x : Tick} (h : x.Calm) {r : Request ι} (hr : x.request 0 0 Infinity = some r) :
    SilentRequest r := by
  obtain ⟨g, a, p, fin, fault⟩ := x
  obtain ⟨-, -, hp⟩ := h
  cases fault with
  | some _ => simp [Tick.request] at hr
  | none =>
    cases hp with
    | running => cases hr
    | waiting hl =>
      obtain rfl | rfl : r = .sleep ∨ r = .barrier := by
        simp only [Tick.request, Option.isSome_none, Bool.false_eq_true, if_false, Option.some.injEq] at hr
        split at hr
        · exact .inl hr.symm
        · exact .inr hr.symm
      · trivial
      · trivial
    | sendRecv hl =>
      cases hr
      exact ⟨rfl, rfl⟩
    | networkDelay hl =>
      cases hr
      exact (by decide : Infinity ≠ 0)
    | @minTime l hl hest =>
      cases hr
      show l.nextEstTime ≠ 0
      rw [hest]
      exact hl.pos.ne'
    | _ =>
      cases hr
      trivial

/-- What a reply does to a simulator, and that it stays calm. -/
theorem Orderly.replied (h : Orderly g s) (hf : SilentRequest f.request) (hw : ∀ i ∈ powerSims g, woken i = false)
    (hs : s.send g f woken = .ok s') :
    Silent s'.session ∧ (∀ i ∈ powerSims g, (s'.ticks i).Calm) ∧ Replied g s.ticks s'.ticks := by
  obtain ⟨b, out, rfl, -, -, hrel⟩ := h.paced.linked.released hs
  have hposted := h.silent.posted hf
  have hall : ∀ i ∈ powerSims g, (s.resumed out woken i).Calm ∧
      Tick.Goes (s.ticks i) (s.resumed out woken i) ∧ ((s.ticks i).algo.mightSleep = true →
        (s.resumed out woken i).algo.powersimgrantedTime = (s.ticks i).algo.powersimgrantedTime) := by
    intro i hi
    unfold State.resumed
    split
    · exact ⟨h.calm i hi, .on rfl rfl, fun _ => rfl⟩
    · next r hr =>
      rw [hw i hi]
      refine (h.calm i hi).resume ?_
      obtain rfl | ⟨awake, hrel, -, -⟩ := hrel
      · cases hr
      · rw [h.silent.sent, h.silent.recv] at hrel
        exact replies_quiet hrel hposted hr
  exact ⟨h.silent.after hf, fun i hi => (hall i hi).1, fun i hi => (hall i hi).2⟩

theorem Orderly.send (h : Orderly g s) (hsends : Sends g s f) (hf : SilentRequest f.request)
    (hw : ∀ i ∈ powerSims g, woken i = false) (hs : s.send g f woken = .ok s') : Orderly g s' := by
  obtain ⟨hsilent, hcalm, hreply⟩ := h.replied hf hw hs
  have hpaced := h.paced.send hsends hs
  refine ⟨hpaced, hcalm, hsilent, ?_⟩
  obtain ⟨-, -, hmoves⟩ := h.paced.linked.send hsends hs
  obtain hsame | ⟨awake, hm, hasleep⟩ := hmoves
  · rw [hsame]
    exact h.ordered
  · have hb := h.paced.linked.blocked.posted hsends
    have hsound : ∀ i ∈ powerSims g, (s.ticks i).fault = none := fun i hi => hm.sound hb hasleep hi
    refine ⟨fun i hi j hj => ?_, fun i hi j hj => ?_, fun hsound' k hk j hj hkj hsleep hnd hd n hn => ?_⟩
    · exact (hreply.granted h.paced.phase hsound h.calm h.ordered hi hj).1
    · exact (hreply.granted h.paced.phase hsound h.calm h.ordered hi hj).2
    · exact hreply.aware h.paced.phase hb hasleep hm h.calm hcalm h.ordered hsound' hk hj hkj hsleep hnd hd hn

theorem Orderly.call (h : Orderly g s) (hpaced : Paced g s') {F : Tick → Tick}
    (hcalm : (s.ticks i).Calm → (F (s.ticks i)).Calm) (halgo : (F (s.ticks i)).algo = (s.ticks i).algo)
    (hreq : (F (s.ticks i)).requested = none ∨
      ∃ n, (F (s.ticks i)).requested = some n ∧ (s.ticks i).algo.grantedTime ≤ n)
    (hknows : ∀ n, (s.ticks i).Knows n → (s.ticks i).algo.mightSleep = true → (F (s.ticks i)).fault = none →
      (F (s.ticks i)).Knows n)
    (hnot : (s.ticks i).Sleepy → (F (s.ticks i)).fault = none → ¬ (F (s.ticks i)).Dormant)
    (hs : s.call g i F = .ok s') : Orderly g s' := by
  obtain ⟨hself, hother⟩ := call_ticks hs
  refine ⟨hpaced, fun j hj => ?_, ?_, h.ordered.call h.paced.phase halgo hreq hknows hnot hs⟩
  · by_cases hji : j = i
    · subst hji
      rw [hself]
      exact hcalm (h.calm j hj)
    · rw [hother j hji]
      exact h.calm j hj
  · obtain ⟨-, rfl⟩ := call_ok.mp hs
    exact h.silent

/-- What one step keeps. -/
theorem Orderly.step (h : Orderly g s) {e : Event ι} (hq : Quiet g e) (honce : SleepsOnce s e)
    (hs : s.step g e = .ok s') : Orderly g s' := by
  have hpaced := h.paced.step (h.unfinished hs) honce hs
  obtain ⟨i, currentTime, rfl, hcall⟩ | ⟨i, currentTime, nextTime, rfl, hcall⟩ |
    ⟨i, sent, recv, delay, w, r, rfl, hi, hr, hf, hsend⟩ | ⟨r, w, rfl, hf, hsend⟩ := step_cases hs
  · obtain ⟨⟨hi, hrun, -⟩, -⟩ := call_ok.mp hcall
    have hnone : ((s.ticks i).timeStepStart currentTime).requested = none := Tick.requested_timeStepStart hrun
    refine h.call hpaced (fun hc => hc.timeStepStart) Tick.algo_timeStepStart (.inl hnone) ?_ ?_ hcall
    · intro n hknows _ _
      refine hknows.kept (by rw [Tick.algo_timeStepStart]) fun m hm => ?_
      cases hnone.symm.trans (Tick.requested_of_reducing hm)
    · intro _ _ hd
      obtain ⟨m, hm⟩ := hd.requested
      cases hnone.symm.trans hm
  · obtain ⟨⟨hi, hrun, -⟩, -⟩ := call_ok.mp hcall
    obtain ⟨hlt, hle⟩ := hq
    have hreq : ((s.ticks i).getNextTime currentTime nextTime).requested = none ∨
        ∃ n, ((s.ticks i).getNextTime currentTime nextTime).requested = some n ∧ (s.ticks i).algo.grantedTime ≤ n :=
      (Tick.requested_getNextTime hrun).imp_right fun hx => ⟨nextTime, hx⟩
    refine h.call hpaced (fun hc => hc.getNextTime hlt hle) Tick.algo_getNextTime hreq ?_ ?_ hcall
    · exact fun n hknows hm hsound => hknows.getNextTime hm hle hsound
    · intro hsleepy hsound hd
      obtain ⟨l, hl, -⟩ := hd.place
      have honce : ConservativeSleepingTickAlgo.returnsAtOnce (s.ticks i).algo.grantedTime nextTime = false →
        (s.ticks i).sleepsFirst currentTime nextTime ≤ 1 := honce
      obtain hf | hp | hw := (hsleepy.of_running hrun (h.calm i hi).finished).getNextTime honce
      · exact hf hsound
      · obtain hp | hp := hp.place
        · cases hp.symm.trans hl
        · cases hp.symm.trans hl
      · obtain ⟨rest, l', hp, -⟩ := hw.place
        cases hp.symm.trans hl
  · obtain ⟨⟨rfl, rfl, rfl⟩, hw⟩ := hq
    exact h.send hf ((h.calm i hi).silent hr) hw hsend
  · obtain ⟨hr, hw⟩ := hq
    exact h.send hf (silent_of_netSim hr) hw hsend

/-- In the step `e` from `s` to `s'` a call of `i` returns the time `t`. -/
def Returns (s : State ι) (e : Event ι) (s' : State ι) (i : ι) (t : TIME) : Prop :=
  (∃ currentTime, e = .getNextTime i currentTime t ∧
    ConservativeSleepingTickAlgo.returnsAtOnce (s.ticks i).algo.grantedTime t = true) ∨
  ((s.ticks i).requested.isSome = true ∧ (s'.ticks i).place = .running ∧ (s'.ticks i).finished = false ∧
    (s'.ticks i).algo.grantedTime = t)

/-- Whoever is granted `t`, no other simulator has asked for an earlier time that it has not been granted yet. -/
def InOrder (g : HelloGroup ι) (s : State ι) (e : Event ι) : Prop :=
  ∀ s', s.step g e = .ok s' → ∀ i ∈ powerSims g, ∀ t, Returns s e s' i t →
    ∀ j ∈ powerSims g, j ≠ i → ∀ n, (s.ticks j).requested = some n → t ≤ n

/-- What a request of a simulator or of the net sim grants. -/
theorem Orderly.send_inOrder (h : Orderly g s) (hsends : Sends g s f) (hf : SilentRequest f.request)
    (hw : ∀ i ∈ powerSims g, woken i = false) (hs : s.send g f woken = .ok s') (hi : i ∈ powerSims g)
    (hasked : (s.ticks i).requested.isSome = true) (hp : (s'.ticks i).place = .running) (hj : j ∈ powerSims g)
    (hji : j ≠ i) (hn : (s.ticks j).requested = some n) : (s'.ticks i).algo.grantedTime ≤ n := by
  obtain ⟨-, -, hreply⟩ := h.replied hf hw hs
  have hnone := Tick.requested_of_running hp
  obtain ⟨-, -, hmoves⟩ := h.paced.linked.send hsends hs
  obtain hsame | ⟨awake, hm, hasleep⟩ := hmoves
  · rw [← hsame, hnone] at hasked
    cases hasked
  · have hb := h.paced.linked.blocked.posted hsends
    have hsound : ∀ i ∈ powerSims g, (s.ticks i).fault = none := fun i hi => hm.sound hb hasleep hi
    obtain ⟨hr, -⟩ | ⟨t, -, -, hg, hfirst⟩ := hreply.cases h.paced.phase hsound h.calm h.ordered hi
    · rw [← hr, hnone] at hasked
      cases hasked
    · obtain ⟨m, hm, hle⟩ := hfirst j hj hji
      obtain rfl : m = n := Option.some.inj (hm.symm.trans hn)
      rwa [hg]

theorem Orderly.inOrder (h : Orderly g s) {e : Event ι} (hq : Quiet g e) (hs : s.step g e = .ok s') : InOrder g s e := by
  intro t' hs' i hi t hret j hj hji n hn
  obtain rfl : s' = t' := Except.ok.inj (hs.symm.trans hs')
  obtain ⟨currentTime, rfl, hat⟩ | ⟨hasked, hp, -, rfl⟩ := hret
  · have hlt : t < (s.ticks i).algo.grantedTime := by simpa [ConservativeSleepingTickAlgo.returnsAtOnce] using hat
    exact hlt.le.trans (h.ordered.asked i hi j hj n hn)
  · have hcall {k : ι} {F : Tick → Tick} (hc : s.call g k F = .ok s') : (s'.ticks i).algo.grantedTime ≤ n := by
      -- only a call that is over at once is granted anything
      obtain ⟨⟨-, hrun, -⟩, -⟩ := call_ok.mp hc
      have hik : i ≠ k := by
        intro hik
        rw [hik, Tick.requested_of_running hrun] at hasked
        cases hasked
      rw [(call_ticks hc).2 i hik] at hp
      rw [Tick.requested_of_running hp] at hasked
      cases hasked
    obtain ⟨k, _, rfl, hc⟩ | ⟨k, _, _, rfl, hc⟩ | ⟨k, sent, recv, delay, w, r, rfl, hk, hr, hf, hsend⟩ | ⟨r, w, rfl, hf, hsend⟩ :=
      step_cases hs
    · exact hcall hc
    · exact hcall hc
    · obtain ⟨⟨rfl, rfl, rfl⟩, hw⟩ := hq
      exact h.send_inOrder hf ((h.calm k hk).silent hr) hw hsend hi hasked hp hj hji hn
    · obtain ⟨hr, hw⟩ := hq
      exact h.send_inOrder hf (silent_of_netSim hr) hw hsend hi hasked hp hj hji hn

/-- Without messages the sleeping algorithm grants times in order, as long as no call sleeps more than once before
its first reduction. -/
theorem granted_in_order (g : HelloGroup ι) (integrator : ι → Integrator) (fresh : ι → ℕ → TIME) {es : List (Event ι)}
    (hg : Trace.Guarded (State.step g) (fun s e => Quiet g e ∧ SleepsOnce s e) (.start g integrator fresh g.formed) es) :
    Trace.Guarded (State.step g) (InOrder g) (.start g integrator fresh g.formed) es :=
  hg.imp (J := Orderly g) (fun _ _ _ h hc hs => h.step hc.1 hc.2 hs) (fun _ _ _ h hc hs => h.inOrder hc.1 hs)
    (.start g integrator fresh)

theorem granted_in_order_sleptOnce :
    Trace.Guarded (State.step twoSims) (fun s e => Quiet twoSims e ∧ SleepsOnce s e)
        (.start twoSims inNanoseconds (fun _ _ => 0) twoSims.formed) sleptOnce ∧
      Trace.Guarded (State.step twoSims) (InOrder twoSims)
        (.start twoSims inNanoseconds (fun _ _ => 0) twoSims.formed) sleptOnce := by
  have hg : Trace.Guarded (State.step twoSims) (fun s e => Quiet twoSims e ∧ SleepsOnce s e)
      (.start twoSims inNanoseconds (fun _ _ => 0) twoSims.formed) sleptOnce := by decide +kernel
  exact ⟨hg, granted_in_order twoSims inNanoseconds (fun _ _ => 0) hg⟩

/-! Three simulators. The first wakes the other two and sleeps again, as it has an entry for each of them. These
go on without it, and both sleep twice in turn. -/

def threeSims : HelloGroup ℕ := ⟨[1, 2, 3, 0], by decide, 0, by decide⟩

/-- A turn of the simulators `is`, up to their gather. -/
def turnOf (is : List ℕ) : List (Event ℕ) :=
  is.map asks ++ [netSimAsks (.reduceSendRecv 0 0)] ++ is.map asks ++ [netSimAsks (.reduceMinTime Infinity)] ++
    is.map asks ++ [netSimAsks (.reduceMinTime Infinity)] ++ is.map asks

/-- The first simulator gathers alone at last. -/
def sleptTwice : List (Event ℕ) :=
  [.getNextTime 1 0 5, .getNextTime 2 0 20, .getNextTime 3 0 20] ++ turnOf [1, 2, 3] ++
    [asks 2, asks 3, .getNextTime 1 5 25, asks 1, asks 1] ++ turnOf [2, 3] ++
    [.getNextTime 2 20 30, .getNextTime 3 20 22, asks 2, asks 3, asks 2, asks 3] ++
    [asks 1, netSimAsks (.reduceSendRecv 0 0), asks 1, netSimAsks (.reduceMinTime Infinity), asks 1,
      netSimAsks (.reduceMinTime Infinity)]

/-- It is granted 25 while the third waits for 22. -/
theorem granted_out_of_order :
    Trace.Guarded (State.step threeSims) (fun _ e => Quiet threeSims e)
        (.start threeSims inNanoseconds (fun _ _ => 0) threeSims.formed) (sleptTwice ++ [asks 1]) ∧
      ¬ Trace.Guarded (State.step threeSims) (InOrder threeSims)
        (.start threeSims inNanoseconds (fun _ _ => 0) threeSims.formed) (sleptTwice ++ [asks 1]) := by
  refine ⟨Trace.guarded_of_forall (by decide +kernel), fun hg => ?_⟩
  obtain ⟨s, hs, hcheck⟩ := Trace.exists_run_of_check (State.step threeSims)
    (.start threeSims inNanoseconds (fun _ _ => 0) threeSims.formed) sleptTwice
    (fun s => (s.ticks 1).requested.isSome && (s.ticks 3).requested == some 22 &&
      Trace.endsIn (fun s' => (s'.ticks 1).place == .running && !(s'.ticks 1).finished &&
        (s'.ticks 1).algo.grantedTime == 25) (s.step threeSims (asks 1))) (by decide +kernel)
  simp only [Bool.and_eq_true, beq_iff_eq] at hcheck
  obtain ⟨⟨hasked, hwaits⟩, hlast⟩ := hcheck
  cases hstep : s.step threeSims (asks 1) with
  | error e =>
    rw [hstep] at hlast
    cases hlast
  | ok s' =>
    rw [hstep] at hlast
    simp only [Trace.endsIn, Bool.and_eq_true, Bool.not_eq_true', beq_iff_eq] at hlast
    obtain ⟨⟨hplace, hfin⟩, hgranted⟩ := hlast
    have hle : 25 ≤ 22 := hg.of_run hs hstep s' hstep 1 (by decide) 25 (.inr ⟨hasked, hplace, hfin, hgranted⟩)
      3 (by decide) (by decide) 22 hwaits
    exact absurd hle (by decide)

end Fncs.Sleepers

/-
What has to be true of messages and sleepers for the broker's sums to be in
order, under the sleeping algorithm.

The broker stops when the received total of a round exceeds the sent total
(`reduce_send_recv_checker`). A receipt is never reported before its send when
whoever sleeps has nothing to report, and that is so as long as no call sleeps
twice before its first reduction: who sleeps has reported what it sent, or all
the others sleep as well and go on with it (`Rested`).
-/
import Fncs.Broker.Wakeup
import Fncs.Sync.Turns
import Fncs.Sync.Order

namespace Fncs.Exchange

open Broker (Request Reply Replies HelloGroup Frame Session Publication Answered Release)
open Sleepers (Tick powerSims)
open Traffic (Sound Quiet)

variable {ι : Type} [LinearOrder ι] {n : Network ι} {s s' : Exchange ι} {i j : ι} {r : Request ι} {b : Broker ι}
  {out : Replies ι} {pubs : List Publication} {woken : ι → Bool} {awake : Finset ι}

/-! ## The condition on a run, and what is claimed of it -/

/-- Messages to one object each, fewer than 2^64 of them, and calls of simulators that were not told to finish
and sleep at most once before their first reduction. -/
def Admissible (n : Network ι) (s : Exchange ι) : Event ι → Prop
  | .timeStepStart i _ => i ≠ n.group.netSim → (s.ticks i).finished = false
  | .getNextTime i currentTime nextTime => i ≠ n.group.netSim →
    (s.ticks i).finished = false ∧ Sleepers.SleepsOnce s.system (.getNextTime i currentTime nextTime)
  | .send _ m => m.isBroadCast = false ∧ s.traffic.sentEver + 1 < ulongSize
  | _ => True

instance (n : Network ι) (s : Exchange ι) : (e : Event ι) → Decidable (s.Admissible n e)
  | .timeStepStart i _ => inferInstanceAs (Decidable (i ≠ n.group.netSim → (s.ticks i).finished = false))
  | .getNextTime i currentTime nextTime => inferInstanceAs (Decidable (i ≠ n.group.netSim →
    (s.ticks i).finished = false ∧ Sleepers.SleepsOnce s.system (.getNextTime i currentTime nextTime)))
  | .send _ m => inferInstanceAs (Decidable (m.isBroadCast = false ∧ s.traffic.sentEver + 1 < ulongSize))
  | .settle _ | .ask _ _ | .arrive _ _ | .deliver _ _ => isTrue trivial

/-- The broker does not stop at a report, its totals are in order, and counters that are about to be reset are 0:
no count is lost. -/
structure Accounted (n : Network ι) (s : Exchange ι) : Prop where
  accepted : ∀ i woken, s.step n (.arrive i woken) ≠ .error (.stopped Broker.belowReceived)
  totals : ∀ c ∈ s.traffic.session.broker.ctxs, c.reduceRecvTotal ≤ c.reduceSentTotal
  reset : ∀ i, s.due i = some .resetCounters → s.traffic.counters i = ⟨0, 0⟩

/-! ## The invariant -/

/-- A simulator is where the net sim is, of the two reductions of times in a turn. -/
structure InStep (net : NetSim) (x : Tick) : Prop where
  half : half x = net.half
  diff : net.half ≠ none → x.algo.diff = net.diff

/-- Who sleeps has nothing to report, or everybody else sleeps too. -/
def Rested (n : Network ι) (s : Exchange ι) : Prop :=
  ∀ i ∈ powerSims n.group, (s.ticks i).Dormant →
    (s.traffic.counters i).sendCount = 0 ∨ ∀ j ∈ powerSims n.group, j ≠ i → (s.ticks j).Dormant

/-- No simulator has come to a misuse of its table. -/
def Working (n : Network ι) (s : Exchange ι) : Prop := ∀ i ∈ powerSims n.group, (s.ticks i).fault = none

structure Consistent (n : Network ι) (s : Exchange ι) : Prop where
  sound : Sound n s.traffic
  fits : s.traffic.sentEver < ulongSize
  paced : Sleepers.Paced n.group s.system
  counted : 1 < n.group.size → Broker.SessionCounted n.group.size s.traffic.session
  asks : ∀ i r, s.traffic.asked i = some r → s.due i = none ∧ ∃ sent recv delay, s.request n i sent recv delay = some r
  reported : ∀ i ∈ powerSims n.group, reduced (s.ticks i) = true → (s.traffic.counters i).sendCount = 0
  rested : s.Working n → s.Rested n
  together : s.Working n → ∀ i ∈ powerSims n.group,
    s.traffic.session.pending i = some .sleep ∨ InStep s.netSim (s.ticks i)
  quiet : s.netSim.Settles → Quiet n s.traffic ∧ ∀ i ∈ powerSims n.group, ¬ Free (s.ticks i)
  owed : ∀ i, s.due i = some .resetCounters → i ∈ n.group.members ∧ s.netSim.Settles

theorem mem_powerSims : i ∈ powerSims n.group ↔ i ≠ n.group.netSim ∧ i ∈ n.group.members := by
  simp [Sleepers.powerSims]

theorem request_powerSim (hi : i ∈ powerSims n.group) {sent recv : ℕ} {delay : TIME} :
    s.request n i sent recv delay = (s.ticks i).request sent recv delay :=
  if_neg (mem_powerSims.mp hi).1

/-- Somebody besides the net sim is awake, as far as the broker knows. -/
theorem somebody_awake {t : Session ι} (hag : Broker.SessionAgrees n.group t)
    (hcount : 1 < n.group.size → Broker.SessionCounted n.group.size t) (hne : (powerSims n.group).Nonempty) :
    ∃ k ∈ powerSims n.group, t.pending k ≠ some .sleep := by
  obtain ⟨-, c, hc, hag⟩ := hag
  have hsize : 1 < n.group.size := by
    have hcard : (powerSims n.group).card = n.group.size - 1 := by
      rw [powerSims, Finset.card_erase_of_mem (List.mem_toFinset.mpr n.group.netSim_mem),
        List.toFinset_card_of_nodup n.group.nodup]
      rfl
    have := Finset.card_pos.mpr hne
    omega
  have htwo : 2 ≤ c.contexts.dom.card := by
    have hcounted := (hcount hsize).2 c (by simp [hc])
    rw [OrdMap.card_dom, ← hag.roster.worldSizes]
    exact hcounted.two_le
  obtain ⟨k, hk, hne⟩ := Finset.exists_mem_ne (by omega : 1 < c.contexts.dom.card) n.group.netSim
  have hm : k ∈ n.group.members.toFinset := hag.roster.union ▸ Finset.mem_union_left _ hk
  refine ⟨k, Finset.mem_erase.mpr ⟨hne, hm⟩, fun hsleep => ?_⟩
  have hasleep : k ∈ c.asleep.dom := hag.tables.asleep.mem_dom.mpr ⟨_, (), hsleep, rfl⟩
  exact Finset.disjoint_left.mp hag.roster.disjoint hk hasleep

/-- The group is registered, and nothing was sent. -/
theorem Consistent.start {integrator : ι → Integrator} {fresh : ι → ℕ → TIME}
    (h : Broker.Registered n.group n.objs b) : Consistent n (start n integrator fresh b) where
  sound := .start h
  fits := (by decide : 0 < ulongSize)
  paced := ⟨⟨(Traffic.Reporting.start h).agrees, nofun, (Sleepers.Linked.start n.group integrator fresh).bounded⟩,
    (Sleepers.Paced.start n.group integrator fresh).phase⟩
  counted hsize := by
    refine ⟨(congrArg Broker.worldSize h.broker).trans rfl, fun c hc => ?_⟩
    obtain rfl : c = { n.group.context with netSimObjCount := (Broker.objectsOf n.objs n.group.netSim).length } := by
      have hctxs : (Exchange.start n integrator fresh b).traffic.session.broker.ctxs = b.ctxs := rfl
      rw [hctxs, congrArg Broker.ctxs h.broker] at hc
      exact List.mem_singleton.mp hc
    obtain ⟨h1, h2, h3⟩ := Broker.Counted.fresh hsize (some n.group.netSim) (.ofList n.group.members)
      (.ofList [-1])
    exact ⟨h1, h2, h3⟩
  asks := nofun
  reported _ _ hr := by cases hr
  rested _ _ _ hd := by
    obtain ⟨l, hl, -⟩ := hd.place
    cases hl
  together _ _ _ := .inr ⟨rfl, fun h => absurd rfl h⟩
  quiet h := absurd rfl h.1
  owed := nofun

namespace Consistent

theorem agrees (h : Consistent n s) : Broker.SessionAgrees n.group s.traffic.session := h.sound.reporting.agrees

/-! ## Messages -/

theorem not_reduced (hf : Free (s.ticks i)) : reduced (s.ticks i) = false := by simp [reduced, hf.1]

theorem not_dormant (hp : (s.ticks i).place = .running) : ¬ (s.ticks i).Dormant := by
  intro hd
  obtain ⟨l, hl, -⟩ := hd.place
  cases hp.symm.trans hl

/-- Messages are counted, and a call that was due is made. Only who is outside the algorithm sends. -/
theorem count (h : Consistent n s) {t : Traffic ι} (due : ι → Option Due) (hsession : t.session = s.traffic.session)
    (hsound : Sound n t) (hfits : t.sentEver < ulongSize) (hdue : ∀ j x, due j = some x → s.due j = some x)
    (hasks : ∀ j r, t.asked j = some r → due j = none ∧ ∃ sent recv delay, s.request n j sent recv delay = some r)
    (hcount : ∀ j ∈ powerSims n.group, (t.counters j).sendCount ≤ (s.traffic.counters j).sendCount ∨ Free (s.ticks j))
    (hquiet : s.netSim.Settles → Quiet n t) : Consistent n { s with traffic := t, due := due } where
  sound := hsound
  fits := hfits
  paced := by
    have hsystem : Exchange.system { s with traffic := t, due := due } = s.system := by
      simp only [Exchange.system, hsession]
    rw [hsystem]
    exact h.paced
  counted hsize := by
    have hc := h.counted hsize
    rwa [← hsession] at hc
  asks := hasks
  reported j hj hr := by
    obtain hle | hf := hcount j hj
    · exact Nat.le_zero.mp (hle.trans (h.reported j hj hr).le)
    · cases (not_reduced hf).symm.trans hr
  rested hw j hj hd := by
    obtain hle | hf := hcount j hj
    · exact (h.rested hw j hj hd).imp_left fun hzero => Nat.le_zero.mp (hle.trans hzero.le)
    · exact absurd hd (not_dormant hf.1)
  together hw j hj := by
    have ht := h.together hw j hj
    rwa [← hsession] at ht
  quiet hs := ⟨hquiet hs, (h.quiet hs).2⟩
  owed j hj := h.owed j (hdue j _ hj)

/-- Whoever is free stands where nobody settles. -/
theorem not_settles (h : Consistent n s) (hi : i ∈ n.group.members) (ho : s.Outside n i) : ¬ s.netSim.Settles := by
  intro hs
  unfold Outside at ho
  split at ho
  · exact hs.1 (by simp [NetSim.half, ho])
  · next hne => exact (h.quiet hs).2 i (mem_powerSims.mpr ⟨hne, hi⟩) ho

theorem send {m : Message} (h : Consistent n s) (hc : s.Admissible n (.send i m)) (hs : s.step n (.send i m) = .ok s') :
    Consistent n s' := by
  obtain ⟨hb, hroom⟩ := hc
  simp only [Exchange.step] at hs
  split at hs
  swap
  · cases hs
  next ho =>
  obtain ⟨t, ht, rfl⟩ := lift_ok.mp hs
  obtain ⟨hi, hidle, -⟩ := Traffic.send_ok ht
  have hcopies : n.copies m = 1 := by simp [Network.copies, hb]
  have hfits : t.sentEver < ulongSize := by
    obtain ⟨-, -, ⟨-, -, rfl⟩ | ⟨_, _, -, -, -, -, rfl⟩ | ⟨_, -, -, rfl⟩⟩ := Traffic.send_ok ht
    · exact h.fits
    · exact h.fits
    · show s.traffic.sentEver + n.copies m < ulongSize
      rw [hcopies]
      exact hroom
  have hsound : Sound n t := by
    refine h.sound.step ht hfits (fun i' m' he => ?_) (fun i' he => by cases he)
    cases he
    exact hb
  have hquiet : s.netSim.Settles → Quiet n t := fun hset => absurd hset (h.not_settles hi ho)
  have hrest : t.session = s.traffic.session ∧ t.asked = s.traffic.asked ∧
      ∀ j, j = i ∨ t.counters j = s.traffic.counters j := by
    obtain ⟨-, -, ⟨-, -, rfl⟩ | ⟨_, _, -, -, -, -, rfl⟩ | ⟨_, -, -, rfl⟩⟩ := Traffic.send_ok ht
    · exact ⟨rfl, rfl, fun _ => .inr rfl⟩
    · exact ⟨rfl, rfl, fun _ => .inr rfl⟩
    · refine ⟨rfl, rfl, fun j => ?_⟩
      by_cases hji : j = i
      · exact .inl hji
      · exact .inr (Function.update_of_ne hji ..)
  obtain ⟨hsession, hasked, hother⟩ := hrest
  refine h.count s.due hsession hsound hfits (fun _ _ hx => hx) (by rw [hasked]; exact h.asks) ?_ hquiet
  intro j hj
  obtain rfl | hsame := hother j
  · right
    unfold Outside at ho
    rwa [if_neg (mem_powerSims.mp hj).1] at ho
  · exact .inl (by rw [hsame])

theorem deliver {k : ℕ} {currentTime : TIME} (h : Consistent n s) (hs : s.step n (.deliver k currentTime) = .ok s') :
    Consistent n s' := by
  obtain ⟨t, ht, rfl⟩ := lift_ok.mp hs
  have hrest : t.session = s.traffic.session ∧ t.asked = s.traffic.asked ∧ t.sentEver = s.traffic.sentEver ∧
      s.traffic.inFlight ≠ [] ∧ ∀ j, (t.counters j).sendCount = (s.traffic.counters j).sendCount := by
    obtain ⟨p, hp, -, -, ⟨-, rfl⟩ | ⟨-, -, -, rfl⟩ | ⟨-, -, -, rfl⟩⟩ := Traffic.deliver_ok ht
    · exact ⟨rfl, rfl, rfl, List.ne_nil_of_mem (List.mem_of_getElem? hp), fun _ => rfl⟩
    · exact ⟨rfl, rfl, rfl, List.ne_nil_of_mem (List.mem_of_getElem? hp), fun _ => rfl⟩
    · refine ⟨rfl, rfl, rfl, List.ne_nil_of_mem (List.mem_of_getElem? hp), fun j => ?_⟩
      by_cases hj : j = p.dest
      · rw [hj]
        simp only [Function.update_self]
      · simp only [Function.update_of_ne hj]
  obtain ⟨hsession, hasked, hsent, hflight, hcount⟩ := hrest
  have hfits : t.sentEver < ulongSize := hsent ▸ h.fits
  have hsound : Sound n t := h.sound.step ht hfits (fun _ _ he => by cases he) (fun _ he => by cases he)
  refine h.count s.due hsession hsound hfits (fun _ _ hx => hx) (by rw [hasked]; exact h.asks) ?_ ?_
  · exact fun j _ => .inl (hcount j).le
  · exact fun hset => absurd (h.quiet hset).1.inFlight hflight

/-- Counters that are reset are 0 already. -/
theorem reset (h : Consistent n s) (hd : s.due i = some .resetCounters) : s.traffic.counters i = ⟨0, 0⟩ := by
  obtain ⟨hi, hset⟩ := h.owed i hd
  exact (h.quiet hset).1.counters i (Traffic.mem_members.mpr hi)

/-- A call that was due is made. -/
theorem settled (h : Consistent n s) {t : Traffic ι} (hsession : t.session = s.traffic.session)
    (hasked : t.asked = s.traffic.asked) (hsound : Sound n t) (hfits : t.sentEver < ulongSize)
    (hcount : ∀ j, (t.counters j).sendCount = (s.traffic.counters j).sendCount)
    (hquiet : s.netSim.Settles → Quiet n t) :
    Consistent n { s with traffic := t, due := Function.update s.due i none } := by
  refine h.count _ hsession hsound hfits (fun j x hx => ?_) (fun j r hr => ?_) (fun j _ => .inl (hcount j).le) hquiet
  · by_cases hji : j = i
    · subst hji
      simp at hx
    · rwa [Function.update_of_ne hji] at hx
  · rw [hasked] at hr
    obtain ⟨hdue, hreq⟩ := h.asks j r hr
    refine ⟨?_, hreq⟩
    by_cases hji : j = i
    · subst hji
      simp
    · rwa [Function.update_of_ne hji]

/-- What the net sim gives up it has received. Of nothing it gives up nothing. -/
theorem quiet_packetLostCalculator {leastTime : TIME} {c : Counters} {t : Traffic ι} (h : Quiet n s.traffic)
    (hc : c = { s.traffic.counters n.group.netSim with receiveCount :=
      ((s.traffic.counters n.group.netSim).receiveCount +
        (CommunicationComManager.lost leastTime s.traffic.packets).total id) % ulongSize })
    (ht : t = { s.traffic with
      counters := Function.update s.traffic.counters n.group.netSim c
      packets := s.traffic.packets.filter fun t _ => !decide (t < leastTime) }) : Quiet n t := by
  have hnet := h.counters n.group.netSim (Traffic.mem_members.mpr n.group.netSim_mem)
  have hempty := h.packets
  subst ht
  refine ⟨h.inFlight, ?_, fun i hi => ?_⟩
  · simp only [hempty]
    rfl
  · by_cases hin : i = n.group.netSim
    · subst hin
      rw [hc, hnet, hempty]
      simp only [Function.update_self]
      rfl
    · simp only [Function.update_of_ne hin]
      exact h.counters i hi

theorem settle (h : Consistent n s) (hs : s.step n (.settle i) = .ok s') : Consistent n s' := by
  simp only [Exchange.step] at hs
  split at hs
  · cases hs
  · next hd =>
    have hzero := h.reset hd
    obtain ⟨t, ht, rfl⟩ := lift_ok.mp hs
    have hcounters : Function.update s.traffic.counters i AbsCommManager.resetCounters = s.traffic.counters := by
      rw [show AbsCommManager.resetCounters = s.traffic.counters i from hzero.symm, Function.update_eq_self]
    simp only [Traffic.step, hcounters] at ht
    split at ht
    swap
    · cases ht
    cases ht
    exact h.settled rfl rfl h.sound h.fits (fun _ => rfl) fun hset => (h.quiet hset).1
  · next currentTime hd =>
    obtain ⟨t, ht, rfl⟩ := lift_ok.mp hs
    have hsound : t.sentEver < ulongSize → Sound n t := fun hfits =>
      h.sound.step ht hfits (fun _ _ he => by cases he) (fun _ he => by cases he)
    simp only [Traffic.step, CommunicationComManager.packetLostCalculator] at ht
    split at ht
    swap
    · cases ht
    obtain ht := (Except.ok.inj ht).symm
    have hcount (j : ι) : (t.counters j).sendCount = (s.traffic.counters j).sendCount := by
      rw [ht]
      by_cases hj : j = n.group.netSim
      · subst hj
        simp only [Function.update_self]
      · simp only [Function.update_of_ne hj]
    have hfits : t.sentEver < ulongSize := by rw [ht]; exact h.fits
    exact h.settled (by rw [ht]) (by rw [ht]) (hsound hfits) hfits hcount fun hset =>
      quiet_packetLostCalculator (h.quiet hset).1 rfl ht

/-- A request is made: the traffic is as it was. -/
theorem ask {delay : TIME} (h : Consistent n s) (hs : s.step n (.ask i delay) = .ok s') : Consistent n s' := by
  simp only [Exchange.step] at hs
  split at hs
  · cases hs
  next r hr =>
  split at hs
  swap
  · cases hs
  next hdue =>
  obtain ⟨t, ht, rfl⟩ := lift_ok.mp hs
  have hsound : t.sentEver < ulongSize → Sound n t := fun hfits =>
    h.sound.step ht hfits (fun _ _ he => by cases r <;> cases he) (fun _ he => by cases r <;> cases he)
  obtain rfl := ask_ok hr ht
  refine h.count s.due rfl (hsound h.fits) h.fits (fun _ _ hx => hx) ?_ (fun _ _ => .inl le_rfl) fun hset =>
    ⟨(h.quiet hset).1.inFlight, (h.quiet hset).1.packets, (h.quiet hset).1.counters⟩
  intro j q hq
  obtain ⟨rfl, rfl⟩ | ⟨-, hq⟩ := Pending.post_eq_some.mp hq
  · exact ⟨hdue, _, _, _, hr⟩
  · exact h.asks j q hq

/-! ## Calls -/

/-- Who is outside the algorithm has asked for nothing. -/
theorem not_asked (h : Consistent n s) (hi : i ∈ powerSims n.group) (hp : (s.ticks i).place = .running) :
    s.traffic.asked i = none := by
  by_contra hne
  obtain ⟨r, hr⟩ := Option.ne_none_iff_exists'.mp hne
  obtain ⟨-, _, _, _, hreq⟩ := h.asks i r hr
  rw [request_powerSim hi] at hreq
  simp [Tick.request, hp] at hreq

/-- The net sim makes a call. -/
theorem call_netSim {g : NetSim → NetSim} (h : Consistent n s) (hp : s.netSim.place = .running)
    (hg : (g s.netSim).half = none) : Consistent n { s with netSim := g s.netSim } := by
  have hhalf : s.netSim.half = none := by simp [NetSim.half, hp]
  refine ⟨h.sound, h.fits, h.paced, h.counted, fun j r hr => ?_, h.reported, h.rested, fun hw j hj => ?_,
    fun hset => absurd hg hset.1, fun j hd => absurd hhalf (h.owed j hd).2.1⟩
  · obtain ⟨hdue, sent, recv, delay, hreq⟩ := h.asks j r hr
    refine ⟨hdue, sent, recv, delay, ?_⟩
    unfold Exchange.request at hreq ⊢
    split at hreq
    · simp [NetSim.request, hp] at hreq
    · next hne => rwa [if_neg hne]
  · refine (h.together hw j hj).imp_right fun hstep => ?_
    exact ⟨hstep.half.trans (hhalf.trans hg.symm), fun hne => absurd hg hne⟩

/-- Another simulator makes a call. -/
theorem call_tick {F : Tick → Tick} (h : Consistent n s) (hi : i ∈ powerSims n.group)
    (hfree : Free (s.ticks i)) (hs : s' = { s with ticks := Function.update s.ticks i (F (s.ticks i)) })
    (hpaced : Sleepers.Paced n.group s'.system) (hreduced : reduced (F (s.ticks i)) = false)
    (hdormant : (F (s.ticks i)).Dormant → s.Working n → ∀ j ∈ powerSims n.group, j ≠ i → (s.ticks j).Dormant) :
    Consistent n s' := by
  obtain ⟨hp, hfault⟩ := hfree
  have hnot : ¬ s.netSim.Settles := fun hset => (h.quiet hset).2 i hi ⟨hp, hfault⟩
  have hidle := h.not_asked hi hp
  have hself : s'.ticks i = F (s.ticks i) := by rw [hs]; exact Function.update_self ..
  have hother (j : ι) (hji : j ≠ i) : s'.ticks j = s.ticks j := by rw [hs]; exact Function.update_of_ne hji ..
  have hworking (hw : s'.Working n) : s.Working n := by
    intro j hj
    by_cases hji : j = i
    · rw [hji]
      exact hfault
    · rw [← hother j hji]
      exact hw j hj
  have htraffic : s'.traffic = s.traffic := by rw [hs]
  have hnet : s'.netSim = s.netSim := by rw [hs]
  have hdue : s'.due = s.due := by rw [hs]
  refine ⟨htraffic ▸ h.sound, htraffic ▸ h.fits, hpaced, htraffic ▸ h.counted, fun j r hr => ?_, fun j hj hr => ?_,
    fun hw j hj hd => ?_, fun hw j hj => ?_, fun hset => absurd (hnet ▸ hset) hnot, fun j hd => ?_⟩
  · rw [htraffic] at hr
    obtain ⟨hd, sent, recv, delay, hreq⟩ := h.asks j r hr
    have hji : j ≠ i := by
      intro hji
      subst hji
      cases hidle.symm.trans hr
    refine ⟨hdue ▸ hd, sent, recv, delay, ?_⟩
    unfold Exchange.request at hreq ⊢
    rwa [hnet, hother j hji]
  · rw [htraffic]
    by_cases hji : j = i
    · subst hji
      rw [hself, hreduced] at hr
      cases hr
    · rw [hother j hji] at hr
      exact h.reported j hj hr
  · rw [htraffic]
    by_cases hji : j = i
    · subst hji
      rw [hself] at hd
      refine .inr fun k hk hkj => ?_
      rw [hother k hkj]
      exact hdormant hd (hworking hw) k hk hkj
    · rw [hother j hji] at hd
      refine (h.rested (hworking hw) j hj hd).imp_right fun hall => ?_
      exact absurd (hall i hi (Ne.symm hji)) (not_dormant hp)
  · rw [htraffic, hnet]
    have hold := h.together (hworking hw) j hj
    by_cases hji : j = i
    · subst hji
      obtain hsleep | hstep := hold
      · cases hidle.symm.trans (h.sound.reporting.waits j _ hsleep)
      · have hhalf : s.netSim.half = none := by rw [← hstep.half]; simp [half, hp]
        rw [hself]
        exact .inr ⟨(half_of_not_reduced hreduced).trans hhalf.symm, fun hne => absurd hhalf hne⟩
    · rwa [hother j hji]
  · rw [hdue] at hd
    exact absurd (h.owed j hd).2 hnot

/-- Who sleeps in a call that has come to no reduction is the last one awake. -/
theorem dormant_of_getNextTime {currentTime nextTime : TIME} (h : Sleepers.Phase n.group s.ticks)
    (hi : i ∈ powerSims n.group) (hfree : Free (s.ticks i)) (hfin : (s.ticks i).finished = false)
    (honce : Sleepers.SleepsOnce s.system (.getNextTime i currentTime nextTime))
    (hd : ((s.ticks i).getNextTime currentTime nextTime).Dormant) (hw : s.Working n) :
    ∀ j ∈ powerSims n.group, j ≠ i → (s.ticks j).Dormant := by
  intro j hj hji
  have hasks : ((s.ticks i).getNextTime currentTime nextTime).request 0 0 0 = some (.sleep : Request ι) := hd.request
  cases h with
  | stuck k hk hf => exact absurd (hw k hk) hf
  | together D st h => exact absurd hasks ((h i hi).getNextTime hfree.1).not_sleep
  | sleepy h =>
    obtain ⟨l, hl, -⟩ := hd.place
    obtain hf | hp | hwaking := ((h i hi).of_running hfree.1 hfin).getNextTime honce
    · exact absurd hd.sound hf
    · obtain hp | hp := hp.place
      · cases hp.symm.trans hl
      · cases hp.symm.trans hl
    · obtain ⟨_, _, hp, -⟩ := hwaking.place
      cases hp.symm.trans hl
  | lone k hk h hrest =>
    have hik : i = k := by
      by_contra hik
      exact not_dormant hfree.1 (hrest i hi hik)
    subst hik
    exact hrest j hj hji

theorem timeStepStart {currentTime : TIME} (h : Consistent n s) (hc : s.Admissible n (.timeStepStart i currentTime))
    (hs : s.step n (.timeStepStart i currentTime) = .ok s') : Consistent n s' := by
  obtain ⟨-, hp, rfl⟩ | ⟨hi, hcall, hs'⟩ := call_ok hs
  · exact h.call_netSim hp (NetSim.half_call (t := 0) hp).1
  · have hfree := (Sleepers.call_ok.mp hcall).1.2
    have hpaced := h.paced.step (e := .timeStepStart i currentTime) (hc (mem_powerSims.mp hi).1) trivial hcall
    refine h.call_tick hi hfree hs' hpaced (reduced_call hfree.1).1 fun hd => ?_
    -- it waits, or its call is over
    obtain ⟨l, hl, -⟩ := hd.place
    unfold Tick.timeStepStart at hl
    split at hl
    · cases hfree.1.symm.trans hl
    · cases hl

theorem getNextTime {currentTime nextTime : TIME} (h : Consistent n s)
    (hc : s.Admissible n (.getNextTime i currentTime nextTime))
    (hs : s.step n (.getNextTime i currentTime nextTime) = .ok s') : Consistent n s' := by
  obtain ⟨-, hp, rfl⟩ | ⟨hi, hcall, hs'⟩ := call_ok hs
  · exact h.call_netSim hp (NetSim.half_call hp).2
  · have hfree := (Sleepers.call_ok.mp hcall).1.2
    obtain ⟨hfin, honce⟩ := hc (mem_powerSims.mp hi).1
    have hpaced := h.paced.step (e := .getNextTime i currentTime nextTime) hfin honce hcall
    exact h.call_tick hi hfree hs' hpaced ((reduced_call hfree.1).2 nextTime)
      (dormant_of_getNextTime h.paced.phase hi hfree hfin honce)

end Consistent

end Fncs.Exchange

/-
The account of the messages over a run: what a request that reaches the broker
does to the invariant, one lemma for each collective that the broker lets go.
-/
import Fncs.Sync.Consistency

namespace Fncs.Exchange

open Broker (Request Reply Replies HelloGroup Frame Session Publication Answered Release)
open Sleepers (Tick powerSims)
open Traffic (Sound Quiet)

variable {ι : Type} [LinearOrder ι] {n : Network ι} {s s' : Exchange ι} {i j : ι} {r : Request ι} {b : Broker ι}
  {out : Replies ι} {pubs : List Publication} {woken : ι → Bool} {awake : Finset ι}

namespace Consistent

/-! ## A request at the broker -/

/-- Who may take part in what `i`'s request completes: members, the net sim among them, and all who do not sleep. -/
structure Present (n : Network ι) (s : Exchange ι) (i : ι) (r : Request ι) (awake : Finset ι) : Prop where
  subset : awake ⊆ n.members
  netSim : n.group.netSim ∈ awake
  asleep : ∀ j ∈ n.members, j ∉ awake → s.traffic.session.posted ⟨i, 0, r⟩ j = some .sleep

theorem present (h : Consistent n s) (hr : s.traffic.asked i = some r) (hp : s.traffic.session.pending i = none)
    {c : Broker.Context ι}
    (hag : Broker.Agrees n.group s.traffic.session.pending s.traffic.session.sentSum s.traffic.session.recvSum c) :
    Present n s i r (Broker.awakeFor c ⟨i, 0, r⟩) := by
  refine ⟨hag.awakeFor_subset, ?_, fun j hj hja => hag.asleep_of_notMem hp hj hja⟩
  unfold Broker.awakeFor
  split
  · next hsleep =>
    -- the net sim never asks to sleep
    obtain rfl : r = .sleep := hsleep
    refine Finset.mem_erase.mpr ⟨fun hi => ?_, hag.roster.netSim_awake⟩
    obtain rfl : n.group.netSim = i := hi
    cases (h.sound.reporting.proper _ _ hr).2.2.2 rfl
  · exact hag.roster.netSim_awake

/-- The requests that the broker has or gets are those the simulators block in. -/
theorem blocked (h : Consistent n s) (hr : s.traffic.asked i = some r) :
    Sleepers.Blocked n.group (s.traffic.session.posted ⟨i, 0, r⟩) s.ticks := by
  intro j hj q hq
  obtain ⟨-, sent, recv, delay, hreq⟩ := h.asks j q (h.sound.reporting.posted hr hq)
  exact ⟨sent, recv, delay, request_powerSim hj ▸ hreq⟩

/-- If somebody besides the net sim is awake and all the awake report, then the others have nothing to report. -/
theorem unsent_of_asleep (h : Consistent n s) (hr : s.traffic.asked i = some r) (ha : Present n s i r awake)
    (hreport : ∀ j ∈ awake, ∃ sent recv, s.traffic.session.posted ⟨i, 0, r⟩ j = some (.reduceSendRecv sent recv))
    (hsome : (powerSims n.group).Nonempty → ∃ k ∈ powerSims n.group, k ∈ awake) :
    ∀ j ∈ n.members, j ∉ awake → (s.traffic.counters j).sendCount = 0 := by
  intro j hj hja
  have hjp : j ∈ powerSims n.group := mem_powerSims.mpr
    ⟨fun hjn => hja (hjn ▸ ha.netSim), Traffic.mem_members.mp hj⟩
  obtain ⟨k, hk, hka⟩ := hsome ⟨j, hjp⟩
  have hb := h.blocked hr
  have hworking : s.Working n := by
    intro l hl
    by_contra hf
    have hnone {q : Request ι} (hq : s.traffic.session.posted ⟨i, 0, r⟩ l = some q) : False := by
      obtain ⟨_, _, _, hreq⟩ := hb l hl q hq
      have hsome : (s.ticks l).fault.isSome = true := Option.isSome_iff_ne_none.mpr hf
      simp [Tick.request, hsome] at hreq
    by_cases hla : l ∈ awake
    · obtain ⟨_, _, hq⟩ := hreport l hla
      exact hnone hq
    · exact hnone (ha.asleep l (Traffic.mem_members.mpr (mem_powerSims.mp hl).2) hla)
  obtain ⟨a, c, hq⟩ := hreport k hka
  obtain ⟨_, _, _, hkreq⟩ := hb k hk _ hq
  obtain ⟨_, _, _, hjreq⟩ := hb j hjp _ (ha.asleep j hj hja)
  have hkdormant : ¬ (s.ticks k).Dormant := by
    intro hd
    cases hd.request.symm.trans hkreq
  cases h.paced.phase with
  | stuck l hl hf => exact absurd (hworking l hl) hf
  | together D st hx => exact absurd hjreq (hx j hjp).not_sleep
  | sleepy hx =>
    obtain ⟨hr, -⟩ | ⟨hr, -⟩ := (hx k hk).of_request (w := false) hkreq
    · cases hr
    · cases hr
  | lone l hl hx hrest =>
    have hkl : k = l := by
      by_contra hkl
      exact hkdormant (hrest k hk hkl)
    subst hkl
    have hjk : j ≠ k := by
      intro hjk
      exact hja (hjk ▸ hka)
    exact (h.rested hworking j hjp (hrest j hjp hjk)).resolve_right fun hall => hkdormant (hall k hk (Ne.symm hjk))

/-- The broker does not stop at `i`'s request. -/
theorem ne_below (h : Consistent n s) (hr : s.traffic.asked i = some r) (hp : s.traffic.session.pending i = none) :
    s.traffic.session.broker.step i 0 r ≠ .error Broker.belowReceived := by
  obtain ⟨-, c, hc, hag⟩ := h.agrees
  have ha := h.present hr hp hag
  refine Broker.step_ne_below (f := ⟨i, 0, r⟩) hc hag (h.sound.reporting.collectivesOnly hr hp) fun hcard => ?_
  refine h.sound.roundFits h.fits hr hag ha.subset fun hreport => h.unsent_of_asleep hr ha hreport fun hne => ?_
  by_cases hsleep : r = .sleep
  · -- somebody else stays awake
    have hpos := Finset.card_pos.mpr ⟨_, ha.netSim⟩
    have hone := hcard hsleep
    obtain ⟨k, hk, hkn⟩ := Finset.exists_mem_ne (by omega : 1 < (Broker.awakeFor c ⟨i, 0, r⟩).card) n.group.netSim
    exact ⟨k, mem_powerSims.mpr ⟨hkn, Traffic.mem_members.mp (ha.subset hk)⟩, hk⟩
  · obtain ⟨k, hk, hkp⟩ := somebody_awake h.agrees h.counted hne
    refine ⟨k, hk, ?_⟩
    by_contra hka
    obtain ⟨-, hq⟩ | ⟨-, hq⟩ := Pending.post_eq_some.mp
      (ha.asleep k (Traffic.mem_members.mpr (mem_powerSims.mp hk).2) hka)
    · exact hsleep hq
    · exact hkp hq

theorem accounted (h : Consistent n s) : Accounted n s where
  accepted i woken hs := by
    simp only [Exchange.step] at hs
    split at hs
    · cases hs
    next r hr =>
    split at hs
    · cases hs
    next hp =>
    split at hs
    · next e he =>
      obtain rfl : e = Broker.belowReceived := by simpa using hs
      exact h.ne_below hr (not_not.mp hp) he
    · cases hs
  totals := h.sound.totals_le h.fits
  reset _ hd := h.reset hd

end Consistent

/-! ## What the broker lets go -/

theorem replyTo_of_notMem (hj : j ∉ out.map Prod.fst) : System.replyTo out j = none := by
  rw [System.replyTo, Option.map_eq_none_iff, List.find?_eq_none]
  exact fun e he hej => hj (List.mem_map.mpr ⟨e, he, of_decide_eq_true hej⟩)

theorem after_due {who : Finset ι} {reply : ι → Reply} (ha : Answered out who reply) :
    (s.after n i r b out woken).due j = if j ∈ who then
      (if j = n.group.netSim then s.netSim.owes (reply j) else owes (s.ticks j) (reply j)) else s.due j := by
  simp only [after, System.replyTo_eq ha]
  split
  · next h =>
    split at h
    · cases h
    · next hj => rw [if_neg hj]
  · next h =>
    split at h
    · next hj =>
      cases h
      rw [if_pos hj]
    · cases h

/-- What a release leaves of the turns. -/
structure Followed (n : Network ι) (s : Exchange ι) : Prop where
  together : s.Working n → ∀ j ∈ powerSims n.group,
    s.traffic.session.pending j = some .sleep ∨ InStep s.netSim (s.ticks j)
  quiet : s.netSim.Settles → Quiet n s.traffic ∧ ∀ j ∈ powerSims n.group, ¬ Free (s.ticks j)
  owed : ∀ j, s.due j = some .resetCounters → j ∈ n.group.members ∧ s.netSim.Settles

theorem NetSim.owes_resetCounters {x : NetSim} {q : Reply} (h : x.owes q = some .resetCounters) :
    ∃ currentTime, x.place = .sendRecv currentTime ∧ q = .diff 0 := by
  unfold NetSim.owes at h
  split at h
  · next currentTime d hp =>
    split at h
    · next hd => exact ⟨currentTime, hp, by rw [hd]⟩
    · cases h
  · cases h

theorem owes_resetCounters {x : Tick} {q : Reply} (h : owes x q = some .resetCounters) :
    half x = some .networkDelay ∧ x.algo.diff = 0 ∧ ∃ t, q = .time t := by
  unfold owes at h
  split at h
  · next l t hp =>
    split at h
    · next hd => exact ⟨by simp [half, hp], hd, t, rfl⟩
    · cases h
  · cases h

/-- A reset that is due now was so before, or is made so by the difference or, for another simulator than the net
sim, by the network delay. -/
theorem owed_after {who : Finset ι} {reply : ι → Reply} (ha : Answered out who reply)
    (hd : (s.after n i r b out woken).due j = some .resetCounters) :
    (j ∉ who ∧ s.due j = some .resetCounters) ∨
      (j = n.group.netSim ∧ (∃ currentTime, s.netSim.place = .sendRecv currentTime) ∧ reply j = .diff 0) ∨
      (j ∈ who ∧ j ≠ n.group.netSim ∧ half (s.ticks j) = some .networkDelay ∧ (s.ticks j).algo.diff = 0 ∧
        ∃ t, reply j = .time t) := by
  rw [after_due ha] at hd
  split at hd
  · next hj =>
    split at hd
    · next hjn =>
      obtain ⟨currentTime, hp, hq⟩ := NetSim.owes_resetCounters hd
      exact .inr (.inl ⟨hjn, ⟨currentTime, hp⟩, hq⟩)
    · next hjn =>
      obtain ⟨hhalf, hdiff, hq⟩ := owes_resetCounters hd
      exact .inr (.inr ⟨hj, hjn, hhalf, hdiff, hq⟩)
  · next hj => exact .inl ⟨hj, hd⟩

/-- Without a difference the counters stay as they are. -/
theorem quiet_after (hq : Quiet n s.traffic) (hne : ∀ e ∈ out, ∀ d, e.2 ≠ .diff d) :
    Quiet n (s.after n i r b out woken).traffic := by
  refine ⟨hq.inFlight, hq.packets, fun j hj => ?_⟩
  show s.traffic.settled out j = _
  rw [Traffic.settled_of_ne hne]
  exact hq.counters j hj

namespace Consistent

section Released

variable (h : Consistent n s) (hr : s.traffic.asked i = some r)

include h hr

theorem request_of_posted {q : Request ι} (hj : j ∈ powerSims n.group)
    (hq : s.traffic.session.posted ⟨i, 0, r⟩ j = some q) :
    ∃ sent recv delay, (s.ticks j).request sent recv delay = some q := by
  obtain ⟨-, sent, recv, delay, hreq⟩ := h.asks j q (h.sound.reporting.posted hr hq)
  exact ⟨sent, recv, delay, request_powerSim hj ▸ hreq⟩

theorem request_of_netSim {q : Request ι} (hq : s.traffic.session.posted ⟨i, 0, r⟩ n.group.netSim = some q) :
    ∃ sent recv delay, s.netSim.request sent recv delay = some q := by
  obtain ⟨-, sent, recv, delay, hreq⟩ := h.asks _ q (h.sound.reporting.posted hr hq)
  refine ⟨sent, recv, delay, ?_⟩
  rwa [Exchange.request, if_pos rfl] at hreq

/-- Who asks for anything but sleep is in step with the net sim. -/
theorem inStep (hp : s.traffic.session.pending i = none) (hw : s.Working n) {q : Request ι}
    (hj : j ∈ powerSims n.group) (hq : s.traffic.session.posted ⟨i, 0, r⟩ j = some q) (hne : q ≠ .sleep) :
    InStep s.netSim (s.ticks j) := by
  refine (h.together hw j hj).resolve_left fun hsleep => ?_
  obtain ⟨rfl, -⟩ | ⟨-, hq⟩ := Pending.post_eq_some.mp hq
  · cases hp.symm.trans hsleep
  · exact hne (Option.some.inj (hq.symm.trans hsleep))

/-- Who is not awake goes on sleeping. -/
theorem sleeps_on (hpres : Present n s i r awake) {who : Finset ι} {reply : ι → Reply} (ha : Answered out who reply)
    (hj : j ∈ powerSims n.group) (hja : j ∉ awake) (hjw : j ∉ who) :
    (s.after n i r b out woken).traffic.session.pending j = some .sleep ∧
      ¬ Free ((s.after n i r b out woken).ticks j) := by
  have hq := hpres.asleep j (Traffic.mem_members.mpr (mem_powerSims.mp hj).2) hja
  obtain ⟨_, _, _, hreq⟩ := h.request_of_posted hr hj hq
  refine ⟨Pending.answer_eq_some.mpr ⟨fun hm => hjw (ha.mem_iff.mp hm), hq⟩, ?_⟩
  rw [after_ticks ha, if_neg hjw]
  exact (not_free_of_sleep hreq).1

/-- Who is not awake owes no reset. -/
theorem not_owed (hpres : Present n s i r awake) (hja : j ∉ awake) : s.due j ≠ some .resetCounters := by
  intro hd
  have hq := hpres.asleep j (Traffic.mem_members.mpr (h.owed j hd).1) hja
  cases hd.symm.trans (h.asks j _ (h.sound.reporting.posted hr hq)).1

/-- The barrier: nobody is halfway through a turn, before or after. -/
theorem followed_barrier (hpres : Present n s i r awake)
    (hpart : Pending.Participants (s.traffic.session.posted ⟨i, 0, r⟩) (fun _ : Unit => .barrier) awake fun _ => ())
    (ha : Answered out awake fun _ => .ack) : Followed n (s.after n i r b out woken) := by
  obtain ⟨_, _, _, hnreq⟩ := h.request_of_netSim hr ((hpart n.group.netSim ()).mpr ⟨hpres.netSim, rfl⟩)
  have hhalf : s.netSim.half = none := by
    by_contra hne
    obtain ⟨τ, hτ⟩ := (NetSim.half_of_request hnreq).mp hne
    cases hτ
  have hnet : (s.after n i r b out woken).netSim.half = none := by
    rw [after_netSim ha, if_pos hpres.netSim]
    exact NetSim.half_ack hhalf
  refine ⟨fun _ j hj => ?_, fun hset => absurd hnet hset.1, fun j hd => ?_⟩
  · by_cases hja : j ∈ awake
    · obtain ⟨_, _, _, hreq⟩ := h.request_of_posted hr hj ((hpart j ()).mpr ⟨hja, rfl⟩)
      have hx : half (s.ticks j) = none := half_of_request hreq nofun
      right
      refine ⟨?_, fun hne => absurd hnet hne⟩
      rw [hnet, after_ticks ha, if_pos hja]
      exact half_ack hx
    · exact .inl (h.sleeps_on hr hpres ha hj hja hja).1
  · obtain ⟨hja, hd⟩ | ⟨-, -, hq⟩ | ⟨-, -, -, -, t, hq⟩ := owed_after ha hd
    · exact absurd hd (h.not_owed hr hpres hja)
    · cases hq
    · cases hq

/-- A minimum of times: who proposed one goes on to the next reduction with the net sim, or leaves the turn with it. -/
theorem followed_minTime (hp : s.traffic.session.pending i = none) (hpres : Present n s i r awake) (hw : s.Working n)
    {time : ι → TIME} {t : TIME}
    (hpart : Pending.Participants (s.traffic.session.posted ⟨i, 0, r⟩) .reduceMinTime awake time)
    (ha : Answered out awake fun _ => .time t) : Followed n (s.after n i r b out woken) := by
  obtain ⟨_, _, _, hnreq⟩ := h.request_of_netSim hr ((hpart n.group.netSim _).mpr ⟨hpres.netSim, rfl⟩)
  have hne : s.netSim.half ≠ none := (NetSim.half_of_request hnreq).mpr ⟨_, rfl⟩
  have hstep (j : ι) (hj : j ∈ powerSims n.group) (hja : j ∈ awake) : InStep s.netSim (s.ticks j) :=
    h.inStep hr hp hw hj ((hpart j _).mpr ⟨hja, rfl⟩) nofun
  have hnet : (s.after n i r b out woken).netSim = s.netSim.resume (.time t) := by
    rw [after_netSim ha, if_pos hpres.netSim]
  have htick (j : ι) (hja : j ∈ awake) : (s.after n i r b out woken).ticks j = (s.ticks j).resume (woken j) (.time t) := by
    rw [after_ticks ha, if_pos hja]
  have hdiff : ∀ e ∈ out, ∀ d, e.2 ≠ .diff d := fun e he d => by rw [ha.value e he]; nofun
  cases hhalf : s.netSim.half with
  | none => exact absurd hhalf hne
  | some v =>
    cases v with
    | networkDelay =>
      obtain ⟨hnhalf, hndiff⟩ := NetSim.half_networkDelay (t := t) hhalf
      rw [← hnet] at hnhalf hndiff
      have hx (j : ι) (hj : j ∈ powerSims n.group) (hja : j ∈ awake) :=
        half_networkDelay (woken j) (t := t) ((hstep j hj hja).half.trans hhalf)
      refine ⟨fun hw' j hj => ?_, fun hset => ?_, fun j hd => ?_⟩
      · by_cases hja : j ∈ awake
        · have hsound := hw' j hj
          rw [htick j hja] at hsound ⊢
          obtain ⟨hxhalf, hxdiff⟩ := (hx j hj hja).resolve_left (not_not.mpr hsound)
          refine .inr ⟨hxhalf.trans hnhalf.symm, fun _ => ?_⟩
          rw [hxdiff, (hstep j hj hja).diff hne, hndiff]
        · exact .inl (h.sleeps_on hr hpres ha hj hja hja).1
      · refine ⟨quiet_after (h.quiet ⟨hne, hndiff ▸ hset.2⟩).1 hdiff, fun j hj => ?_⟩
        by_cases hja : j ∈ awake
        · rw [htick j hja]
          obtain hf | ⟨hxhalf, -⟩ := hx j hj hja
          · exact fun hfree => hf hfree.2
          · refine not_free_of_half ?_
            rw [hxhalf]
            nofun
        · exact (h.sleeps_on hr hpres ha hj hja hja).2
      · obtain ⟨hja, hd⟩ | ⟨-, -, hq⟩ | ⟨hja, hjn, -, hd0, -⟩ := owed_after ha hd
        · exact absurd hd (h.not_owed hr hpres hja)
        · cases hq
        · have hm := Traffic.mem_members.mp (hpres.subset hja)
          refine ⟨hm, by rw [hnhalf]; nofun, ?_⟩
          rw [hndiff, ← (hstep j (mem_powerSims.mpr ⟨hjn, hm⟩) hja).diff hne, hd0]
    | minTime =>
      have hnhalf : (s.after n i r b out woken).netSim.half = none := hnet ▸ NetSim.half_minTime hhalf
      refine ⟨fun hw' j hj => ?_, fun hset => absurd hnhalf hset.1, fun j hd => ?_⟩
      · by_cases hja : j ∈ awake
        · have hsound := hw' j hj
          rw [htick j hja] at hsound ⊢
          have hx := half_minTime (woken j) (t := t) ((hstep j hj hja).half.trans hhalf)
          refine .inr ⟨?_, fun hne' => absurd hnhalf hne'⟩
          rw [hnhalf]
          exact hx.resolve_left (not_not.mpr hsound)
        · exact .inl (h.sleeps_on hr hpres ha hj hja hja).1
      · obtain ⟨hja, hd⟩ | ⟨-, -, hq⟩ | ⟨hja, hjn, hxhalf, -, -⟩ := owed_after ha hd
        · exact absurd hd (h.not_owed hr hpres hja)
        · cases hq
        · have hm := Traffic.mem_members.mp (hpres.subset hja)
          have hthis := (hstep j (mem_powerSims.mpr ⟨hjn, hm⟩) hja).half
          cases hxhalf.symm.trans (hthis.trans hhalf)

/-- The differences: all awake begin the reductions of times with the same one. -/
theorem followed_sendRecv (hpres : Present n s i r awake) {val : ι → ℕ × ℕ} {d : ℕ}
    (hpart : Pending.Participants (s.traffic.session.posted ⟨i, 0, r⟩) (fun v => .reduceSendRecv v.1 v.2) awake val)
    (ha : Answered out awake fun _ => .diff d) (hsound : Sound n (s.after n i r b out woken).traffic)
    (hround : Traffic.Round n s.traffic (s.after n i r b out woken).traffic awake d)
    (hsome : (powerSims n.group).Nonempty → ∃ k ∈ powerSims n.group, k ∈ awake) :
    Followed n (s.after n i r b out woken) := by
  obtain ⟨_, _, _, hnreq⟩ := h.request_of_netSim hr ((hpart n.group.netSim _).mpr ⟨hpres.netSim, rfl⟩)
  obtain ⟨currentTime, hplace⟩ := NetSim.sendRecv_of_request hnreq
  have hnet : (s.after n i r b out woken).netSim.half = some .networkDelay ∧
      (s.after n i r b out woken).netSim.diff = d := by
    rw [after_netSim ha, if_pos hpres.netSim]
    exact NetSim.half_diff hplace
  have htick (j : ι) (hj : j ∈ powerSims n.group) (hja : j ∈ awake) :
      half ((s.after n i r b out woken).ticks j) = some .networkDelay ∧
        ((s.after n i r b out woken).ticks j).algo.diff = d := by
    obtain ⟨_, _, _, hreq⟩ := h.request_of_posted hr hj ((hpart j _).mpr ⟨hja, rfl⟩)
    obtain ⟨l, hl⟩ : ∃ l, (s.ticks j).place = .sendRecv l := place_of_request hreq
    rw [after_ticks ha, if_pos hja]
    exact half_diff hl
  refine ⟨fun _ j hj => ?_, fun hset => ?_, fun j hd => ?_⟩
  · by_cases hja : j ∈ awake
    · obtain ⟨hhalf, hdiff⟩ := htick j hj hja
      exact .inr ⟨hhalf.trans hnet.1.symm, fun _ => hdiff.trans hnet.2.symm⟩
    · exact .inl (h.sleeps_on hr hpres ha hj hja hja).1
  · obtain rfl : d = 0 := hnet.2.symm.trans hset.2
    refine ⟨hsound.quiet hround ?_, fun j hj => ?_⟩
    · exact h.unsent_of_asleep hr hpres (fun j hja => ⟨_, _, (hpart j _).mpr ⟨hja, rfl⟩⟩) hsome
    · by_cases hja : j ∈ awake
      · refine not_free_of_half ?_
        rw [(htick j hj hja).1]
        nofun
      · exact (h.sleeps_on hr hpres ha hj hja hja).2
  · obtain ⟨hja, hd⟩ | ⟨rfl, -, hq⟩ | ⟨-, -, -, -, t, hq⟩ := owed_after ha hd
    · exact absurd hd (h.not_owed hr hpres hja)
    · obtain rfl : d = 0 := Reply.diff.inj hq
      exact ⟨n.group.netSim_mem, by rw [hnet.1]; nofun, hnet.2⟩
    · cases hq

/-- The gather is not halfway through a turn, and the net sim takes no part in it. -/
theorem followed_allGather (hp : s.traffic.session.pending i = none) (hpres : Present n s i r awake) (hw : s.Working n)
    {time : ι → TIME} {times : ι → List TIME}
    (hpart : Pending.Participants (s.traffic.session.posted ⟨i, 0, r⟩) .allGatherNextTime (awake.erase n.group.netSim)
      time)
    (ha : Answered out (awake.erase n.group.netSim) fun i => .nextTimes (times i)) :
    Followed n (s.after n i r b out woken) := by
  have hnet : (s.after n i r b out woken).netSim = s.netSim := by
    rw [after_netSim ha, if_neg (Finset.notMem_erase _ _)]
  have htick (j : ι) (hj : j ∈ powerSims n.group) (hja : j ∈ awake) :
      half ((s.after n i r b out woken).ticks j) = none ∧ s.netSim.half = none := by
    have hjw : j ∈ awake.erase n.group.netSim := Finset.mem_erase.mpr ⟨(mem_powerSims.mp hj).1, hja⟩
    have hq := (hpart j _).mpr ⟨hjw, rfl⟩
    obtain ⟨_, _, _, hreq⟩ := h.request_of_posted hr hj hq
    have hx : half (s.ticks j) = none := half_of_request hreq nofun
    rw [after_ticks ha, if_pos hjw]
    exact ⟨half_nextTimes hx, (h.inStep hr hp hw hj hq nofun).half.symm.trans hx⟩
  have hjw {j : ι} (hja : j ∉ awake) : j ∉ awake.erase n.group.netSim := fun hm => hja (Finset.mem_of_mem_erase hm)
  have hdiff : ∀ e ∈ out, ∀ d, e.2 ≠ .diff d := fun e he d => by rw [ha.value e he]; nofun
  refine ⟨fun _ j hj => ?_, fun hset => ?_, fun j hd => ?_⟩
  · by_cases hja : j ∈ awake
    · obtain ⟨hhalf, hnone⟩ := htick j hj hja
      rw [hnet]
      exact .inr ⟨hhalf.trans hnone.symm, fun hne => absurd hnone hne⟩
    · exact .inl (h.sleeps_on hr hpres ha hj hja (hjw hja)).1
  · rw [hnet] at hset
    refine ⟨quiet_after (h.quiet hset).1 hdiff, fun j hj => ?_⟩
    by_cases hja : j ∈ awake
    · exact absurd (htick j hj hja).2 hset.1
    · exact (h.sleeps_on hr hpres ha hj hja (hjw hja)).2
  · obtain ⟨-, hd⟩ | ⟨-, -, hq⟩ | ⟨-, -, -, -, t, hq⟩ := owed_after ha hd
    · rw [hnet]
      exact h.owed j hd
    · cases hq
    · cases hq

/-- Everybody is woken, and nobody was halfway through a turn. -/
theorem followed_wake (hpres : Present n s i r awake) (hw : s.Working n) {sleepers : Finset ι}
    (hpart : Pending.Participants (s.traffic.session.posted ⟨i, 0, r⟩) (fun _ : Unit => .sleep) sleepers fun _ => ())
    (hone : awake = {n.group.netSim}) (ha : Answered out sleepers fun _ => .ack) :
    Followed n (s.after n i r b out woken) := by
  have hnot : n.group.netSim ∉ sleepers := by
    intro hm
    obtain ⟨_, _, _, hnreq⟩ := h.request_of_netSim hr ((hpart n.group.netSim ()).mpr ⟨hm, rfl⟩)
    exact (NetSim.not_asks hnreq).1 rfl
  have hnet : (s.after n i r b out woken).netSim = s.netSim := by rw [after_netSim ha, if_neg hnot]
  have hall (j : ι) (hj : j ∈ powerSims n.group) : j ∈ sleepers ∧
      ∃ sent recv delay, (s.ticks j).request sent recv delay = some (.sleep : Request ι) := by
    have hja : j ∉ awake := by
      rw [hone, Finset.mem_singleton]
      exact (mem_powerSims.mp hj).1
    have hq := hpres.asleep j (Traffic.mem_members.mpr (mem_powerSims.mp hj).2) hja
    exact ⟨((hpart j ()).mp hq).1, h.request_of_posted hr hj hq⟩
  have hdiff : ∀ e ∈ out, ∀ d, e.2 ≠ .diff d := fun e he d => by rw [ha.value e he]; nofun
  refine ⟨fun _ j hj => ?_, fun hset => ?_, fun j hd => ?_⟩
  · -- the last one to sleep was in step
    obtain ⟨k, hk, hkp⟩ := somebody_awake h.agrees h.counted ⟨j, hj⟩
    obtain ⟨-, _, _, _, hkreq⟩ := hall k hk
    have hnone : s.netSim.half = none := by
      rw [← ((h.together hw k hk).resolve_left hkp).half]
      exact half_of_request hkreq nofun
    obtain ⟨hjs, _, _, _, hreq⟩ := hall j hj
    rw [hnet, after_ticks ha, if_pos hjs]
    exact .inr ⟨(half_ack (half_of_request hreq nofun)).trans hnone.symm, fun hne => absurd hnone hne⟩
  · rw [hnet] at hset
    refine ⟨quiet_after (h.quiet hset).1 hdiff, fun j hj => ?_⟩
    obtain ⟨hjs, _, _, _, hreq⟩ := hall j hj
    rw [after_ticks ha, if_pos hjs]
    exact (not_free_of_sleep hreq).2 _
  · obtain ⟨-, hd⟩ | ⟨-, -, hq⟩ | ⟨-, -, -, -, t, hq⟩ := owed_after ha hd
    · rw [hnet]
      exact h.owed j hd
    · cases hq
    · cases hq

end Released

section Arrive

variable (h : Consistent n s) (hr : s.traffic.asked i = some r) (hp : s.traffic.session.pending i = none)
  (hb : s.traffic.session.broker.step i 0 r = .ok (b, out, pubs))

include h hr hp hb

/-- Nothing is let go, or one collective of all who are awake. -/
theorem released : out = [] ∨ ∃ awake, Present n s i r awake ∧ Release n.group.netSim awake
    (s.traffic.session.posted ⟨i, 0, r⟩) s.traffic.session.sentSum s.traffic.session.recvSum out := by
  obtain ⟨hw, c, hc, hag⟩ := h.agrees
  obtain ⟨c', -, -, hrel⟩ := Broker.step_handles hw hc hag (h.sound.reporting.collectivesOnly hr hp) hb
  exact hrel.imp_right fun hrel => ⟨_, h.present hr hp hag, hrel⟩

variable (woken) in
theorem sound_after : Sound n (s.after n i r b out woken).traffic :=
  h.sound.step (traffic_arrive hr hp hb) h.fits (fun _ _ he => by cases he) (fun _ he => by cases he)

theorem paced_after : Sleepers.Paced n.group (s.after n i r b out woken).system := by
  refine h.paced.send (f := ⟨i, 0, r⟩) ?_ (system_send (h.sound.reporting.collectivesOnly hr hp) hb)
  rintro j hj rfl
  obtain ⟨-, sent, recv, delay, hreq⟩ := h.asks i r hr
  exact ⟨sent, recv, delay, request_powerSim hj ▸ hreq⟩

variable (woken) in
theorem counted_after (hsize : 1 < n.group.size) :
    Broker.SessionCounted n.group.size (s.after n i r b out woken).traffic.session := by
  have hallow : Broker.membersOnly s.traffic.session ⟨i, 0, r⟩ = true := by
    have hc := h.sound.reporting.collectivesOnly hr hp
    simp only [Broker.collectivesOnly, Bool.and_eq_true] at hc
    obtain ⟨⟨⟨⟨⟨-, hidle⟩, hmem⟩, hcoll⟩, -⟩, -⟩ := hc
    cases r with
    | hello parent => cases hcoll
    | helloNetSim parent => cases hcoll
    | _ => simp [Broker.membersOnly, hidle, hmem, hcoll]
  exact (Broker.step_counts hsize (h.counted hsize) (Broker.Session.step_ok.mpr ⟨hallow, b, out, pubs, hb, rfl⟩)).1

/-- Somebody besides the net sim takes part in a round. -/
theorem somebody_reports (hpres : Present n s i r awake) {d : ℕ} (ha : Answered out awake fun _ => .diff d)
    (hne : (powerSims n.group).Nonempty) : ∃ k ∈ powerSims n.group, k ∈ awake := by
  have hsound := h.sound_after (fun _ => false) hr hp hb
  obtain ⟨k, hk, hkp⟩ := somebody_awake hsound.reporting.agrees (h.counted_after (fun _ => false) hr hp hb) hne
  refine ⟨k, hk, ?_⟩
  by_contra hka
  have hsleep : s.traffic.session.posted ⟨i, 0, r⟩ k = some .sleep :=
    hpres.asleep k (Traffic.mem_members.mpr (mem_powerSims.mp hk).2) hka
  exact hkp (Pending.answer_eq_some.mpr ⟨fun hm => hka (ha.mem_iff.mp hm), hsleep⟩)

variable (woken) in
/-- What was sent is reported, or still to be. -/
theorem sendCount_after (j : ι) :
    ((s.after n i r b out woken).traffic.counters j).sendCount ≤ (s.traffic.counters j).sendCount ∧
      ∀ d, System.replyTo out j = some (.diff d) → ((s.after n i r b out woken).traffic.counters j).sendCount = 0 := by
  have hroom := h.sound.room
  have hfits := h.fits
  obtain ⟨-, -, ⟨hne, hc⟩ | ⟨awake, d, ha, hround⟩⟩ := h.sound.reporting.after hfits (by omega) hr hp hb
  · have hc : (s.after n i r b out woken).traffic.counters = s.traffic.counters := hc
    refine ⟨by rw [hc], fun d hd => ?_⟩
    obtain ⟨e, he, hed⟩ := Option.map_eq_some_iff.mp hd
    exact absurd hed (hne e (List.mem_of_find?_eq_some he) d)
  · have hround : Traffic.Round n s.traffic (s.after n i r b out woken).traffic awake d := hround
    by_cases hja : j ∈ awake
    · exact ⟨(hround.reported j hja).le.trans (Nat.zero_le _), fun _ _ => hround.reported j hja⟩
    · refine ⟨(congrArg Counters.sendCount (hround.others j hja)).le, fun d hd => ?_⟩
      rw [System.replyTo_eq ha, if_neg hja] at hd
      cases hd

theorem reported_after (hj : j ∈ powerSims n.group) (hx : reduced ((s.after n i r b out woken).ticks j) = true) :
    ((s.after n i r b out woken).traffic.counters j).sendCount = 0 := by
  obtain ⟨hle, hzero⟩ := h.sendCount_after woken hr hp hb j
  have hx : reduced (s.system.resumed out woken j) = true := hx
  unfold Sleepers.State.resumed at hx
  split at hx
  · exact Nat.le_zero.mp (hle.trans (h.reported j hj hx).le)
  · next q hq =>
    obtain hx | ⟨d, rfl⟩ := reduced_resume hx
    · exact Nat.le_zero.mp (hle.trans (h.reported j hj hx).le)
    · exact hzero d hq

variable (woken) in
omit hp hb in
/-- A release moves simulators that have all come to no misuse. -/
theorem moves (hpres : Present n s i r awake) (hrel : Release n.group.netSim awake
      (s.traffic.session.posted ⟨i, 0, r⟩) s.traffic.session.sentSum s.traffic.session.recvSum out) :
    Sleepers.Moves n.group awake (s.traffic.session.posted ⟨i, 0, r⟩) woken s.ticks
      (s.after n i r b out woken).ticks ∧ s.Working n := by
  have hblocked := h.blocked hr
  have hasleep : ∀ k ∈ powerSims n.group, k ∉ awake → s.traffic.session.posted ⟨i, 0, r⟩ k = some .sleep :=
    fun k hk => hpres.asleep k (Traffic.mem_members.mpr (mem_powerSims.mp hk).2)
  have hm : Sleepers.Moves n.group awake (s.traffic.session.posted ⟨i, 0, r⟩) woken s.ticks
      (s.after n i r b out woken).ticks :=
    Sleepers.moves_of_release (s := s.system) hrel hblocked hpres.subset hasleep
  exact ⟨hm, fun k hk => hm.sound hblocked hasleep hk⟩

omit hp hb in
/-- Who was woken with everybody else is past every wait. -/
theorem not_dormant_of_woken (hw : s.Working n) (hw' : (s.after n i r b out woken).Working n)
    (hwake : ∀ k ∈ powerSims n.group, s.traffic.session.posted ⟨i, 0, r⟩ k = some .sleep ∧
      (s.after n i r b out woken).ticks k = (s.ticks k).resume (woken k) .ack) (hj : j ∈ powerSims n.group) :
    ¬ ((s.after n i r b out woken).ticks j).Dormant := by
  obtain ⟨hq, hx⟩ := hwake j hj
  obtain ⟨_, _, _, hreq⟩ := h.request_of_posted hr hj hq
  have hasleep : (s.ticks j).Dormant ∨ (s.ticks j).Waking := by
    cases h.paced.phase with
    | stuck k hk hf => exact absurd (hw k hk) hf
    | together D st hu => exact absurd hreq (hu j hj).not_sleep
    | sleepy hs =>
      obtain ⟨-, hs⟩ | ⟨hs, -⟩ := (hs j hj).of_request (w := false) hreq
      · exact hs
      · cases hs
    | lone k hk hl hrest =>
      by_cases hjk : j = k
      · subst hjk
        exact hl.of_sleep hreq
      · exact .inl (hrest j hj hjk)
  have hunfilled : ((s.after n i r b out woken).ticks j).Unfilled 0 .free := by
    have hsound := hw' j hj
    rw [hx] at hsound ⊢
    obtain hd | hwaking := hasleep
    · exact hd.wake
    · exact hwaking.wake.resolve_left (not_not.mpr hsound)
  intro hd
  have hasks : ((s.after n i r b out woken).ticks j).request 0 0 0 = some (.sleep : Request ι) := hd.request
  exact hunfilled.not_sleep hasks

theorem rested_after (hw' : (s.after n i r b out woken).Working n) : (s.after n i r b out woken).Rested n := by
  intro j hj hd
  have hle := (h.sendCount_after woken hr hp hb j).1
  have kept (hdj : (s.ticks j).Dormant) (hw : s.Working n)
      (hkept : ∀ k ∈ powerSims n.group, (s.ticks k).Dormant → (s.after n i r b out woken).ticks k = s.ticks k) :
      ((s.after n i r b out woken).traffic.counters j).sendCount = 0 ∨
        ∀ k ∈ powerSims n.group, k ≠ j → ((s.after n i r b out woken).ticks k).Dormant := by
    refine (h.rested hw j hj hdj).imp (fun hzero => Nat.le_zero.mp (hle.trans hzero.le)) fun hall k hk hkj => ?_
    rw [hkept k hk (hall k hk hkj)]
    exact hall k hk hkj
  obtain rfl | ⟨awake, hpres, hrel⟩ := h.released hr hp hb
  · have hticks : (s.after n i r b [] woken).ticks = s.ticks := rfl
    refine kept (hticks ▸ hd) (fun k hk => ?_) fun k _ _ => by rw [hticks]
    have hsound := hw' k hk
    rwa [hticks] at hsound
  have hblocked := h.blocked hr
  obtain ⟨hm, hw⟩ := h.moves (b := b) woken hr hpres hrel
  by_cases hwake : ∀ k ∈ powerSims n.group, s.traffic.session.posted ⟨i, 0, r⟩ k = some .sleep ∧
      (s.after n i r b out woken).ticks k = (s.ticks k).resume (woken k) .ack
  · exact absurd hd (h.not_dormant_of_woken hr hw hw' hwake hj)
  have resumes {reply : ι → Reply}
      (hres : Sleepers.Resumes n.group awake woken reply s.ticks (s.after n i r b out woken).ticks)
      (hack : j ∈ awake → reply j = .ack → s.traffic.session.posted ⟨i, 0, r⟩ j = some .barrier) :
      (s.ticks j).Dormant ∨ reduced (s.ticks j) = true := by
    rw [hres j hj] at hd
    split at hd
    · next hja =>
      obtain hsame | hred | ⟨⟨rest, l, hplace⟩, hq⟩ := dormant_resume hd
      · exact .inl (hsame ▸ hd)
      · exact .inr hred
      · -- in the loop over the table nobody asks for the barrier
        obtain ⟨_, _, _, hreq⟩ := h.request_of_posted hr hj (hack hja hq)
        have hbarrier : (s.ticks j).place = .timeStepStart ∨ ∃ l, (s.ticks j).place = .waiting l := place_of_request hreq
        obtain hx | ⟨l', hx⟩ := hbarrier
        · cases hplace.symm.trans hx
        · cases hplace.symm.trans hx
    · exact .inl hd
  have hbefore : (s.ticks j).Dormant ∨ reduced (s.ticks j) = true := by
    cases hm with
    | barrier hpb hres => exact resumes hres fun hja _ => hpb j hj hja
    | minTime t _ hres => exact resumes hres fun _ hq => by cases hq
    | sendRecv d _ hres => exact resumes hres fun _ hq => by cases hq
    | gather time times _ _ hres => exact resumes hres fun _ hq => by cases hq
    | still _ hres => exact .inl (hres j hj ▸ hd)
    | wake hpw hres => exact absurd (fun k hk => ⟨hpw k hk, hres k hk⟩) hwake
  obtain hdj | hred := hbefore
  · exact kept hdj hw fun k hk hdk => (hm.kept hblocked hk (.inl hdk)).resolve_right hwake
  · exact .inl (Nat.le_zero.mp (hle.trans (h.reported j hj hred).le))

variable (woken) in
theorem followed_after : Followed n (s.after n i r b out woken) := by
  obtain rfl | ⟨awake, hpres, hrel⟩ := h.released hr hp hb
  · refine ⟨fun hw' j hj => ?_, fun hset => ⟨quiet_after (h.quiet hset).1 nofun, (h.quiet hset).2⟩, h.owed⟩
    refine (h.together hw' j hj).imp_left fun hsleep => ?_
    have hji : j ≠ i := by
      rintro rfl
      cases hp.symm.trans hsleep
    have hposted : s.traffic.session.posted ⟨i, 0, r⟩ j = some .sleep := by
      simpa [Session.posted, Pending.post, hji] using hsleep
    exact Pending.answer_eq_some.mpr ⟨List.not_mem_nil, hposted⟩
  obtain ⟨-, hw⟩ := h.moves (b := b) woken hr hpres hrel
  cases hrel with
  | barrier hpart ha => exact h.followed_barrier hr hpres hpart ha
  | reduceMinTime time t hpart _ ha => exact h.followed_minTime hr hp hpres hw hpart ha
  | reduceMinTimeAction val time action hpart _ _ ha =>
    obtain ⟨_, _, _, hnreq⟩ := h.request_of_netSim hr ((hpart n.group.netSim _).mpr ⟨hpres.netSim, rfl⟩)
    exact absurd rfl ((NetSim.not_asks hnreq).2.1 _ _)
  | reduceSendRecv val d hpart _ _ _ ha =>
    have hroom := h.sound.room
    have hfits := h.fits
    obtain ⟨-, -, ⟨hne, -⟩ | ⟨awake', d', ha', hround⟩⟩ := h.sound.reporting.after hfits (by omega) hr hp hb
    · -- the net sim is answered with a difference
      obtain ⟨e, he, hei⟩ := List.mem_map.mp (ha.mem_iff.mpr hpres.netSim)
      exact absurd (ha.value e he) (hne e he d)
    · obtain rfl : awake' = awake := by rw [← ha.addressees, ha'.addressees]
      obtain ⟨e, he, hei⟩ := List.mem_map.mp (ha.mem_iff.mpr hpres.netSim)
      obtain rfl : d' = d := Reply.diff.inj ((ha'.value e he).symm.trans (ha.value e he))
      exact h.followed_sendRecv hr hpres hpart ha (h.sound_after woken hr hp hb) hround (h.somebody_reports hr hp hb hpres ha)
  | allGather time times hpart _ ha => exact h.followed_allGather hr hp hpres hw hpart ha
  | wake sleepers hpart hone ha => exact h.followed_wake hr hpres hw hpart hone ha

end Arrive

theorem arrive (h : Consistent n s) (hs : s.step n (.arrive i woken) = .ok s') : Consistent n s' := by
  obtain ⟨r, b, out, pubs, hr, hp, hb, rfl⟩ := arrive_ok hs
  have hfollowed := h.followed_after woken hr hp hb
  refine ⟨h.sound_after woken hr hp hb, h.fits, h.paced_after hr hp hb, h.counted_after woken hr hp hb, fun j q hq => ?_,
    fun j hj => h.reported_after hr hp hb hj, h.rested_after hr hp hb, hfollowed.together, hfollowed.quiet,
    hfollowed.owed⟩
  -- who still waits for an answer is where it was
  obtain ⟨hj, hq⟩ := Pending.answer_eq_some.mp hq
  obtain ⟨hdue, sent, recv, delay, hreq⟩ := h.asks j q hq
  have hnone := replyTo_of_notMem hj
  refine ⟨?_, sent, recv, delay, ?_⟩
  · simp only [after, hnone]
    exact hdue
  · unfold Exchange.request at hreq ⊢
    split at hreq
    · next hjn =>
      subst hjn
      simp only [after, hnone, if_true]
      exact hreq
    · next hjn =>
      rw [if_neg hjn]
      simp only [after, Sleepers.State.resumed, hnone]
      exact hreq

theorem step (h : Consistent n s) {e : Event ι} (hc : s.Admissible n e) (hs : s.step n e = .ok s') : Consistent n s' := by
  cases e with
  | timeStepStart i currentTime => exact h.timeStepStart hc hs
  | getNextTime i currentTime nextTime => exact h.getNextTime hc hs
  | send i m => exact h.send hc hs
  | settle i => exact h.settle hs
  | ask i delay => exact h.ask hs
  | arrive i woken => exact h.arrive hs
  | deliver k currentTime => exact h.deliver hs

end Consistent

/-- The invariant along a run in which no call sleeps twice before its first reduction. -/
theorem consistent_along (n : Network ι) (integrator : ι → Integrator) (fresh : ι → ℕ → TIME) {b : Broker ι}
    {es : List (Event ι)}
    (hstart : Trace.run Broker.advance (Broker.init n.group.size) (n.group.frames ++ n.objs.map Broker.registerFrame) =
      .ok b)
    (hg : Trace.Guarded (step n) (Admissible n) (start n integrator fresh b) es) :
    Trace.Always (step n) (Consistent n) (start n integrator fresh b) es :=
  Trace.always_of_guarded (fun _ _ _ h hc hs => h.step hc hs) (.start (Broker.registered_of_run hstart)) hg

/-- Under the sleeping algorithm the broker never stops at a report, and no count is lost by a reset, in every run in
which no call sleeps twice before its first reduction. -/
theorem messages_accounted (n : Network ι) (integrator : ι → Integrator) (fresh : ι → ℕ → TIME) {b : Broker ι}
    {es : List (Event ι)}
    (hstart : Trace.run Broker.advance (Broker.init n.group.size) (n.group.frames ++ n.objs.map Broker.registerFrame) =
      .ok b)
    (hg : Trace.Guarded (step n) (Admissible n) (start n integrator fresh b) es) :
    Trace.Always (step n) (Accounted n) (start n integrator fresh b) es :=
  (consistent_along n integrator fresh hstart hg).imp fun _ h => h.accounted

/-- Two simulators with an object each, and the net sim. -/
def twoObjects : Network ℕ where
  group := Sleepers.twoSims
  objs := [(1, "a"), (2, "b"), (0, "a"), (0, "b")]
  packetLostPeriod := fun _ => 100

/-- A request and its arrival. The second simulator's `sleep` returns `true`. -/
def goes (i : ℕ) : List (Event ℕ) := [.ask i Infinity, .arrive i fun i => i == 2]

/-- The simulators `is` and the net sim report, and take the minimum of the network delays. -/
def reports (is : List ℕ) : List (Event ℕ) := (is ++ [0]).flatMap goes ++ [.settle 0] ++ (is ++ [0]).flatMap goes

/-- The second simulator is asleep when the first one sends it a message. The first wakes it in its next call, the
message arrives, and both report. -/
def sentToSleeper : List (Event ℕ) :=
  List.flatten [[.getNextTime 1 0 5, .getNextTime 2 0 20, .getNextTime 0 0 0], reports [1, 2], [.settle 1, .settle 2],
    [1, 2, 0, 1, 2, 2].flatMap goes, [.send 1 ⟨"a", "b", 5, false⟩, .getNextTime 1 5 10, .getNextTime 0 5 5],
    reports [1], [1, 0].flatMap goes, [.getNextTime 1 6 12], goes 1, [.deliver 0 6, .getNextTime 0 6 6],
    reports [1, 2], [.settle 1, .settle 2], [1, 2, 0, 1, 2].flatMap goes]

theorem messages_accounted_sleeper : ∃ b s,
    Trace.run Broker.advance (Broker.init 3) (Sleepers.twoSims.frames ++ twoObjects.objs.map Broker.registerFrame) =
      .ok b ∧
    Trace.run (step twoObjects) (start twoObjects Sleepers.inNanoseconds (fun _ _ => 0) b) sentToSleeper = .ok s ∧
    s.traffic.session.sentSum = 1 ∧ s.traffic.session.recvSum = 1 ∧
    Trace.Always (step twoObjects) (Accounted twoObjects)
      (start twoObjects Sleepers.inNanoseconds (fun _ _ => 0) b) sentToSleeper := by
  obtain ⟨b, hb, hcheck⟩ := Trace.exists_run_of_check Broker.advance (Broker.init 3)
    (Sleepers.twoSims.frames ++ twoObjects.objs.map Broker.registerFrame)
    (fun b => Trace.endsIn (fun s => s.traffic.session.sentSum == 1 && s.traffic.session.recvSum == 1)
        (Trace.run (step twoObjects) (start twoObjects Sleepers.inNanoseconds (fun _ _ => 0) b) sentToSleeper) &&
      decide (Trace.Guarded (step twoObjects) (Admissible twoObjects)
        (start twoObjects Sleepers.inNanoseconds (fun _ _ => 0) b) sentToSleeper)) (by decide +kernel)
  rw [Bool.and_eq_true, decide_eq_true_eq] at hcheck
  obtain ⟨s, hs, hsum⟩ := Trace.exists_run_of_check (step twoObjects) _ sentToSleeper _ hcheck.1
  simp only [Bool.and_eq_true, beq_iff_eq] at hsum
  exact ⟨b, s, hb, hs, hsum.1, hsum.2, messages_accounted twoObjects Sleepers.inNanoseconds (fun _ _ => 0) hb hcheck.2⟩

/-! ## Reports and resets -/

/-- A request that reaches the broker neither stops it at a report nor leaves its received total above the sent one,
and `resetCounters` throws no count away. -/
def Harmless (n : Network ι) (s : Exchange ι) : Event ι → Prop
  | .arrive i woken => s.step n (.arrive i woken) ≠ .error (.stopped Broker.belowReceived) ∧
      ∀ s', s.step n (.arrive i woken) = .ok s' →
        ∀ c ∈ s'.traffic.session.broker.ctxs, c.reduceRecvTotal ≤ c.reduceSentTotal
  | .settle i => s.due i = some .resetCounters → s.traffic.counters i = ⟨0, 0⟩
  | _ => True

theorem Consistent.harmless (h : Consistent n s) (e : Event ι) : s.Harmless n e := by
  cases e with
  | arrive i woken => exact ⟨h.accounted.accepted i woken, fun s' hs => (h.arrive hs).accounted.totals⟩
  | settle i => exact h.accounted.reset i
  | _ => trivial

/-- Wherever a run leads in which no call sleeps twice before its first reduction, the next report and the next
reset are harmless. -/
theorem counts_kept (n : Network ι) (integrator : ι → Integrator) (fresh : ι → ℕ → TIME) {b : Broker ι}
    {es : List (Event ι)}
    (hstart : Trace.run Broker.advance (Broker.init n.group.size) (n.group.frames ++ n.objs.map Broker.registerFrame) =
      .ok b)
    (hg : Trace.Guarded (step n) (Admissible n) (start n integrator fresh b) es)
    (hr : Trace.run (step n) (start n integrator fresh b) es = .ok s) (e : Event ι) : s.Harmless n e :=
  ((consistent_along n integrator fresh hstart hg).last hr).harmless e

theorem counts_kept_sleeper : ∃ b s,
    Trace.run Broker.advance (Broker.init 3) (Sleepers.twoSims.frames ++ twoObjects.objs.map Broker.registerFrame) =
      .ok b ∧
    Trace.run (step twoObjects) (start twoObjects Sleepers.inNanoseconds (fun _ _ => 0) b) sentToSleeper = .ok s ∧
    ∀ e, s.Harmless twoObjects e := by
  obtain ⟨b, hb, hcheck⟩ := Trace.exists_run_of_check Broker.advance (Broker.init 3)
    (Sleepers.twoSims.frames ++ twoObjects.objs.map Broker.registerFrame)
    (fun b => Trace.endsIn (fun _ => true)
        (Trace.run (step twoObjects) (start twoObjects Sleepers.inNanoseconds (fun _ _ => 0) b) sentToSleeper) &&
      decide (Trace.Guarded (step twoObjects) (Admissible twoObjects)
        (start twoObjects Sleepers.inNanoseconds (fun _ _ => 0) b) sentToSleeper)) (by decide +kernel)
  rw [Bool.and_eq_true, decide_eq_true_eq] at hcheck
  obtain ⟨s, hs, -⟩ := Trace.exists_run_of_check (step twoObjects) _ sentToSleeper _ hcheck.1
  exact ⟨b, s, hb, hs, fun e => counts_kept twoObjects Sleepers.inNanoseconds (fun _ _ => 0) hb hcheck.2 hs e⟩

/-! Three simulators, of which the first sleeps twice in one call. The other two, which it wakes, go on without it,
so that its message is received while nobody has been told that it was sent. -/

def threeObjects : Network ℕ where
  group := Sleepers.threeSims
  objs := [(1, "a"), (2, "b"), (3, "c"), (0, "a"), (0, "b"), (0, "c")]
  packetLostPeriod := fun _ => 100

/-- The first simulator's second call finds both entries of its table passed. Its message reaches the second one
once that has copied its counters for the report. -/
def sentBetweenSleeps : List (Event ℕ) :=
  List.flatten [[.getNextTime 1 0 5, .getNextTime 2 0 20, .getNextTime 3 0 20, .getNextTime 0 0 5], reports [1, 2, 3],
    [.settle 1, .settle 2, .settle 3], [1, 2, 3, 0, 1, 2, 3, 2, 3].flatMap goes,
    [.send 1 ⟨"a", "b", 5, false⟩, .getNextTime 1 5 25], [1, 1].flatMap goes,
    [.ask 2 Infinity, .deliver 0 0, .arrive 2 fun _ => false, .getNextTime 0 5 10], [3, 0].flatMap goes, [.settle 0],
    [2, 3, 0].flatMap goes]

/-- The difference is 0, and the second simulator is about to throw its receipt away. -/
theorem not_accounted_of_two_sleeps : ∃ b s,
    Trace.run Broker.advance (Broker.init 4) (Sleepers.threeSims.frames ++ threeObjects.objs.map Broker.registerFrame) =
      .ok b ∧
    Trace.run (step threeObjects) (start threeObjects Sleepers.inNanoseconds (fun _ _ => 0) b) sentBetweenSleeps = .ok s ∧
    s.due 2 = some .resetCounters ∧ s.traffic.counters 2 = ⟨0, 1⟩ ∧ ¬ ∀ e, s.Harmless threeObjects e := by
  obtain ⟨b, hb, hcheck⟩ := Trace.exists_run_of_check Broker.advance (Broker.init 4)
    (Sleepers.threeSims.frames ++ threeObjects.objs.map Broker.registerFrame)
    (fun b => Trace.endsIn (fun s : Exchange ℕ => decide (s.due 2 = some .resetCounters ∧ s.traffic.counters 2 = ⟨0, 1⟩))
      (Trace.run (step threeObjects) (start threeObjects Sleepers.inNanoseconds (fun _ _ => 0) b) sentBetweenSleeps))
    (by decide +kernel)
  obtain ⟨s, hs, hlost⟩ := Trace.exists_run_of_check (step threeObjects) _ sentBetweenSleeps _ hcheck
  obtain ⟨hdue, hcount⟩ := of_decide_eq_true hlost
  refine ⟨b, s, hb, hs, hdue, hcount, fun h => ?_⟩
  have hzero := h (.settle 2) hdue
  rw [hcount] at hzero
  exact absurd hzero (by decide)

end Fncs.Exchange

/-
Agreement of the collectives in a context whose members may sleep.

Every table of the context holds exactly the unanswered requests of its kind
(`Agrees`), so a table is complete exactly when the awake members, all of
them, wait in it, and the reply is computed from what they asked with. A
SLEEP takes its sender out of the awake members and repeats the checks, of
which at most one can then release.
-/
import Fncs.Broker.Formation

namespace Fncs.Broker

open Pending

variable {ι : Type} [LinearOrder ι]

namespace Request

/-! ## What a table holds of a request -/

def asBarrier : Request ι → Option Unit
  | .barrier => some ()
  | _ => none

def asMinTime : Request ι → Option TIME
  | .reduceMinTime t => some t
  | _ => none

def asMinTimeAction : Request ι → Option AggregateType
  | .reduceMinTimeAction t a => some ⟨t, a⟩
  | _ => none

def asSent : Request ι → Option ℕ
  | .reduceSendRecv sent _ => some sent
  | _ => none

def asRecv : Request ι → Option ℕ
  | .reduceSendRecv _ recv => some recv
  | _ => none

def asNextTime : Request ι → Option TIME
  | .allGatherNextTime t => some t
  | _ => none

def asSleep : Request ι → Option Unit
  | .sleep => some ()
  | _ => none

section Kinds

omit [LinearOrder ι]

variable {r : Request ι} {k : ℕ} {t : TIME} {u : Unit}

theorem eq_of_asSent (h : r.asSent = some k) : ∃ recv, r = .reduceSendRecv k recv := by
  cases r <;> cases h
  exact ⟨_, rfl⟩

theorem eq_of_asRecv (h : r.asRecv = some k) : ∃ sent, r = .reduceSendRecv sent k := by
  cases r <;> cases h
  exact ⟨_, rfl⟩

theorem eq_of_asNextTime (h : r.asNextTime = some t) : r = .allGatherNextTime t := by
  cases r <;> cases h
  rfl

theorem eq_of_asSleep (h : r.asSleep = some u) : r = .sleep := by
  cases r <;> cases h
  rfl

end Kinds

/-- The numbers of a request are 64-bit. -/
def fits : Request ι → Bool
  | .reduceMinTime t => t ≤ Infinity
  | .reduceMinTimeAction t a => t ≤ Infinity && a ≤ Infinity
  | .reduceSendRecv sent recv => sent ≤ Infinity && recv ≤ Infinity
  | .allGatherNextTime t => t ≤ Infinity
  | _ => true

/-- Requests the net sim does not make. -/
def notOfNetSim : Request ι → Bool
  | .sleep | .allGatherNextTime _ => true
  | _ => false

end Request

/-- A request of a member without an unanswered one; the net sim neither sleeps nor gathers. -/
def collectivesOnly (netSim : ι) (s : Session ι) (f : Frame ι) : Bool :=
  decide (f.context = 0) && (s.pending f.identity).isNone && isMember s.broker 0 f.identity &&
    f.request.isCollective && f.request.fits && !(decide (f.identity = netSim) && f.request.notOfNetSim)

/-! ## Releases -/

/-- `out` releases one collective, whose participants are the awake members
(for the gather, those but the net sim; for SLEEP, the sleepers). `sent` and
`recv` are the sums of the rounds before. -/
inductive Release (netSim : ι) (awake : Finset ι) (p : ι → Option (Request ι)) (sent recv : ℕ)
    (out : Replies ι) : Prop
  | barrier (hp : Participants p (fun _ : Unit => .barrier) awake fun _ => ())
      (ha : Answered out awake fun _ => .ack)
  | reduceMinTime (time : ι → TIME) (min : TIME) (hp : Participants p .reduceMinTime awake time)
      (hmin : IsLeast (time '' awake) min) (ha : Answered out awake fun _ => .time min)
  | reduceMinTimeAction (val : ι → AggregateType) (time : TIME) (action : ℕ)
      (hp : Participants p (fun v => .reduceMinTimeAction v.time v.action) awake val)
      (htime : IsLeast ((fun i => (val i).time) '' awake) time)
      (haction : IsLeast ((fun i => (val i).action) '' awake) action)
      (ha : Answered out awake fun _ => .timeAction time action)
  | reduceSendRecv (val : ι → ℕ × ℕ) (d : ℕ)
      (hp : Participants p (fun v => .reduceSendRecv v.1 v.2) awake val)
      (hd : (d : ℤ) ≡ (sent + ∑ i ∈ awake, (val i).1 : ℕ) - (recv + ∑ i ∈ awake, (val i).2 : ℕ) [ZMOD ulongSize])
      (hlt : d < ulongSize)
      (hexact : sent + ∑ i ∈ awake, (val i).1 < ulongSize → recv + ∑ i ∈ awake, (val i).2 < ulongSize →
        d + (recv + ∑ i ∈ awake, (val i).2) = sent + ∑ i ∈ awake, (val i).1)
      (ha : Answered out awake fun _ => .diff d)
  | allGather (time : ι → TIME) (times : ι → List TIME)
      (hp : Participants p .allGatherNextTime (awake.erase netSim) time)
      (htimes : ∀ i ∈ awake.erase netSim,
        (times i : Multiset TIME) = ((awake.erase netSim).erase i).val.map time)
      (ha : Answered out (awake.erase netSim) fun i => .nextTimes (times i))
  | wake (sleepers : Finset ι) (hp : Participants p (fun _ : Unit => .sleep) sleepers fun _ => ())
      (hawake : awake = {netSim}) (ha : Answered out sleepers fun _ => .ack)

/-! ## The invariant -/

/-- The members of the group are the awake and the sleeping ones; the
collectives wait for the awake, the net sim among them. -/
structure Roster (g : HelloGroup ι) (c : Context ι) : Prop where
  valid : c.validContexts = true
  netSimID : c.netSimID = some g.netSim
  union : c.contexts.dom ∪ c.asleep.dom = g.members.toFinset
  disjoint : Disjoint c.contexts.dom c.asleep.dom
  worldSizes : c.worldSizes = c.contexts.size
  netSim_awake : g.netSim ∈ c.contexts.dom

/-- Each table holds exactly the unanswered requests of its kind. -/
structure Tables (p : ι → Option (Request ι)) (c : Context ι) : Prop where
  barrier : Holds c.barrier Request.asBarrier p
  reduceMinTime : Holds c.reduceMinTime Request.asMinTime p
  reduceMinTimeAction : Holds c.reduceMinTimeAction Request.asMinTimeAction p
  reduceSent : Holds c.reduceSent Request.asSent p
  reduceRecv : Holds c.reduceRecv Request.asRecv p
  allGather : Holds c.allGather Request.asNextTime p
  asleep : Holds c.asleep Request.asSleep p

/-- The unanswered requests are members', and as `collectivesOnly` allows them. -/
structure Proper (g : HelloGroup ι) (p : ι → Option (Request ι)) : Prop where
  members : ∀ i r, p i = some r → i ∈ g.members
  fits : ∀ i r, p i = some r → r.fits = true
  netSim : ∀ r, p g.netSim = some r → r.notOfNetSim = false

structure Agrees (g : HelloGroup ι) (p : ι → Option (Request ι)) (sent recv : ℕ) (c : Context ι) : Prop where
  roster : Roster g c
  tables : Tables p c
  proper : Proper g p
  sentTotal : c.reduceSentTotal = sent % ulongSize
  recvTotal : c.reduceRecvTotal = recv % ulongSize

theorem Agrees.formed (g : HelloGroup ι) : Agrees g (fun _ => none) 0 0 g.context where
  roster :=
    { valid := rfl
      netSimID := rfl
      union := by simp [HelloGroup.context, Context.number, Context.fresh]
      disjoint := by simp [HelloGroup.context, Context.number, Context.fresh]
      worldSizes := (HelloGroup.size_ofList g.nodup).symm
      netSim_awake := by simp [HelloGroup.context, Context.number, Context.fresh, g.netSim_mem] }
  tables := ⟨.empty, .empty, .empty, .empty, .empty, .empty, .empty⟩
  proper := ⟨nofun, nofun, nofun⟩
  sentTotal := rfl
  recvTotal := rfl

/-! ## Posting a request -/

/-- The entries once `i`'s request is in its table. -/
def Context.enter (c : Context ι) (i : ι) : Request ι → Context ι
  | .barrier => { c with barrier := c.barrier.add i }
  | .reduceMinTime t => { c with reduceMinTime := c.reduceMinTime.insert i t }
  | .reduceMinTimeAction t a => { c with reduceMinTimeAction := c.reduceMinTimeAction.insert i ⟨t, a⟩ }
  | .reduceSendRecv sent recv =>
    { c with reduceSent := c.reduceSent.insert i sent, reduceRecv := c.reduceRecv.insert i recv }
  | .allGatherNextTime t => { c with allGather := c.allGather.insert i t }
  | .sleep => c.putToSleep i
  | _ => c

section Post

variable {g : HelloGroup ι} {p : ι → Option (Request ι)} {sent recv : ℕ} {c : Context ι} {i : ι} {r : Request ι}

theorem Tables.enter (h : Tables p c) (hi : p i = none) (hr : r.isCollective = true) :
    Tables (post p i r) (c.enter i r) := by
  obtain ⟨h1, h2, h3, h4, h5, h6, h7⟩ := h
  cases r with
  | barrier =>
    exact ⟨h1.post rfl, h2.post_other hi rfl, h3.post_other hi rfl, h4.post_other hi rfl, h5.post_other hi rfl,
      h6.post_other hi rfl, h7.post_other hi rfl⟩
  | reduceMinTime t =>
    exact ⟨h1.post_other hi rfl, h2.post rfl, h3.post_other hi rfl, h4.post_other hi rfl, h5.post_other hi rfl,
      h6.post_other hi rfl, h7.post_other hi rfl⟩
  | reduceMinTimeAction t a =>
    exact ⟨h1.post_other hi rfl, h2.post_other hi rfl, h3.post rfl, h4.post_other hi rfl, h5.post_other hi rfl,
      h6.post_other hi rfl, h7.post_other hi rfl⟩
  | reduceSendRecv s r =>
    exact ⟨h1.post_other hi rfl, h2.post_other hi rfl, h3.post_other hi rfl, h4.post rfl, h5.post rfl,
      h6.post_other hi rfl, h7.post_other hi rfl⟩
  | allGatherNextTime t =>
    exact ⟨h1.post_other hi rfl, h2.post_other hi rfl, h3.post_other hi rfl, h4.post_other hi rfl,
      h5.post_other hi rfl, h6.post rfl, h7.post_other hi rfl⟩
  | sleep =>
    exact ⟨h1.post_other hi rfl, h2.post_other hi rfl, h3.post_other hi rfl, h4.post_other hi rfl,
      h5.post_other hi rfl, h6.post_other hi rfl, h7.post rfl⟩
  | _ => cases hr

/-! The tables once one collective has been answered: `who` are its participants. -/

theorem Tables.released_barrier {who : Finset ι} {l : List ι} (h : Tables p c)
    (hp : Participants p (fun _ : Unit => .barrier) who fun _ => ()) (hl : l.toFinset = who) :
    Tables (answer p l) { c with barrier := ∅ } := by
  obtain ⟨h1, h2, h3, h4, h5, h6, h7⟩ := h
  have other {α : Type} {m : OrdMap ι α} {sel : Request ι → Option α} (hm : Holds m sel p)
      (hs : sel .barrier = none) : Holds m sel (answer p l) := hm.answer_participants hp hl.subset fun _ => hs
  refine ⟨h1.answer fun i hi => ?_, other h2 rfl, other h3 rfl, other h4 rfl, other h5 rfl, other h6 rfl, other h7 rfl⟩
  obtain ⟨r, u, hr, hs⟩ := h1.mem_dom.mp hi
  cases r <;> cases hs
  exact List.mem_toFinset.mp (hl ▸ ((hp i ()).mp hr).1)

theorem Tables.released_minTime {who : Finset ι} {val : ι → TIME} {l : List ι} (h : Tables p c)
    (hp : Participants p .reduceMinTime who val) (hl : l.toFinset = who) :
    Tables (answer p l) { c with reduceMinTime := ∅ } := by
  obtain ⟨h1, h2, h3, h4, h5, h6, h7⟩ := h
  have other {α : Type} {m : OrdMap ι α} {sel : Request ι → Option α} (hm : Holds m sel p)
      (hs : ∀ t, sel (.reduceMinTime t) = none) : Holds m sel (answer p l) := hm.answer_participants hp hl.subset hs
  refine ⟨other h1 fun _ => rfl, h2.answer fun i hi => ?_, other h3 fun _ => rfl, other h4 fun _ => rfl,
    other h5 fun _ => rfl, other h6 fun _ => rfl, other h7 fun _ => rfl⟩
  obtain ⟨r, t, hr, hs⟩ := h2.mem_dom.mp hi
  cases r <;> cases hs
  exact List.mem_toFinset.mp (hl ▸ ((hp i t).mp hr).1)

theorem Tables.released_sendRecv {who : Finset ι} {val : ι → ℕ × ℕ} {l : List ι} (h : Tables p c)
    (hp : Participants p (fun v => .reduceSendRecv v.1 v.2) who val) (hl : l.toFinset = who) (S R : ℕ) :
    Tables (answer p l) { c with reduceSentTotal := S, reduceRecvTotal := R, reduceSent := ∅, reduceRecv := ∅ } := by
  obtain ⟨h1, h2, h3, h4, h5, h6, h7⟩ := h
  have other {α : Type} {m : OrdMap ι α} {sel : Request ι → Option α} (hm : Holds m sel p)
      (hs : ∀ s r, sel (.reduceSendRecv s r) = none) : Holds m sel (answer p l) :=
    hm.answer_participants hp hl.subset fun _ => hs _ _
  have hwho : ∀ {i s r}, p i = some (.reduceSendRecv s r) → i ∈ l := fun hr =>
    List.mem_toFinset.mp (hl ▸ ((hp _ (_, _)).mp hr).1)
  refine ⟨other h1 fun _ _ => rfl, other h2 fun _ _ => rfl, other h3 fun _ _ => rfl, h4.answer fun i hi => ?_,
    h5.answer fun i hi => ?_, other h6 fun _ _ => rfl, other h7 fun _ _ => rfl⟩
  · obtain ⟨r, n, hr, hs⟩ := h4.mem_dom.mp hi
    cases r <;> cases hs
    exact hwho hr
  · obtain ⟨r, n, hr, hs⟩ := h5.mem_dom.mp hi
    cases r <;> cases hs
    exact hwho hr

theorem Tables.released_gather {who : Finset ι} {val : ι → TIME} {l : List ι} (h : Tables p c)
    (hp : Participants p .allGatherNextTime who val) (hl : l.toFinset = who) :
    Tables (answer p l) { c with allGather := ∅ } := by
  obtain ⟨h1, h2, h3, h4, h5, h6, h7⟩ := h
  have other {α : Type} {m : OrdMap ι α} {sel : Request ι → Option α} (hm : Holds m sel p)
      (hs : ∀ t, sel (.allGatherNextTime t) = none) : Holds m sel (answer p l) :=
    hm.answer_participants hp hl.subset hs
  refine ⟨other h1 fun _ => rfl, other h2 fun _ => rfl, other h3 fun _ => rfl, other h4 fun _ => rfl,
    other h5 fun _ => rfl, h6.answer fun i hi => ?_, other h7 fun _ => rfl⟩
  obtain ⟨r, t, hr, hs⟩ := h6.mem_dom.mp hi
  cases r <;> cases hs
  exact List.mem_toFinset.mp (hl ▸ ((hp i t).mp hr).1)

theorem Tables.released_asleep {who : Finset ι} {l : List ι} (h : Tables p c)
    (hp : Participants p (fun _ : Unit => .sleep) who fun _ => ()) (hl : l.toFinset = who) (n : ℕ) :
    Tables (answer p l) (c.wakeAll n) := by
  obtain ⟨h1, h2, h3, h4, h5, h6, h7⟩ := h
  have other {α : Type} {m : OrdMap ι α} {sel : Request ι → Option α} (hm : Holds m sel p)
      (hs : sel .sleep = none) : Holds m sel (answer p l) := hm.answer_participants hp hl.subset fun _ => hs
  refine ⟨other h1 rfl, other h2 rfl, other h3 rfl, other h4 rfl, other h5 rfl, other h6 rfl, h7.answer fun i hi => ?_⟩
  obtain ⟨r, u, hr, hs⟩ := h7.mem_dom.mp hi
  cases r <;> cases hs
  exact List.mem_toFinset.mp (hl ▸ ((hp i ()).mp hr).1)

theorem Proper.post (h : Proper g p) (hm : i ∈ g.members) (hf : r.fits = true)
    (hn : i = g.netSim → r.notOfNetSim = false) : Proper g (post p i r) where
  members j q hq := by
    rcases post_eq_some.mp hq with ⟨rfl, -⟩ | ⟨-, hq⟩
    · exact hm
    · exact h.members j q hq
  fits j q hq := by
    rcases post_eq_some.mp hq with ⟨-, rfl⟩ | ⟨-, hq⟩
    · exact hf
    · exact h.fits j q hq
  netSim q hq := by
    rcases post_eq_some.mp hq with ⟨hi, rfl⟩ | ⟨-, hq⟩
    · exact hn hi.symm
    · exact h.netSim q hq

/-- A member without an unanswered request is awake. -/
theorem Agrees.awake (h : Agrees g p sent recv c) (hm : i ∈ g.members) (hi : p i = none) : i ∈ c.contexts.dom := by
  have hu := Finset.ext_iff.mp h.roster.union i
  simp only [Finset.mem_union, List.mem_toFinset, hm, iff_true] at hu
  rcases hu with hu | hu
  · exact hu
  · obtain ⟨r, _, hr, -⟩ := h.tables.asleep.mem_dom.mp hu
    rw [hi] at hr
    cases hr

theorem Roster.putToSleep (h : Roster g c) (hi : i ∈ c.contexts.dom) (hn : i ≠ g.netSim) :
    Roster g (c.putToSleep i) where
  valid := h.valid
  netSimID := h.netSimID
  union := by
    rw [← h.union]
    simp only [Context.putToSleep, OrdMap.dom_erase, OrdSet.dom_add]
    ext j
    by_cases hj : j = i
    · subst hj; simp [hi]
    · simp [hj]
  disjoint := by
    simp only [Context.putToSleep, OrdMap.dom_erase, OrdSet.dom_add, Finset.disjoint_insert_right]
    exact ⟨by simp, h.disjoint.mono_left (Finset.erase_subset _ _)⟩
  worldSizes := by
    show c.worldSizes - 1 = (c.contexts.erase i).size
    rw [OrdMap.size_erase_of_mem hi, h.worldSizes]
  netSim_awake := by
    simp only [Context.putToSleep, OrdMap.dom_erase, Finset.mem_erase]
    exact ⟨hn.symm, h.netSim_awake⟩

/-- The state a checker is run in. -/
theorem Agrees.enter (h : Agrees g p sent recv c) (hi : p i = none) (hm : i ∈ g.members)
    (hr : r.isCollective = true) (hf : r.fits = true) (hn : i = g.netSim → r.notOfNetSim = false) :
    Agrees g (post p i r) sent recv (c.enter i r) := by
  have hp := h.proper.post hm hf hn
  have ht := h.tables.enter hi hr
  have hro := h.roster
  cases r with
  | sleep =>
    have hne : i ≠ g.netSim := fun he => by cases hn he
    exact ⟨hro.putToSleep (h.awake hm hi) hne, ht, hp, h.sentTotal, h.recvTotal⟩
  | _ =>
    first
    | cases hr; done
    | exact ⟨⟨hro.valid, hro.netSimID, hro.union, hro.disjoint, hro.worldSizes, hro.netSim_awake⟩, ht, hp,
        h.sentTotal, h.recvTotal⟩

end Post

/-! ## Replies -/

section Replies

variable {α : Type} {m : OrdMap ι α} {p : ι → Option (Request ι)} {out : Replies ι}

omit [LinearOrder ι] in
/-- Only differences are counted. -/
theorem Session.round_of_ne (h : ∀ e ∈ out, ∀ d, e.2 ≠ .diff d) :
    Session.roundSent p out = 0 ∧ Session.roundRecv p out = 0 := by
  constructor <;>
  · refine List.sum_eq_zero fun n hn => ?_
    obtain ⟨⟨i, q⟩, he, rfl⟩ := List.mem_map.mp hn
    cases q with
    | diff d => exact absurd rfl (h _ he d)
    | _ => rfl

/-- A round counts what its participants reported. -/
theorem Session.round_answered {val : ι → ℕ × ℕ} {d : ℕ} {awake : Finset ι}
    (ha : Answered out awake fun _ => .diff d) (hp : Participants p (fun v => .reduceSendRecv v.1 v.2) awake val) :
    Session.roundSent p out = ∑ i ∈ awake, (val i).1 ∧ Session.roundRecv p out = ∑ i ∈ awake, (val i).2 := by
  have hv : ∀ e ∈ out, e.2 = .diff d ∧ p e.1 = some (.reduceSendRecv (val e.1).1 (val e.1).2) := fun e he =>
    ⟨ha.value e he, (hp e.1 (val e.1)).mpr ⟨ha.mem_iff.mp (List.mem_map_of_mem he), rfl⟩⟩
  rw [← ha.addressees, List.sum_toFinset _ ha.nodup, List.sum_toFinset _ ha.nodup, List.map_map, List.map_map,
    Session.roundSent, Session.roundRecv]
  constructor <;>
  · congr 1
    refine List.map_congr_left fun e he => ?_
    obtain ⟨h1, h2⟩ := hv e he
    simp [h1, h2]

end Replies

/-! ## Releasing a collective -/

section Release

variable {g : HelloGroup ι} {p : ι → Option (Request ι)} {sent recv : ℕ} {c c' : Context ι} {out : Replies ι}

/-- The entries that no check touches. -/
structure SameRoster (c c' : Context ι) : Prop where
  valid : c'.validContexts = c.validContexts
  netSimID : c'.netSimID = c.netSimID
  contexts : c'.contexts = c.contexts
  asleep : c'.asleep = c.asleep
  worldSizes : c'.worldSizes = c.worldSizes

theorem Roster.congr (h : Roster g c) (hc : SameRoster c c') : Roster g c' := by
  obtain ⟨h1, h2, h3, h4, h5⟩ := hc
  exact ⟨h1 ▸ h.valid, h2 ▸ h.netSimID, by rw [h3, h4]; exact h.union, by rw [h3, h4]; exact h.disjoint,
    by rw [h5, h3]; exact h.worldSizes, h3 ▸ h.netSim_awake⟩

/-- What a check does: nothing, or one release. -/
structure Checked (g : HelloGroup ι) (p : ι → Option (Request ι)) (sent recv : ℕ) (c c' : Context ι)
    (out : Replies ι) : Prop where
  agrees : Agrees g (Session.answered p out) (sent + Session.roundSent p out) (recv + Session.roundRecv p out) c'
  same : SameRoster c c'
  release : out = [] ∨ Release g.netSim c.contexts.dom p sent recv out

theorem Agrees.checked_nil (h : Agrees g p sent recv c) : Checked g p sent recv c c [] :=
  ⟨by simpa [Session.answered, Session.roundSent, Session.roundRecv] using h, ⟨rfl, rfl, rfl, rfl, rfl⟩, .inl rfl⟩

theorem Proper.answered (h : Proper g p) : Proper g (Session.answered p out) where
  members i r hr := h.members i r (answer_eq_some.mp hr).2
  fits i r hr := h.fits i r (answer_eq_some.mp hr).2
  netSim r hr := h.netSim r (answer_eq_some.mp hr).2

/-- A release that is not one of differences. -/
theorem Agrees.released (h : Agrees g p sent recv c) (hsame : SameRoster c c')
    (hsent : c'.reduceSentTotal = c.reduceSentTotal) (hrecv : c'.reduceRecvTotal = c.reduceRecvTotal)
    (ht : Tables (Session.answered p out) c') (hdiff : ∀ e ∈ out, ∀ d, e.2 ≠ .diff d)
    (hr : Release g.netSim c.contexts.dom p sent recv out) : Checked g p sent recv c c' out := by
  obtain ⟨hs0, hr0⟩ := Session.round_of_ne (p := p) hdiff
  refine ⟨⟨h.roster.congr hsame, ht, h.proper.answered, ?_, ?_⟩, hsame, .inr hr⟩
  · rw [hs0, hsent]; exact h.sentTotal
  · rw [hr0, hrecv]; exact h.recvTotal

/-- Who waits in a collective is awake. -/
theorem Agrees.dom_subset {α : Type} {m : OrdMap ι α} {sel : Request ι → Option α}
    (h : Agrees g p sent recv c) (hm : Holds m sel p) (hs : sel .sleep = none) : m.dom ⊆ c.contexts.dom := by
  intro i hi
  obtain ⟨r, a, hr, hsel⟩ := hm.mem_dom.mp hi
  have hu := Finset.ext_iff.mp h.roster.union i
  simp only [Finset.mem_union, List.mem_toFinset, h.proper.members i r hr, iff_true] at hu
  rcases hu with hu | hu
  · exact hu
  · obtain ⟨r', u, hr', hsl⟩ := h.tables.asleep.mem_dom.mp hu
    rw [hr, Option.some.injEq] at hr'
    subst hr'
    rw [Request.eq_of_asSleep hsl, hs] at hsel
    cases hsel

/-- A complete collective is waited in by all the awake. -/
theorem Agrees.dom_eq {α : Type} {m : OrdMap ι α} {sel : Request ι → Option α} (h : Agrees g p sent recv c)
    (hm : Holds m sel p) (hs : sel .sleep = none) (hsize : m.size = c.worldSizes) : m.dom = c.contexts.dom :=
  Finset.eq_of_subset_of_card_le (h.dom_subset hm hs) (by simp [hsize, h.roster.worldSizes])

theorem barrierChecker_checked (h : Agrees g p sent recv c) (hc : barrierChecker c = .ok (c', out)) :
    Checked g p sent recv c c' out := by
  rcases barrierChecker_ok hc with ⟨hx, -⟩ | ⟨hsize, -, hx⟩ <;>
    simp only [Prod.mk.injEq] at hx <;> obtain ⟨rfl, rfl⟩ := hx
  · exact h.checked_nil
  have hdom := h.dom_eq h.tables.barrier rfl hsize
  have hp : Participants p (fun _ : Unit => .barrier) c.contexts.dom fun _ => () :=
    h.tables.barrier.participants (fun r a => by cases r <;> simp [Request.asBarrier]) hdom
  have ha : Answered (replyAll c.barrier .ack) c.contexts.dom fun _ => .ack := hdom ▸ .replyAll
  exact h.released ⟨rfl, rfl, rfl, rfl, rfl⟩ rfl rfl (h.tables.released_barrier hp ha.addressees)
    (fun e he d => by rw [ha.value e he]; simp) (.barrier hp ha)

omit [LinearOrder ι] in
/-- A value of a table that no value is below is the least contribution. -/
theorem isLeast_of_lookup [LinearOrder ι] {α : Type} [Inhabited α] {m : OrdMap ι α} {s : Finset ι} (f : α → ℕ)
    {n : ℕ} (hs : m.dom = s) (hmem : ∃ i v, m.lookup i = some v ∧ f v = n)
    (hle : ∀ i v, m.lookup i = some v → n ≤ f v) :
    IsLeast ((fun i => f ((m.lookup i).getD default)) '' (s : Set ι)) n := by
  subst hs
  obtain ⟨i, v, hi, hv⟩ := hmem
  refine ⟨⟨i, OrdMap.mem_dom_of_lookup hi, by simp [hi, hv]⟩, ?_⟩
  rintro - ⟨j, hj, rfl⟩
  obtain ⟨w, hw⟩ := OrdMap.mem_dom.mp (Finset.mem_coe.mp hj)
  simpa [hw] using hle j w hw

theorem reduceMinTimeChecker_checked (h : Agrees g p sent recv c) (hc : reduceMinTimeChecker c = .ok (c', out)) :
    Checked g p sent recv c c' out := by
  rcases reduceMinTimeChecker_ok hc with ⟨hx, -⟩ | ⟨hsize, min, hmin, hx⟩ <;>
    simp only [Prod.mk.injEq] at hx <;> obtain ⟨rfl, rfl⟩ := hx
  · exact h.checked_nil
  have hdom := h.dom_eq h.tables.reduceMinTime rfl hsize
  have hp : Participants p Request.reduceMinTime c.contexts.dom _ :=
    h.tables.reduceMinTime.participants (fun r a => by cases r <;> simp [Request.asMinTime]) hdom
  have ha : Answered (replyAll c.reduceMinTime (.time min.2)) c.contexts.dom fun _ => .time min.2 :=
    hdom ▸ .replyAll
  obtain ⟨⟨i, hi⟩, hle⟩ := minElement_ok hmin
  have hleast := isLeast_of_lookup (fun t => t) hdom ⟨i, _, hi, rfl⟩ hle
  exact h.released ⟨rfl, rfl, rfl, rfl, rfl⟩ rfl rfl (h.tables.released_minTime hp ha.addressees)
    (fun e he d => by rw [ha.value e he]; simp) (.reduceMinTime _ _ hp hleast ha)

/-- The loop's two components are two loops. -/
theorem reduceMinTimeActionMins_eq (m : OrdMap ι AggregateType) :
    reduceMinTimeActionMins m =
      ⟨(m.vals.map AggregateType.time).foldl (fun a t => if decide (t < a) = true then t else a) Infinity,
        (m.vals.map AggregateType.action).foldl (fun a t => if decide (t < a) = true then t else a) Infinity⟩ := by
  have key : ∀ (l : List AggregateType) (a b : ℕ), l.foldl (fun mins v =>
      { time := if mins.time > v.time then v.time else mins.time
        action := if mins.action > v.action then v.action else mins.action }) (⟨a, b⟩ : AggregateType) =
      ⟨(l.map AggregateType.time).foldl (fun a t => if decide (t < a) = true then t else a) a,
        (l.map AggregateType.action).foldl (fun a t => if decide (t < a) = true then t else a) b⟩ := by
    intro l
    induction l with
    | nil => exact fun _ _ => rfl
    | cons v l ih => exact fun a b => by simp only [List.foldl_cons, List.map_cons, ih, gt_iff_lt, decide_eq_true_eq]
  exact key m.vals Infinity Infinity

/-- Started from `Infinity`, the loop finds the least value that fits. -/
theorem foldl_min_Infinity {m : OrdMap ι AggregateType} (f : AggregateType → ℕ) (hne : m.dom.Nonempty)
    (hfit : ∀ i v, m.lookup i = some v → f v ≤ Infinity) :
    let least := (m.vals.map f).foldl (fun a t => if decide (t < a) = true then t else a) Infinity
    (∃ i v, m.lookup i = some v ∧ f v = least) ∧ ∀ i v, m.lookup i = some v → least ≤ f v := by
  obtain ⟨n, hn, hmem, -, hle⟩ := foldl_min_spec (fun t : ℕ => t) (m.vals.map f) Infinity
  simp only [hn]
  have hlow : ∀ i v, m.lookup i = some v → n ≤ f v := fun i v hv =>
    hle _ (List.mem_map.mpr ⟨v, OrdMap.mem_vals.mpr ⟨i, hv⟩, rfl⟩)
  refine ⟨?_, hlow⟩
  rcases hmem with rfl | hmem
  · obtain ⟨i, hi⟩ := hne
    obtain ⟨v, hv⟩ := OrdMap.mem_dom.mp hi
    exact ⟨i, v, hv, le_antisymm (hfit i v hv) (hlow i v hv)⟩
  · obtain ⟨v, hv, rfl⟩ := List.mem_map.mp hmem
    obtain ⟨i, hi⟩ := OrdMap.mem_vals.mp hv
    exact ⟨i, v, hi, rfl⟩

instance : Inhabited AggregateType := ⟨⟨0, 0⟩⟩

theorem reduceMinTimeActionChecker_checked (h : Agrees g p sent recv c)
    (hc : reduceMinTimeActionChecker c = .ok (c', out)) : Checked g p sent recv c c' out := by
  rcases reduceMinTimeActionChecker_ok hc with ⟨hx, -⟩ | ⟨hsize, hx⟩ <;>
    simp only [Prod.mk.injEq] at hx <;> obtain ⟨rfl, rfl⟩ := hx
  · exact h.checked_nil
  obtain ⟨h1, h2, h3, h4, h5, h6, h7⟩ := h.tables
  have hdom := h.dom_eq h3 rfl hsize
  have hp : Participants p (fun v : AggregateType => Request.reduceMinTimeAction v.time v.action) c.contexts.dom _ :=
    h3.participants (fun r a => by cases r <;> simp [Request.asMinTimeAction, AggregateType.ext_iff, eq_comm]) hdom
  have hfits : ∀ i v, c.reduceMinTimeAction.lookup i = some v → v.time ≤ Infinity ∧ v.action ≤ Infinity := by
    intro i v hv
    have hpi := (hp i v).mpr ⟨hdom ▸ OrdMap.mem_dom_of_lookup hv, by simp [hv]⟩
    simpa [Request.fits] using h.proper.fits i _ hpi
  have hne : c.reduceMinTimeAction.dom.Nonempty := ⟨g.netSim, hdom ▸ h.roster.netSim_awake⟩
  obtain ⟨ht, htle⟩ := foldl_min_Infinity AggregateType.time hne fun i v hv => (hfits i v hv).1
  obtain ⟨hact, hactle⟩ := foldl_min_Infinity AggregateType.action hne fun i v hv => (hfits i v hv).2
  rw [reduceMinTimeActionMins_eq] at hc ⊢
  simp only
  generalize (c.reduceMinTimeAction.vals.map AggregateType.time).foldl _ Infinity = time at *
  generalize (c.reduceMinTimeAction.vals.map AggregateType.action).foldl _ Infinity = action at *
  have ha : Answered (replyAll c.contexts (.timeAction time action)) c.contexts.dom
    fun _ => .timeAction time action := .replyAll
  have other {α : Type} {m : OrdMap ι α} {sel : Request ι → Option α} (hm : Holds m sel p)
      (hs : ∀ t a, sel (.reduceMinTimeAction t a) = none) :
      Holds m sel (Session.answered p (replyAll c.contexts (.timeAction time action))) :=
    hm.answer_participants hp ha.addressees.subset fun _ => hs _ _
  refine h.released ⟨rfl, rfl, rfl, rfl, rfl⟩ rfl rfl ⟨other h1 fun _ _ => rfl, other h2 fun _ _ => rfl, h3.answer ?_,
    other h4 fun _ _ => rfl, other h5 fun _ _ => rfl, other h6 fun _ _ => rfl, other h7 fun _ _ => rfl⟩ ?_
    (.reduceMinTimeAction _ _ _ hp (isLeast_of_lookup _ hdom ht htle) (isLeast_of_lookup _ hdom hact hactle) ha)
  · intro i hi
    rw [replyAll_addressees]
    exact List.mem_toFinset.mp (by rw [OrdMap.toFinset_keys, ← hdom]; exact hi)
  · exact fun e he d => by rw [ha.value e he]; simp

/-- The broker's totals, and the difference it replies, up to the wrap of its counters. -/
theorem addTotal_sub {S R s r : ℕ} (hle : (R + r) % ulongSize ≤ (S + s) % ulongSize) :
    (((S + s) % ulongSize - (R + r) % ulongSize : ℕ) : ℤ) ≡ (S + s : ℕ) - (R + r : ℕ) [ZMOD ulongSize] := by
  rw [Nat.cast_sub hle]
  push_cast
  exact (Int.mod_modEq _ _).sub (Int.mod_modEq _ _)

/-- Who waits in the send/receive reduction, and with what. -/
theorem Tables.sendRecv_participants (h : Tables p c) :
    Participants p (fun v : ℕ × ℕ => Request.reduceSendRecv v.1 v.2) c.reduceSent.dom fun i =>
      ((c.reduceSent.lookup i).getD default, (c.reduceRecv.lookup i).getD default) := by
  intro i a
  rw [h.reduceSent.mem_dom]
  constructor
  · intro hi
    exact ⟨⟨_, _, hi, rfl⟩, by simp [h.reduceSent i, h.reduceRecv i, hi, Request.asSent, Request.asRecv]⟩
  · rintro ⟨⟨r, s, hr, hs⟩, rfl⟩
    obtain ⟨recv, rfl⟩ := Request.eq_of_asSent hs
    simp [h.reduceSent i, h.reduceRecv i, hr, Request.asSent, Request.asRecv]

theorem reduceSendRecvChecker_checked (h : Agrees g p sent recv c) (hc : reduceSendRecvChecker c = .ok (c', out)) :
    Checked g p sent recv c c' out := by
  rcases reduceSendRecvChecker_ok hc with ⟨hx, -⟩ | ⟨hsize, hle, hx⟩ <;>
    simp only [Prod.mk.injEq] at hx <;> obtain ⟨rfl, rfl⟩ := hx
  · exact h.checked_nil
  obtain ⟨h1, h2, h3, h4, h5, h6, h7⟩ := h.tables
  have hdom := h.dom_eq h4 rfl hsize
  let val : ι → ℕ × ℕ := fun i => ((c.reduceSent.lookup i).getD default, (c.reduceRecv.lookup i).getD default)
  have hp : Participants p (fun v : ℕ × ℕ => Request.reduceSendRecv v.1 v.2) c.contexts.dom val :=
    hdom ▸ h.tables.sendRecv_participants
  have hdomR : c.reduceRecv.dom = c.contexts.dom := by
    rw [← hdom]
    ext i
    rw [h4.mem_dom, h5.mem_dom]
    constructor
    · rintro ⟨r, k, hr, hs⟩
      obtain ⟨sent, rfl⟩ := Request.eq_of_asRecv hs
      exact ⟨_, sent, hr, rfl⟩
    · rintro ⟨r, k, hr, hs⟩
      obtain ⟨recv, rfl⟩ := Request.eq_of_asSent hs
      exact ⟨_, recv, hr, rfl⟩
  have hsum {m : OrdMap ι ℕ} (hm : m.dom = c.contexts.dom) :
      m.vals.sum = ∑ i ∈ c.contexts.dom, (m.lookup i).getD default := by
    have := OrdMap.sum_vals m fun n => n
    rw [List.map_id'] at this
    rw [this, hm]
    refine Finset.sum_congr rfl fun i _ => ?_
    cases m.lookup i <;> rfl
  have hS : addTotal c.reduceSentTotal c.reduceSent.vals = (sent + ∑ i ∈ c.contexts.dom, (val i).1) % ulongSize := by
    rw [addTotal, h.sentTotal, hsum hdom, ← Nat.add_mod]
  have hR : addTotal c.reduceRecvTotal c.reduceRecv.vals = (recv + ∑ i ∈ c.contexts.dom, (val i).2) % ulongSize := by
    rw [addTotal, h.recvTotal, hsum hdomR, ← Nat.add_mod]
  rw [hS, hR] at hle ⊢
  generalize hd : (sent + ∑ i ∈ c.contexts.dom, (val i).1) % ulongSize -
    (recv + ∑ i ∈ c.contexts.dom, (val i).2) % ulongSize = d
  have ha : Answered (replyAll c.reduceSent (.diff d)) c.contexts.dom fun _ => .diff d := hdom ▸ .replyAll
  obtain ⟨hs, hr⟩ := Session.round_answered ha hp
  refine ⟨⟨h.roster.congr ⟨rfl, rfl, rfl, rfl, rfl⟩, h.tables.released_sendRecv hp ha.addressees _ _,
    h.proper.answered, ?_, ?_⟩, ⟨rfl, rfl, rfl, rfl, rfl⟩, .inr (.reduceSendRecv val d hp ?_ ?_ ?_ ha)⟩
  · rw [hs]
  · rw [hr]
  · exact hd ▸ addTotal_sub hle
  · exact hd ▸ (Nat.sub_le _ _).trans_lt (Nat.mod_lt _ (by decide))
  · intro h1 h2
    rw [Nat.mod_eq_of_lt h1, Nat.mod_eq_of_lt h2] at hle hd
    omega

/-- The net sim is not in the gather. -/
theorem Agrees.gather_subset (h : Agrees g p sent recv c) :
    c.allGather.dom ⊆ c.contexts.dom.erase g.netSim := by
  intro i hi
  refine Finset.mem_erase.mpr ⟨?_, h.dom_subset h.tables.allGather rfl hi⟩
  rintro rfl
  obtain ⟨r, a, hr, hs⟩ := h.tables.allGather.mem_dom.mp hi
  have := h.proper.netSim r hr
  rw [Request.eq_of_asNextTime hs] at this
  cases this

/-- Everyone's list is the others' next times. -/
theorem gatheredTimes_eq {netSim : ι} {who : Finset ι} {time : ι → TIME} (hnet : c.netSimID = some netSim)
    (hdom : c.allGather.dom = who) (hn : netSim ∉ who) (hl : ∀ i ∈ c.allGather.dom, c.allGather.lookup i = some (time i))
    (i : ι) : (gatheredTimes c i : Multiset TIME) = (who.erase i).val.map time := by
  subst hdom
  have hkeep : ∀ k ∈ c.allGather.dom, (!(some k == c.netSimID) && !(i == k)) = true ↔ k ≠ i := by
    intro k hk
    have hkn : k ≠ netSim := fun he => hn (he ▸ hk)
    simp only [hnet, Bool.and_eq_true, Bool.not_eq_true', beq_eq_false_iff_ne, ne_eq, Option.some.injEq, hkn,
      not_false_eq_true, true_and]
    exact not_congr eq_comm
  have hwho : (c.allGather.dom.erase i).val = c.allGather.dom.val.filter fun k =>
      (!(some k == c.netSimID) && !(i == k)) = true := by
    rw [← Finset.filter_val]
    congr 1
    ext k
    simp only [Finset.mem_erase, Finset.mem_filter]
    exact ⟨fun ⟨hne, hk⟩ => ⟨hk, (hkeep k hk).mpr hne⟩, fun ⟨hk, hb⟩ => ⟨(hkeep k hk).mp hb, hk⟩⟩
  have hf : (c.allGather.entries.filter fun e => !(some e.1 == c.netSimID) && !(i == e.1) : Multiset (ι × TIME)) =
      (c.allGather.entries : Multiset (ι × TIME)).filter fun e => (!(some e.1 == c.netSimID) && !(i == e.1)) = true := by
    rw [Multiset.filter_coe]
    simp only [Bool.decide_coe]
  rw [gatheredTimes, ← Multiset.map_coe, hf, OrdMap.entries_eq_map hl, Multiset.filter_map, Multiset.map_map, hwho]
  rfl

theorem allGatherChecker_checked (h : Agrees g p sent recv c) (hc : allGatherChecker c = .ok (c', out)) :
    Checked g p sent recv c c' out := by
  rcases allGatherChecker_ok hc with ⟨hx, -⟩ | ⟨hsize, hx⟩ <;>
    simp only [Prod.mk.injEq] at hx <;> obtain ⟨rfl, rfl⟩ := hx
  · exact h.checked_nil
  have hdom : c.allGather.dom = c.contexts.dom.erase g.netSim :=
    Finset.eq_of_subset_of_card_le h.gather_subset
      (by rw [Finset.card_erase_of_mem h.roster.netSim_awake]; simp [hsize, h.roster.worldSizes])
  have hp : Participants p Request.allGatherNextTime (c.contexts.dom.erase g.netSim) _ :=
    h.tables.allGather.participants (fun r a => by cases r <;> simp [Request.asNextTime]) hdom
  have hl : ∀ i ∈ c.allGather.dom, c.allGather.lookup i = some ((c.allGather.lookup i).getD default) := by
    intro i hi
    obtain ⟨t, ht⟩ := OrdMap.mem_dom.mp hi
    simp [ht]
  have hto : (c.contexts.keys.filter fun i => !(some i == c.netSimID)).toFinset = c.contexts.dom.erase g.netSim := by
    ext i
    simp [h.roster.netSimID, OrdMap.mem_dom, and_comm]
  have ha : Answered ((c.contexts.keys.filter fun i => !(some i == c.netSimID)).map fun i =>
      (i, Reply.nextTimes (gatheredTimes c i))) (c.contexts.dom.erase g.netSim)
      fun i => .nextTimes (gatheredTimes c i) := by
    refine ⟨?_, ?_, ?_⟩
    · simpa [Function.comp_def] using c.contexts.nodup_keys.filter _
    · simpa [Function.comp_def] using hto
    · intro e he
      obtain ⟨i, -, rfl⟩ := List.mem_map.mp he
      rfl
  generalize hout : ((c.contexts.keys.filter fun i => !(some i == c.netSimID)).map fun i =>
    (i, Reply.nextTimes (gatheredTimes c i))) = out at ha
  exact h.released ⟨rfl, rfl, rfl, rfl, rfl⟩ rfl rfl (h.tables.released_gather hp ha.addressees)
    (fun e he d => by rw [ha.value e he]; simp)
    (.allGather _ _ hp (fun i _ => gatheredTimes_eq h.roster.netSimID hdom (by simp) hl i) ha)

/-! ## SLEEP -/

/-- A net sim that waits for nothing keeps every collective but the gather incomplete. -/
theorem Agrees.incomplete {α : Type} {m : OrdMap ι α} {sel : Request ι → Option α} (h : Agrees g p sent recv c)
    (hidle : p g.netSim = none) (hm : Holds m sel p) (hs : sel .sleep = none) : m.size ≠ c.worldSizes := by
  intro hsize
  have hn : g.netSim ∈ m.dom := h.dom_eq hm hs hsize ▸ h.roster.netSim_awake
  obtain ⟨r, -, hr, -⟩ := hm.mem_dom.mp hn
  rw [hidle] at hr
  cases hr

theorem Agrees.answered_netSim {α : Type} {m : OrdMap ι α} {sel : Request ι → Option α} {r : Reply}
    (h : Agrees g p sent recv c) (hm : Holds m sel p) (hs : sel .sleep = none) (hsize : m.size = c.worldSizes) :
    Session.answered p (replyAll m r) g.netSim = none := by
  have hn : g.netSim ∈ m.keys :=
    List.mem_toFinset.mp (show g.netSim ∈ m.dom from h.dom_eq hm hs hsize ▸ h.roster.netSim_awake)
  simp [Session.answered, answer, hn]

/-- After a release nobody awake waits, so the checks that follow change nothing. -/
theorem sleepRecheck_checked (h : Agrees g p sent recv c) (hc : sleepRecheck c = .ok (c', out)) :
    Checked g p sent recv c c' out := by
  rcases sleepRecheck_ok hc with ⟨-, hx⟩ | ⟨-, c₁, o₁, c₂, o₂, c₃, o₃, h₁, h₂, h₃, hx⟩ <;>
    simp only [Prod.mk.injEq] at hx <;> obtain ⟨rfl, rfl⟩ := hx
  · exact h.checked_nil
  have hb := barrierChecker_checked h h₁
  rcases barrierChecker_ok h₁ with ⟨hx, -⟩ | ⟨hsize₁, -, hx⟩
  · obtain ⟨rfl, rfl⟩ := Prod.mk.inj hx
    have hm := reduceMinTimeChecker_checked h h₂
    rcases reduceMinTimeChecker_ok h₂ with ⟨hx, -⟩ | ⟨hsize₂, _, -, hx⟩
    · obtain ⟨rfl, rfl⟩ := Prod.mk.inj hx
      exact reduceSendRecvChecker_checked h h₃
    · have hidle : Session.answered p o₂ g.netSim = none := by
        rw [(Prod.mk.inj hx).2]
        exact h.answered_netSim h.tables.reduceMinTime rfl hsize₂
      rcases reduceSendRecvChecker_ok h₃ with ⟨hx, -⟩ | ⟨hsize, -⟩
      · obtain ⟨rfl, rfl⟩ := Prod.mk.inj hx
        simpa using hm
      · exact absurd hsize (hm.agrees.incomplete hidle hm.agrees.tables.reduceSent rfl)
  · have hidle : Session.answered p o₁ g.netSim = none := by
      rw [(Prod.mk.inj hx).2]
      exact h.answered_netSim h.tables.barrier rfl hsize₁
    rcases reduceMinTimeChecker_ok h₂ with ⟨hx, -⟩ | ⟨hsize, -⟩
    · obtain ⟨rfl, rfl⟩ := Prod.mk.inj hx
      rcases reduceSendRecvChecker_ok h₃ with ⟨hx, -⟩ | ⟨hsize, -⟩
      · obtain ⟨rfl, rfl⟩ := Prod.mk.inj hx
        simpa using hb
      · exact absurd hsize (hb.agrees.incomplete hidle hb.agrees.tables.reduceSent rfl)
    · exact absurd hsize (hb.agrees.incomplete hidle hb.agrees.tables.reduceMinTime rfl)

/-- What a handled request leaves, and what it releases. -/
def Handles (g : HelloGroup ι) (p : ι → Option (Request ι)) (sent recv : ℕ) (awake : Finset ι) (c' : Context ι)
    (out : Replies ι) : Prop :=
  Agrees g (Session.answered p out) (sent + Session.roundSent p out) (recv + Session.roundRecv p out) c' ∧
    (out = [] ∨ Release g.netSim awake p sent recv out)

theorem Checked.handles (h : Checked g p sent recv c c' out) : Handles g p sent recv c.contexts.dom c' out :=
  ⟨h.agrees, h.release⟩

/-- When all but the net sim sleep, all wake. -/
theorem wakeAll_handles (h : Agrees g p sent recv c) (hw : c.worldSizes = 1) :
    Handles g p sent recv c.contexts.dom (c.wakeAll g.size) (replyAll c.asleep .ack) := by
  have hone : c.contexts.dom = {g.netSim} := by
    have hcard : c.contexts.dom.card = 1 := by rw [OrdMap.card_dom, ← h.roster.worldSizes, hw]
    obtain ⟨i, hi⟩ := Finset.card_eq_one.mp hcard
    have := h.roster.netSim_awake
    rw [hi, Finset.mem_singleton] at this
    rw [hi, this]
  have hp : Participants p (fun _ : Unit => .sleep) c.asleep.dom fun _ => () :=
    h.tables.asleep.participants (fun r a => by cases r <;> simp [Request.asSleep]) rfl
  have ha : Answered (replyAll c.asleep .ack) c.asleep.dom fun _ => .ack := .replyAll
  have hdiff : ∀ e ∈ replyAll c.asleep .ack, ∀ d, e.2 ≠ .diff d := fun e he d => by rw [ha.value e he]; simp
  obtain ⟨hs, hr⟩ := Session.round_of_ne (p := p) hdiff
  have hdom : (c.contexts.union c.asleep).dom = g.members.toFinset := by rw [OrdMap.dom_union, h.roster.union]
  refine ⟨⟨⟨h.roster.valid, h.roster.netSimID, ?_, ?_, ?_, ?_⟩, h.tables.released_asleep hp ha.addressees _,
    h.proper.answered, ?_, ?_⟩, .inr (.wake c.asleep.dom hp hone ha)⟩
  · simpa [Context.wakeAll] using h.roster.union
  · simp [Context.wakeAll]
  · show g.members.length = (c.contexts.union c.asleep).size
    rw [← OrdMap.card_dom, hdom, List.toFinset_card_of_nodup g.nodup]
  · show g.netSim ∈ (c.contexts.union c.asleep).dom
    rw [hdom]
    simp [g.netSim_mem]
  · rw [hs]; exact h.sentTotal
  · rw [hr]; exact h.recvTotal

theorem sleepHandler_handles {i : ι} (h : Agrees g p sent recv (c.putToSleep i))
    (hc : sleepHandler g.size c i = .ok (c', out)) :
    Handles g p sent recv (c.putToSleep i).contexts.dom c' out := by
  obtain ⟨-, c₁, o₁, hre, hwake⟩ := sleepHandler_ok hc
  have hch := sleepRecheck_checked h hre
  obtain ⟨-, ⟨-, hx⟩ | ⟨-, hw, hx⟩⟩ := sleepWakeAll_ok hwake <;> obtain ⟨rfl, rfl⟩ := Prod.mk.inj hx
  · exact hch.handles
  · -- one member awake: the checks were skipped
    rw [hch.same.worldSizes] at hw
    rcases sleepRecheck_ok hre with ⟨-, hx⟩ | ⟨hne, -⟩
    · obtain ⟨rfl, rfl⟩ := Prod.mk.inj hx
      exact wakeAll_handles h hw
    · exact absurd hw hne

end Release

/-! ## Runs -/

section Runs

variable {g : HelloGroup ι}

/-- One context, which agrees with what the members wait for. -/
def SessionAgrees (g : HelloGroup ι) (s : Session ι) : Prop :=
  s.broker.worldSize = g.size ∧ ∃ c, s.broker.ctxs = [c] ∧ Agrees g s.pending s.sentSum s.recvSum c

/-- The members awake when the checks of `f` are made. -/
def awakeFor (c : Context ι) (f : Frame ι) : Finset ι :=
  if f.request = .sleep then c.contexts.dom.erase f.identity else c.contexts.dom

theorem Agrees.awakeFor_subset {p : ι → Option (Request ι)} {sent recv : ℕ} {c : Context ι} {f : Frame ι}
    (h : Agrees g p sent recv c) : awakeFor c f ⊆ g.members.toFinset := by
  have hu : c.contexts.dom ⊆ g.members.toFinset := by
    rw [← h.roster.union]
    exact Finset.subset_union_left
  unfold awakeFor
  split
  · exact (Finset.erase_subset _ _).trans hu
  · exact hu

/-- The other members sleep, or ask to. -/
theorem Agrees.asleep_of_notMem {s : Session ι} {c : Context ι} {f : Frame ι} {j : ι}
    (h : Agrees g s.pending s.sentSum s.recvSum c) (hidle : s.pending f.identity = none)
    (hj : j ∈ g.members.toFinset) (hja : j ∉ awakeFor c f) : s.posted f j = some .sleep := by
  rw [← h.roster.union] at hj
  have hasleep (hc : j ∉ c.contexts.dom) : s.pending j = some .sleep := by
    obtain ⟨q, u, hq, hsl⟩ := h.tables.asleep.mem_dom.mp ((Finset.mem_union.mp hj).resolve_left hc)
    cases q <;> cases hsl
    exact hq
  by_cases hji : j = f.identity
  · subst hji
    unfold awakeFor at hja
    split at hja
    · next hf => simp [Session.posted, post, hf]
    · cases hidle.symm.trans (hasleep hja)
  · have hc : j ∉ c.contexts.dom := by
      unfold awakeFor at hja
      split at hja
      · simpa [hji] using hja
      · exact hja
    simpa [Session.posted, post, hji] using hasleep hc

theorem step_handles {s : Session ι} {c : Context ι} {f : Frame ι} {b' : Broker ι} {out : Replies ι}
    {pubs : List Publication} (hw : s.broker.worldSize = g.size) (hc : s.broker.ctxs = [c])
    (h : Agrees g s.pending s.sentSum s.recvSum c) (ha : collectivesOnly g.netSim s f = true)
    (hs : s.broker.step f.identity f.context f.request = .ok (b', out, pubs)) :
    ∃ c', b' = { s.broker with ctxs := [c'] } ∧
      Handles g (s.posted f) s.sentSum s.recvSum (awakeFor c f) c' out := by
  obtain ⟨i, k, r⟩ := f
  simp only [collectivesOnly, Bool.and_eq_true, decide_eq_true_eq, Option.isNone_iff_eq_none,
    Bool.not_eq_true', Bool.and_eq_false_iff, decide_eq_false_iff_not] at ha
  obtain ⟨⟨⟨⟨⟨rfl, hi⟩, hmem⟩, hr⟩, hf⟩, hn⟩ := ha
  have hm : i ∈ g.members := by
    rw [← List.mem_toFinset, ← h.roster.union]
    simpa [isMember, hc, OrdMap.contains_iff] using hmem
  have he := h.enter hi hm hr hf fun hin => hn.resolve_left fun hne => hne hin
  have hv := h.roster.valid
  -- a handler of the one context
  have key : ∀ {F : Context ι → Handled ι}, (∀ c' out, F c = .ok (c', out) →
      Handles g (s.posted ⟨i, 0, r⟩) s.sentSum s.recvSum (awakeFor c ⟨i, 0, r⟩) c' out) →
      s.broker.onContext 0 F = .ok (b', out, pubs) →
      ∃ c', b' = { s.broker with ctxs := [c'] } ∧
        Handles g (s.posted ⟨i, 0, r⟩) s.sentSum s.recvSum (awakeFor c ⟨i, 0, r⟩) c' out := by
    intro F hF hcx
    obtain ⟨c₀, c', out', hk, hfc, hx⟩ := onContext_ok.mp hcx
    simp only [Prod.mk.injEq] at hx
    obtain ⟨rfl, rfl, -⟩ := hx
    simp only [hc, List.getElem?_cons_zero, Option.some.injEq] at hk
    subst hk
    exact ⟨c', by simp [setContext, hc], hF c' _ hfc⟩
  unfold Broker.step at hs
  split at hs
  · cases hs
  cases r with
  | barrier => exact key (fun c' out hb => (barrierChecker_checked he (barrierHandler_ok hv hb).2).handles) hs
  | reduceMinTime t =>
    exact key (fun c' out hb => (reduceMinTimeChecker_checked he (reduceMinTimeHandler_ok hv hb).2).handles) hs
  | reduceMinTimeAction t a =>
    exact key (fun c' out hb =>
      (reduceMinTimeActionChecker_checked he (reduceMinTimeActionHandler_ok hv hb).2).handles) hs
  | reduceSendRecv sent recv =>
    exact key (fun c' out hb => (reduceSendRecvChecker_checked he (reduceSendRecvHandler_ok hv hb).2).handles) hs
  | allGatherNextTime t =>
    exact key (fun c' out hb => (allGatherChecker_checked he (allGatherHandler_ok hv hb).2.2).handles) hs
  | sleep =>
    refine key (fun c' out hb => ?_) hs
    have := sleepHandler_handles he (hw ▸ hb)
    simpa [awakeFor, Context.putToSleep, Session.posted] using this
  | _ => cases hr

theorem step_agrees {s s' : Session ι} {f : Frame ι} (h : SessionAgrees g s)
    (hs : Session.step (collectivesOnly g.netSim) s f = .ok s') : SessionAgrees g s' := by
  obtain ⟨ha, b', out, pubs, hb, rfl⟩ := Session.step_ok.mp hs
  obtain ⟨hw, c, hc, hag⟩ := h
  obtain ⟨c', rfl, hag', -⟩ := step_handles hw hc hag ha hb
  exact ⟨hw, c', rfl, hag'⟩

/-- The awake and the sleeping members are a partition of the group, the
collectives wait for the awake, and whatever request comes next releases
nothing or exactly one collective, with the value its participants' requests
determine. -/
def CollectivesAgree (g : HelloGroup ι) (s : Session ι) : Prop :=
  ∃ c, s.broker.ctxs = [c] ∧ Disjoint c.contexts.dom c.asleep.dom ∧
    c.contexts.dom ∪ c.asleep.dom = g.members.toFinset ∧ c.worldSizes = c.contexts.dom.card ∧
    ∀ f b' out pubs, collectivesOnly g.netSim s f = true →
      s.broker.step f.identity f.context f.request = .ok (b', out, pubs) →
      out = [] ∨ Release g.netSim (awakeFor c f) (s.posted f) s.sentSum s.recvSum out

/-- Agreement in every state that a run of the members' collectives and SLEEPs reaches. -/
theorem collectives_agree (g : HelloGroup ι) {b : Broker ι} {fs : List (Frame ι)} {s : Session ι}
    (hform : Trace.run advance (init g.size) g.frames = .ok b)
    (hrun : Trace.run (Session.step (collectivesOnly g.netSim)) (Session.start b) fs = .ok s) :
    CollectivesAgree g s := by
  rw [g.run_frames, Except.ok.injEq] at hform
  subst hform
  have hstart : SessionAgrees g (Session.start g.formed) := ⟨rfl, g.context, rfl, .formed g⟩
  obtain ⟨hw, c, hc, h⟩ :=
    Trace.run_invariant (I := SessionAgrees g) (fun _ _ _ h hs => step_agrees h hs) hstart hrun
  refine ⟨c, hc, h.roster.disjoint, h.roster.union, ?_, fun f b' out pubs ha hb => ?_⟩
  · rw [h.roster.worldSizes, OrdMap.card_dom]
  · obtain ⟨_, -, -, hrel⟩ := step_handles hw hc h ha hb
    exact hrel

/-- A round of the send/receive reduction, and one that a SLEEP completes. -/
def agreementFrames : List (Frame ℕ) :=
  [⟨0, 0, .reduceSendRecv 2 0⟩, ⟨1, 0, .reduceSendRecv 1 1⟩, ⟨2, 0, .reduceSendRecv 0 0⟩,
    ⟨3, 0, .reduceSendRecv 0 0⟩, ⟨0, 0, .reduceMinTime 5⟩, ⟨1, 0, .reduceMinTime 7⟩, ⟨3, 0, .reduceMinTime 9⟩,
    ⟨2, 0, .sleep⟩]

theorem collectives_agree_four :
    ∃ s, Trace.run (Session.step (collectivesOnly 3)) (Session.start fourMembers.formed) agreementFrames = .ok s ∧
      s.sentSum = 3 ∧ s.pending 0 = none ∧ CollectivesAgree fourMembers s := by
  obtain ⟨s, hs, hcheck⟩ := Trace.exists_run_of_check (Session.step (collectivesOnly 3))
    (Session.start fourMembers.formed) agreementFrames
    (fun s => s.sentSum == 3 && (s.pending 0).isNone && (s.pending 2).isSome) (by decide)
  simp only [Bool.and_eq_true, beq_iff_eq, Option.isNone_iff_eq_none] at hcheck
  exact ⟨s, hs, hcheck.1.1, hcheck.1.2, collectives_agree fourMembers fourMembers.run_frames hs⟩

end Runs

end Fncs.Broker

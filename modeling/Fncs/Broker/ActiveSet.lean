/-
The active-set reduction: rounds of REDUCE_MIN_TIME_SLEEP in which a member
that is not at the minimum is left without a reply until the minimum reaches
it or a message wakes everybody.

The broker keeps the latest time of every member, sleeping ones included. The
run below remembers, apart from the broker, who was left waiting when the last
round completed and what each member submitted last; `Tracks` ties the
broker's tables to these.
-/
import Fncs.Broker.Formation

namespace Fncs.Broker

open Pending

variable {ι : Type} [LinearOrder ι]

/-- A request of the active-set reduction. -/
structure Submission (ι : Type) where
  member : ι
  time : TIME
  hadMessage : Bool
  deriving DecidableEq, Repr

/-- The broker, what its members wait for, who was left waiting when the last
round completed, and the time each submitted last. -/
structure ActiveRun (ι : Type) [LinearOrder ι] where
  broker : Broker ι
  pending : ι → Option TimeBool
  left : Finset ι
  latest : ι → TIME

namespace ActiveRun

def start (b : Broker ι) : ActiveRun ι where
  broker := b
  pending := fun _ => none
  left := ∅
  latest := fun _ => 0

/-- A member submits only when it is not waiting for a reply. -/
def allowed (g : HelloGroup ι) (s : ActiveRun ι) (f : Submission ι) : Bool :=
  decide (f.member ∈ g.members) && (s.pending f.member).isNone

/-- The unanswered submissions once `f` has been sent. -/
def posted (s : ActiveRun ι) (f : Submission ι) : ι → Option TimeBool :=
  post s.pending f.member ⟨f.time, f.hadMessage⟩

/-- The latest times once `f` has been sent. -/
def latestWith (s : ActiveRun ι) (f : Submission ι) (i : ι) : TIME :=
  if i = f.member then f.time else s.latest i

/-- The broker's reaction to `f`. -/
def react (s : ActiveRun ι) (f : Submission ι) : Result ι :=
  s.broker.step f.member 0 (.reduceMinTimeSleep f.time f.hadMessage)

/-- A round completes when the broker replies; those still unanswered are left waiting. -/
def after (g : HelloGroup ι) (s : ActiveRun ι) (f : Submission ι) (b : Broker ι) (out : Replies ι) :
    ActiveRun ι where
  broker := b
  pending := answer (s.posted f) (out.map Prod.fst)
  left := if out = [] then s.left
    else g.members.toFinset.filter fun i => (answer (s.posted f) (out.map Prod.fst) i).isSome
  latest := s.latestWith f

def step (g : HelloGroup ι) (s : ActiveRun ι) (f : Submission ι) : Except Refusal (ActiveRun ι) :=
  if allowed g s f then
    match s.react f with
    | .error e => .error (.stopped e)
    | .ok (b, out, _) => .ok (s.after g f b out)
  else .error .notAllowed

theorem step_ok {g : HelloGroup ι} {s s' : ActiveRun ι} {f : Submission ι} :
    step g s f = .ok s' ↔ allowed g s f = true ∧ ∃ b out pubs,
      s.react f = .ok (b, out, pubs) ∧ s' = s.after g f b out := by
  unfold step
  split
  · next ha =>
    cases hb : s.react f with
    | error e => simp
    | ok x =>
      obtain ⟨b, out, pubs⟩ := x
      simp [ha, eq_comm]
  · next ha => simp [ha]

end ActiveRun

/-! ## The tables -/

/-- The tables of context `c`, tied to the members' submissions: the
collective waits for the members not left waiting, holds what these have
submitted since the last round, and remembers the latest time of the others. -/
structure Tracks (g : HelloGroup ι) (p : ι → Option TimeBool) (left : Finset ι) (latest : ι → TIME)
    (c : Context ι) : Prop where
  valid : c.validContexts = true
  netSimID : c.netSimID = some g.netSim
  contexts : c.contexts.dom = g.members.toFinset
  worldSizes : c.worldSizes = (g.members.toFinset \ left).card
  sleepingSim : c.sleepingSim = true ↔ c.worldSizes ≠ g.size
  netSim_awake : g.netSim ∉ left
  left_subset : left ⊆ g.members.toFinset
  left_waits : ∀ i ∈ left, p i ≠ none
  members : ∀ i tb, p i = some tb → i ∈ g.members
  incoming : ∀ i, c.reduceMinTimeSleepIncoming.lookup i = if i ∈ left then none else p i
  state : c.reduceMinTimeSleepState.dom = g.members.toFinset
  remembered : ∀ i ∈ left, c.reduceMinTimeSleepState.lookup i = some (latest i)
  latest : ∀ i tb, p i = some tb → latest i = tb.time

namespace Tracks

variable {g : HelloGroup ι} {p : ι → Option TimeBool} {left : Finset ι} {latest : ι → TIME} {c : Context ι}

theorem formed (g : HelloGroup ι) : Tracks g (fun _ => none) ∅ (fun _ => 0) g.context where
  valid := rfl
  netSimID := rfl
  contexts := by simp [HelloGroup.context, Context.number, Context.fresh]
  worldSizes := by
    rw [Finset.sdiff_empty, List.toFinset_card_of_nodup g.nodup]
    rfl
  sleepingSim := by simp [HelloGroup.context, Context.number, Context.fresh]
  netSim_awake := by simp
  left_subset := by simp
  left_waits := by simp
  members := nofun
  incoming := by simp [HelloGroup.context, Context.number, Context.fresh]
  state := by simp [HelloGroup.context, Context.number, Context.fresh]
  remembered := by simp
  latest := nofun

theorem card_members : g.members.toFinset.card = g.size := List.toFinset_card_of_nodup g.nodup

/-- Somebody sleeps when somebody was left waiting. -/
theorem sleeping_iff (h : Tracks g p left latest c) : c.sleepingSim = true ↔ left.Nonempty := by
  rw [h.sleepingSim, h.worldSizes, Finset.card_sdiff_of_subset h.left_subset, card_members,
    ← Finset.card_pos]
  have hle := Finset.card_le_card h.left_subset
  rw [card_members] at hle
  omega

/-- The submissions of the round are those of members not left waiting. -/
theorem incoming_dom (h : Tracks g p left latest c) {i : ι} :
    i ∈ c.reduceMinTimeSleepIncoming.dom ↔ i ∉ left ∧ p i ≠ none := by
  rw [OrdMap.mem_dom, h.incoming i]
  by_cases hi : i ∈ left
  · simp [hi]
  · simp [hi, Option.ne_none_iff_exists']

theorem incoming_subset (h : Tracks g p left latest c) :
    c.reduceMinTimeSleepIncoming.dom ⊆ g.members.toFinset \ left := by
  intro i hi
  obtain ⟨hl, hp⟩ := h.incoming_dom.mp hi
  obtain ⟨tb, htb⟩ := Option.ne_none_iff_exists'.mp hp
  simp [hl, h.members i tb htb]

/-- The table is as large as the collective waits for when all those members have submitted. -/
theorem complete_iff (h : Tracks g p left latest c) :
    c.reduceMinTimeSleepIncoming.size = c.worldSizes ↔ ∀ i ∈ g.members.toFinset \ left, p i ≠ none := by
  rw [h.worldSizes, ← OrdMap.card_dom]
  constructor
  · intro hcard i hi
    have heq := Finset.eq_of_subset_of_card_le h.incoming_subset hcard.ge
    exact (h.incoming_dom.mp (heq ▸ hi)).2
  · intro hall
    congr 1
    refine h.incoming_subset.antisymm fun i hi => h.incoming_dom.mpr ⟨?_, hall i hi⟩
    exact (Finset.mem_sdiff.mp hi).2

theorem size_le (h : Tracks g p left latest c) : c.reduceMinTimeSleepIncoming.size ≤ c.worldSizes := by
  rw [h.worldSizes, ← OrdMap.card_dom]
  exact Finset.card_le_card h.incoming_subset

/-- A submission enters the table. -/
theorem post (h : Tracks g p left latest c) {i : ι} (hm : i ∈ g.members) (hi : p i = none) (t : TIME) (m : Bool) :
    Tracks g (post p i ⟨t, m⟩) left (fun j => if j = i then t else latest j)
      { c with reduceMinTimeSleepIncoming := c.reduceMinTimeSleepIncoming.insert i ⟨t, m⟩ } := by
  have hil : i ∉ left := fun hl => h.left_waits i hl hi
  refine ⟨h.valid, h.netSimID, h.contexts, h.worldSizes, h.sleepingSim, h.netSim_awake, h.left_subset, ?_, ?_, ?_,
    h.state, ?_, ?_⟩
  · intro j hj
    have hji : j ≠ i := fun he => hil (he ▸ hj)
    simpa [Pending.post, hji] using h.left_waits j hj
  · intro j tb hj
    rcases post_eq_some.mp hj with ⟨rfl, -⟩ | ⟨-, hj⟩
    · exact hm
    · exact h.members j tb hj
  · intro j
    by_cases hji : j = i
    · subst hji
      simp [Pending.post, hil]
    · simp [Pending.post, hji, h.incoming j]
  · intro j hj
    have hji : j ≠ i := fun he => hil (he ▸ hj)
    simpa [hji] using h.remembered j hj
  · intro j tb hj
    rcases post_eq_some.mp hj with ⟨rfl, rfl⟩ | ⟨hji, hj⟩
    · simp
    · simpa [hji] using h.latest j tb hj

end Tracks

/-! ## A complete round -/

theorem foldl_timeBool (l : List TimeBool) (a : TimeBool) :
    let r := l.foldl (fun left right => ⟨min left.time right.time, left.hadMessage || right.hadMessage⟩) a
    (r.time = a.time ∨ ∃ v ∈ l, v.time = r.time) ∧ r.time ≤ a.time ∧ (∀ v ∈ l, r.time ≤ v.time) ∧
      (r.hadMessage = true ↔ a.hadMessage = true ∨ ∃ v ∈ l, v.hadMessage = true) := by
  induction l generalizing a with
  | nil => simp
  | cons b l ih =>
    obtain ⟨h1, h2, h3, h4⟩ := ih ⟨min a.time b.time, a.hadMessage || b.hadMessage⟩
    simp only [List.foldl_cons]
    refine ⟨?_, h2.trans (min_le_left _ _), ?_, ?_⟩
    · rcases h1 with h1 | ⟨v, hv, h1⟩
      · rcases min_choice a.time b.time with hm | hm
        · exact .inl (h1.trans hm)
        · exact .inr ⟨b, by simp, (h1.trans hm).symm⟩
      · exact .inr ⟨v, by simp [hv], h1⟩
    · intro v hv
      rcases List.mem_cons.mp hv with rfl | hv
      · exact h2.trans (min_le_right _ _)
      · exact h3 v hv
    · rw [h4]
      simp [or_assoc]

/-- The local reduction finds the least time, and whether anyone had a message. -/
theorem timeBoolAccumulate_spec {m : OrdMap ι TimeBool} (hne : m.dom.Nonempty) :
    ∃ tb, timeBoolAccumulate m = some tb ∧ (∃ i v, m.lookup i = some v ∧ v.time = tb.time) ∧
      (∀ i v, m.lookup i = some v → tb.time ≤ v.time) ∧
      (tb.hadMessage = true ↔ ∃ i v, m.lookup i = some v ∧ v.hadMessage = true) := by
  have hvals : m.vals ≠ [] := by
    obtain ⟨i, hi⟩ := hne
    obtain ⟨v, hv⟩ := OrdMap.mem_dom.mp hi
    exact List.ne_nil_of_mem (OrdMap.mem_vals.mpr ⟨i, hv⟩)
  obtain ⟨a, l, hl⟩ := List.exists_cons_of_ne_nil hvals
  obtain ⟨h1, h2, h3, h4⟩ := foldl_timeBool m.vals a
  have ha : a ∈ m.vals := by simp [hl]
  have hmem : ∀ v, v ∈ m.vals ↔ ∃ i, m.lookup i = some v := fun v => OrdMap.mem_vals
  refine ⟨_, by rw [timeBoolAccumulate, hl]; rfl, ?_, fun i v hv => ?_, ?_⟩
  · rw [← hl]
    rcases h1 with h1 | ⟨v, hv, h1⟩
    · obtain ⟨i, hi⟩ := (hmem a).mp ha
      exact ⟨i, a, hi, h1.symm⟩
    · obtain ⟨i, hi⟩ := (hmem v).mp hv
      exact ⟨i, v, hi, h1⟩
  · rw [← hl]
    exact h3 v ((hmem v).mpr ⟨i, hv⟩)
  · rw [← hl, h4]
    constructor
    · rintro (hm | ⟨v, hv, hm⟩)
      · obtain ⟨i, hi⟩ := (hmem a).mp ha
        exact ⟨i, a, hi, hm⟩
      · obtain ⟨i, hi⟩ := (hmem v).mp hv
        exact ⟨i, v, hi, hm⟩
    · rintro ⟨i, v, hv, hm⟩
      exact .inr ⟨v, (hmem v).mpr ⟨i, hv⟩, hm⟩

/-- What one submission brings about, in terms of the run: nothing while some
member not left waiting has yet to submit; else everybody is answered and awake in
the entries `c'`, if one of the round's submissions had a message while
somebody slept, or the minimum of the latest times goes to the net sim and the
members whose latest time it is. -/
structure RoundOutcome (g : HelloGroup ι) (p : ι → Option TimeBool) (left : Finset ι) (latest : ι → TIME)
    (c' : Context ι) (out : Replies ι) : Prop where
  incomplete : (∃ i ∈ g.members.toFinset \ left, p i = none) → out = []
  woken : (∀ i ∈ g.members.toFinset \ left, p i ≠ none) → left.Nonempty →
    (∃ i ∈ g.members.toFinset \ left, ∃ t, p i = some ⟨t, true⟩) →
    (∃ t, Answered out g.members.toFinset fun _ => .time t) ∧ c'.worldSizes = g.size ∧ c'.sleepingSim = false
  minimum : (∀ i ∈ g.members.toFinset \ left, p i ≠ none) →
    ¬ (left.Nonempty ∧ ∃ i ∈ g.members.toFinset \ left, ∃ t, p i = some ⟨t, true⟩) →
    ∃ t, IsLeast (latest '' g.members.toFinset) t ∧
      Answered out (g.members.toFinset.filter fun i => latest i = t ∨ i = g.netSim) fun _ => .time t

namespace Tracks

variable {g : HelloGroup ι} {p : ι → Option TimeBool} {left : Finset ι} {latest : ι → TIME} {c : Context ι}

/-- The latest submission of a member, a sleeper's message forgotten. -/
def contribution (p : ι → Option TimeBool) (left : Finset ι) (latest : ι → TIME) (i : ι) : TimeBool :=
  if i ∈ left then ⟨latest i, false⟩ else (p i).getD ⟨0, false⟩

/-- In a complete round the table, completed with the sleepers, holds every member's latest time. -/
theorem withSleepers_lookup (h : Tracks g p left latest c) (hall : ∀ i ∈ g.members.toFinset \ left, p i ≠ none)
    (i : ι) : (withSleepers c).lookup i =
      if i ∈ g.members.toFinset then some (contribution p left latest i) else none := by
  rw [withSleepers, OrdMap.lookup_union, OrdMap.lookup_map, h.incoming i]
  by_cases hl : i ∈ left
  · simp [hl, h.left_subset hl, h.remembered i hl, contribution]
  · by_cases hm : i ∈ g.members.toFinset
    · obtain ⟨tb, htb⟩ := Option.ne_none_iff_exists'.mp (hall i (Finset.mem_sdiff.mpr ⟨hm, hl⟩))
      simp [hl, hm, htb, contribution]
    · have hp : p i = none := by
        by_contra hne
        obtain ⟨tb, htb⟩ := Option.ne_none_iff_exists'.mp hne
        exact hm (List.mem_toFinset.mpr (h.members i tb htb))
      have hs : c.reduceMinTimeSleepState.lookup i = none := by rw [OrdMap.lookup_eq_none, h.state]; exact hm
      simp [hl, hm, hp, hs]

theorem contribution_time (h : Tracks g p left latest c) (hall : ∀ i ∈ g.members.toFinset \ left, p i ≠ none)
    {i : ι} (hm : i ∈ g.members.toFinset) : (contribution p left latest i).time = latest i := by
  unfold contribution
  split
  · rfl
  · next hl =>
    obtain ⟨tb, htb⟩ := Option.ne_none_iff_exists'.mp (hall i (Finset.mem_sdiff.mpr ⟨hm, hl⟩))
    simp [htb, h.latest i tb htb]

theorem contribution_hadMessage {i : ι} :
    (contribution p left latest i).hadMessage = true ↔ i ∉ left ∧ ∃ t, p i = some ⟨t, true⟩ := by
  unfold contribution
  split
  · next hl => simp [hl]
  · next hl =>
    cases p i with
    | none => simp
    | some tb =>
      obtain ⟨t, m⟩ := tb
      simp [hl]

theorem netSim_mem : g.netSim ∈ g.members.toFinset := List.mem_toFinset.mpr g.netSim_mem

/-- Everybody is answered, nobody sleeps. -/
theorem wakeAll (h : Tracks g p left latest c) (hs : left.Nonempty)
    (hmsg : ∃ i ∈ g.members.toFinset \ left, ∃ t, p i = some ⟨t, true⟩)
    (hall : ∀ i ∈ g.members.toFinset \ left, p i ≠ none) :
    ∃ c' out, reduceMinTimeSleepWakeAll g.size c = .ok (c', out) ∧ RoundOutcome g p left latest c' out ∧
      out ≠ [] ∧ Tracks g (answer p (out.map Prod.fst))
        (g.members.toFinset.filter fun i => (answer p (out.map Prod.fst) i).isSome) latest c' := by
  obtain ⟨e, he⟩ := minElement_isSome reduceMinPairLess (l := c.reduceMinTimeSleepState.entries) (by
    intro hnil
    have := h.state ▸ netSim_mem (g := g)
    obtain ⟨v, hv⟩ := OrdMap.mem_dom.mp this
    rw [OrdMap.lookup_eq_some, hnil] at hv
    cases hv)
  have ha : Answered (replyAll c.contexts (.time e.2)) g.members.toFinset fun _ => .time e.2 := h.contexts ▸ .replyAll
  have hnone : answer p ((replyAll c.contexts (.time e.2)).map Prod.fst) = fun _ => none := by
    funext i
    by_contra hne
    obtain ⟨tb, htb⟩ := Option.ne_none_iff_exists'.mp hne
    obtain ⟨hni, hi⟩ := answer_eq_some.mp htb
    exact hni (ha.mem_iff.mpr (List.mem_toFinset.mpr (h.members i tb hi)))
  refine ⟨_, _, by rw [reduceMinTimeSleepWakeAll, he], ⟨?_, fun _ _ _ => ⟨⟨_, ha⟩, rfl, rfl⟩, fun _ hn => absurd ⟨hs, hmsg⟩ hn⟩,
    ha.ne_nil netSim_mem, ?_⟩
  · rintro ⟨i, hi, hp⟩
    exact absurd hp (hall i hi)
  · have hnobody : (g.members.toFinset.filter fun i =>
        (answer p ((replyAll c.contexts (.time e.2)).map Prod.fst) i).isSome) = ∅ := by
      simp only [hnone]
      simp
    rw [hnobody, hnone]
    refine ⟨h.valid, h.netSimID, h.contexts, ?_, ?_, ?_, ?_, ?_, ?_, ?_, h.state, ?_, ?_⟩ <;> simp [card_members]

/-- Who is granted the minimum `t`. -/
theorem granted_dom (h : Tracks g p left latest c) (hall : ∀ i ∈ g.members.toFinset \ left, p i ≠ none) (t : TIME) :
    ((withSleepers c).filter fun i tb => tb.time == t || some i == c.netSimID).dom =
      g.members.toFinset.filter fun i => latest i = t ∨ i = g.netSim := by
  ext i
  rw [OrdMap.mem_dom, OrdMap.lookup_filter, h.withSleepers_lookup hall i, h.netSimID]
  by_cases hm : i ∈ g.members.toFinset
  · simp only [hm, if_true, Finset.mem_filter, true_and, ← h.contribution_time hall hm]
    simp [Option.filter_some]
  · simp [hm]

/-- In a complete round every member waits. -/
theorem waits (h : Tracks g p left latest c) (hall : ∀ i ∈ g.members.toFinset \ left, p i ≠ none) :
    ∀ i ∈ g.members.toFinset, p i ≠ none := by
  intro i hi
  by_cases hl : i ∈ left
  · exact h.left_waits i hl
  · exact hall i (Finset.mem_sdiff.mpr ⟨hi, hl⟩)

/-- Every member's latest time is remembered. -/
theorem memo_lookup (h : Tracks g p left latest c) (hall : ∀ i ∈ g.members.toFinset \ left, p i ≠ none) {i : ι}
    (hi : i ∈ g.members.toFinset) : ((withSleepers c).entries.foldl
      (fun s e => s.insert e.1 e.2.time) c.reduceMinTimeSleepState).lookup i = some (latest i) := by
  rw [OrdMap.lookup_foldl_insert, h.withSleepers_lookup hall i, if_pos hi]
  simp [h.contribution_time hall hi]

theorem memo_dom (h : Tracks g p left latest c) (hall : ∀ i ∈ g.members.toFinset \ left, p i ≠ none) :
    ((withSleepers c).entries.foldl (fun s e => s.insert e.1 e.2.time) c.reduceMinTimeSleepState).dom =
      g.members.toFinset := by
  ext i
  rw [OrdMap.mem_dom, OrdMap.lookup_foldl_insert, h.withSleepers_lookup hall i]
  by_cases hm : i ∈ g.members.toFinset
  · simp [hm]
  · have hs : c.reduceMinTimeSleepState.lookup i = none := by rw [OrdMap.lookup_eq_none, h.state]; exact hm
    simp [hm, hs]

/-- The members of `granted` are answered, the others sleep. -/
theorem advanced (h : Tracks g p left latest c) (hall : ∀ i ∈ g.members.toFinset \ left, p i ≠ none)
    {granted : OrdMap ι TimeBool} (hnet : g.netSim ∈ granted.dom) (hsub : granted.dom ⊆ g.members.toFinset)
    {out : Replies ι} {t : TIME} (ha : Answered out granted.dom fun _ => .time t) :
    Tracks g (answer p (out.map Prod.fst))
      (g.members.toFinset.filter fun i => (answer p (out.map Prod.fst) i).isSome) latest
      { c with
        worldSizes := granted.size
        sleepingSim := granted.size != g.size
        reduceMinTimeSleepState :=
          (withSleepers c).entries.foldl (fun s e => s.insert e.1 e.2.time) c.reduceMinTimeSleepState
        reduceMinTimeSleepIncoming := ∅ } := by
  have hleft : (g.members.toFinset.filter fun i => (answer p (out.map Prod.fst) i).isSome) =
      g.members.toFinset \ granted.dom := by
    ext i
    simp only [Finset.mem_filter, Finset.mem_sdiff]
    refine and_congr_right fun hi => ?_
    obtain ⟨tb, htb⟩ := Option.ne_none_iff_exists'.mp (h.waits hall i hi)
    simp only [answer, ha.mem_iff, htb]
    by_cases hd : i ∈ granted.dom <;> simp only [hd, if_true, if_false] <;> simp
  rw [hleft]
  refine ⟨h.valid, h.netSimID, h.contexts, ?_, ?_, ?_, Finset.sdiff_subset, ?_, ?_, ?_, h.memo_dom hall, ?_, ?_⟩
  · rw [sdiff_sdiff_right_self, Finset.inf_eq_inter, Finset.inter_eq_right.mpr hsub, OrdMap.card_dom]
  · simp
  · simp [hnet]
  · intro i hi
    have hni : i ∉ out.map Prod.fst := fun hin => (Finset.mem_sdiff.mp hi).2 (ha.mem_iff.mp hin)
    rw [answer, if_neg hni]
    exact h.waits hall i (Finset.mem_sdiff.mp hi).1
  · intro i tb hi
    exact h.members i tb (answer_eq_some.mp hi).2
  · intro i
    by_cases hd : i ∈ granted.dom
    · simp only [answer, ha.mem_iff, hd]
      simp
    · by_cases hm : i ∈ g.members
      · simp [hm, hd]
      · have hp : p i = none := by
          by_contra hne
          obtain ⟨tb, htb⟩ := Option.ne_none_iff_exists'.mp hne
          exact hm (h.members i tb htb)
        simp only [answer, ha.mem_iff, hd]
        simp [hm, hp]
  · intro i hi
    exact h.memo_lookup hall (Finset.mem_sdiff.mp hi).1
  · intro i tb hi
    exact h.latest i tb (answer_eq_some.mp hi).2

/-- The net sim and the members at the minimum are answered, the others sleep. -/
theorem advance (h : Tracks g p left latest c) (hall : ∀ i ∈ g.members.toFinset \ left, p i ≠ none) {t : TIME}
    (hleast : IsLeast (latest '' g.members.toFinset) t)
    (hquiet : ¬ (left.Nonempty ∧ ∃ i ∈ g.members.toFinset \ left, ∃ t, p i = some ⟨t, true⟩)) :
    ∃ c' out, reduceMinTimeSleepAdvance g.size c (withSleepers c) t = .ok (c', out) ∧
      RoundOutcome g p left latest c' out ∧
      out ≠ [] ∧ Tracks g (answer p (out.map Prod.fst))
        (g.members.toFinset.filter fun i => (answer p (out.map Prod.fst) i).isSome) latest c' := by
  have hgr := h.granted_dom hall t
  generalize hg : (withSleepers c).filter (fun i tb => tb.time == t || some i == c.netSimID) = granted at hgr
  have hnet : g.netSim ∈ granted.dom := by
    rw [hgr]
    exact Finset.mem_filter.mpr ⟨netSim_mem, .inr rfl⟩
  have hsub : granted.dom ⊆ g.members.toFinset := by
    rw [hgr]
    exact Finset.filter_subset _ _
  have hknown : (withSleepers c).keys.all c.reduceMinTimeSleepState.contains = true := by
    rw [List.all_eq_true]
    intro i hi
    rw [OrdMap.contains_iff, h.state]
    obtain ⟨v, hv⟩ := OrdMap.mem_keys.mp hi
    rw [h.withSleepers_lookup hall i] at hv
    split at hv
    · assumption
    · cases hv
  have hpos : granted.size ≠ 0 := by
    rw [← OrdMap.card_dom]
    exact (Finset.card_pos.mpr ⟨_, hnet⟩).ne'
  have hle : granted.size ≤ g.size := by
    rw [← OrdMap.card_dom, ← card_members]
    exact Finset.card_le_card hsub
  have ha : Answered (replyAll granted (.time t)) granted.dom fun _ => .time t := .replyAll
  have hadv : reduceMinTimeSleepAdvance g.size c (withSleepers c) t = .ok ({ c with
      worldSizes := granted.size
      sleepingSim := granted.size != g.size
      reduceMinTimeSleepState :=
        (withSleepers c).entries.foldl (fun s e => s.insert e.1 e.2.time) c.reduceMinTimeSleepState
      reduceMinTimeSleepIncoming := ∅ }, replyAll granted (.time t)) := by
    rw [reduceMinTimeSleepAdvance, hg]
    simp only [hknown, not_true_eq_false, if_false]
    rw [if_neg hpos, if_neg (not_lt.mpr hle)]
  refine ⟨_, _, hadv, ⟨?_, fun _ hs hm => absurd ⟨hs, hm⟩ hquiet, fun _ _ => ⟨t, hleast, hgr ▸ ha⟩⟩, ha.ne_nil hnet,
    h.advanced hall hnet hsub ha⟩
  rintro ⟨i, hi, hp⟩
  exact absurd hp (hall i hi)

/-- The check made when a submission has entered the table. -/
theorem checker (h : Tracks g p left latest c) :
    ∃ c' out, reduceMinTimeSleepChecker g.size c = .ok (c', out) ∧ RoundOutcome g p left latest c' out ∧
      Tracks g (answer p (out.map Prod.fst)) (if out = [] then left
        else g.members.toFinset.filter fun i => (answer p (out.map Prod.fst) i).isSome) latest c' := by
  by_cases hall : ∀ i ∈ g.members.toFinset \ left, p i ≠ none
  · have hlook := h.withSleepers_lookup hall
    obtain ⟨tb, htb, ⟨i, v, hv, hvt⟩, hle, hmsg⟩ :=
      timeBoolAccumulate_spec (m := withSleepers c) ⟨g.netSim, by simp [OrdMap.mem_dom, hlook, g.netSim_mem]⟩
    have hmem : ∀ {j w}, (withSleepers c).lookup j = some w → j ∈ g.members.toFinset ∧
        w = contribution p left latest j := by
      intro j w hw
      rw [hlook j] at hw
      split at hw
      · next hm => exact ⟨hm, (Option.some.inj hw).symm⟩
      · cases hw
    have hleast : IsLeast (latest '' g.members.toFinset) tb.time := by
      obtain ⟨hi, rfl⟩ := hmem hv
      refine ⟨⟨i, hi, by rw [← h.contribution_time hall hi, hvt]⟩, ?_⟩
      rintro - ⟨j, hj, rfl⟩
      rw [← h.contribution_time hall hj]
      exact hle j _ (by rw [hlook j]; exact if_pos hj)
    have hspoke : tb.hadMessage = true ↔ ∃ i ∈ g.members.toFinset \ left, ∃ t, p i = some ⟨t, true⟩ := by
      rw [hmsg]
      constructor
      · rintro ⟨j, w, hw, hj⟩
        obtain ⟨hm, rfl⟩ := hmem hw
        obtain ⟨hl, ht⟩ := contribution_hadMessage.mp hj
        exact ⟨j, Finset.mem_sdiff.mpr ⟨hm, hl⟩, ht⟩
      · rintro ⟨j, hj, ht⟩
        obtain ⟨hm, hl⟩ := Finset.mem_sdiff.mp hj
        exact ⟨j, _, by rw [hlook j]; exact if_pos hm, contribution_hadMessage.mpr ⟨hl, ht⟩⟩
    have hcheck : ∀ x, (if tb.hadMessage && c.sleepingSim then reduceMinTimeSleepWakeAll g.size c
        else reduceMinTimeSleepAdvance g.size c (withSleepers c) tb.time) = .ok x →
        reduceMinTimeSleepChecker g.size c = .ok x := by
      intro x hx
      refine checkSize_ok.mpr (.inr ⟨h.complete_iff.mpr hall, ?_⟩)
      simp only [htb]
      exact hx
    by_cases hwake : left.Nonempty ∧ ∃ i ∈ g.members.toFinset \ left, ∃ t, p i = some ⟨t, true⟩
    · obtain ⟨c', out, hok, hout, hne, ht⟩ := h.wakeAll hwake.1 hwake.2 hall
      refine ⟨c', out, hcheck _ ?_, hout, by rw [if_neg hne]; exact ht⟩
      rw [if_pos (by rw [hspoke.mpr hwake.2, h.sleeping_iff.mpr hwake.1]; rfl)]
      exact hok
    · obtain ⟨c', out, hok, hout, hne, ht⟩ := h.advance hall hleast hwake
      refine ⟨c', out, hcheck _ ?_, hout, by rw [if_neg hne]; exact ht⟩
      rw [if_neg (by rw [Bool.and_eq_true, hspoke, h.sleeping_iff]; exact fun hb => hwake hb.symm)]
      exact hok
  · have hlt : c.reduceMinTimeSleepIncoming.size < c.worldSizes :=
      lt_of_le_of_ne h.size_le fun heq => hall (h.complete_iff.mp heq)
    refine ⟨c, [], checkSize_ok.mpr (.inl ⟨hlt, rfl⟩), ⟨fun _ => rfl, fun hn => absurd hn hall,
      fun hn => absurd hn hall⟩, by simpa using h⟩

end Tracks

/-! ## Runs -/

section Runs

variable {g : HelloGroup ι}

/-- One context, which tracks the run. -/
def RunTracks (g : HelloGroup ι) (s : ActiveRun ι) : Prop :=
  s.broker.worldSize = g.size ∧ ∃ c, s.broker.ctxs = [c] ∧ Tracks g s.pending s.left s.latest c

theorem react_tracks {s : ActiveRun ι} {f : Submission ι} (h : RunTracks g s) (ha : s.allowed g f = true) :
    ∃ c' out, s.react f = .ok ({ s.broker with ctxs := [c'] }, out, []) ∧
      RoundOutcome g (s.posted f) s.left (s.latestWith f) c' out ∧
      RunTracks g (s.after g f { s.broker with ctxs := [c'] } out) := by
  obtain ⟨hw, c, hc, ht⟩ := h
  simp only [ActiveRun.allowed, Bool.and_eq_true, decide_eq_true_eq, Option.isNone_iff_eq_none] at ha
  have hp := ht.post ha.1 ha.2 f.time f.hadMessage
  obtain ⟨c', out, hok, hout, ht'⟩ := hp.checker
  have hni : f.member ∉ c.reduceMinTimeSleepIncoming.dom := fun hin => (ht.incoming_dom.mp hin).2 ha.2
  have hreact : s.react f = .ok ({ s.broker with ctxs := [c'] }, out, []) := by
    have hh : reduceMinTimeSleepHandler s.broker.worldSize c f.member f.time f.hadMessage = .ok (c', out) := by
      refine joinCollective_ok.mpr ⟨OrdMap.not_contains_iff.mpr hni, .inr ⟨ht.valid, ?_⟩⟩
      rw [hw]
      exact hok
    have hstep : s.react f = s.broker.onContext 0
        (reduceMinTimeSleepHandler s.broker.worldSize · f.member f.time f.hadMessage) := by
      unfold ActiveRun.react Broker.step
      rw [if_neg (by simp [hc])]
      rfl
    rw [hstep, onContext_of_ok (c := c) (by simp [hc]) hh]
    simp [setContext, hc]
  exact ⟨c', out, hreact, hout, hw, c', rfl, ht'⟩

/-- The collective waits for the members not left waiting by an earlier round,
the net sim among them; somebody sleeps when that is not everybody; and
whatever submission comes next is handled, and completes a round exactly as
`RoundOutcome` says. -/
def ActiveSetCorrect (g : HelloGroup ι) (s : ActiveRun ι) : Prop :=
  ∃ c, s.broker.ctxs = [c] ∧ c.worldSizes = (g.members.toFinset \ s.left).card ∧
    g.netSim ∈ g.members.toFinset \ s.left ∧ (c.sleepingSim = true ↔ c.worldSizes ≠ g.size) ∧
    ∀ f, s.allowed g f = true → ∃ c' out, s.react f = .ok ({ s.broker with ctxs := [c'] }, out, []) ∧
      RoundOutcome g (s.posted f) s.left (s.latestWith f) c' out

/-- The active-set reduction works in every state its runs reach. -/
theorem active_set_correct (g : HelloGroup ι) {b : Broker ι} {fs : List (Submission ι)} {s : ActiveRun ι}
    (hform : Trace.run advance (init g.size) g.frames = .ok b)
    (hrun : Trace.run (ActiveRun.step g) (ActiveRun.start b) fs = .ok s) : ActiveSetCorrect g s := by
  rw [g.run_frames, Except.ok.injEq] at hform
  subst hform
  have hstart : RunTracks g (ActiveRun.start g.formed) := ⟨rfl, g.context, rfl, .formed g⟩
  have h : RunTracks g s := by
    refine Trace.run_invariant (I := RunTracks g) (fun s f s' hs hstep => ?_) hstart hrun
    obtain ⟨ha, b', out, pubs, hb, rfl⟩ := ActiveRun.step_ok.mp hstep
    obtain ⟨b₂, out₂, hb₂, -, ht⟩ := react_tracks hs ha
    rw [hb, Except.ok.injEq] at hb₂
    simp only [Prod.mk.injEq] at hb₂
    obtain ⟨rfl, rfl, -⟩ := hb₂
    exact ht
  obtain ⟨-, c, hc, ht⟩ := id h
  refine ⟨c, hc, ht.worldSizes, ?_, ht.sleepingSim, fun f ha => ?_⟩
  · exact Finset.mem_sdiff.mpr ⟨Tracks.netSim_mem, ht.netSim_awake⟩
  · obtain ⟨c', out, hb, hout, -⟩ := react_tracks h ha
    exact ⟨c', out, hb, hout⟩

/-- A round that leaves simulator 2 waiting, and one in which a message wakes it. -/
def activeSetSubmissions : List (Submission ℕ) :=
  [⟨0, 5, false⟩, ⟨1, 5, false⟩, ⟨2, 9, false⟩, ⟨3, 20, false⟩, ⟨0, 6, true⟩, ⟨3, 20, false⟩, ⟨1, 7, false⟩]

theorem active_set_correct_four :
    ∃ s, Trace.run (ActiveRun.step fourMembers) (ActiveRun.start fourMembers.formed) activeSetSubmissions = .ok s ∧
      s.pending 2 = none ∧ ActiveSetCorrect fourMembers s := by
  obtain ⟨s, hs, hcheck⟩ := Trace.exists_run_of_check (ActiveRun.step fourMembers)
    (ActiveRun.start fourMembers.formed) activeSetSubmissions (fun s => (s.pending 2).isNone) (by decide)
  exact ⟨s, hs, Option.isNone_iff_eq_none.mp hcheck, active_set_correct fourMembers fourMembers.run_frames hs⟩

end Runs

end Fncs.Broker

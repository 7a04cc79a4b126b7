/-
The message difference of the two network back ends. Over ZMQ the broker adds
what the simulators report to totals it keeps (`reduce_send_recv_checker`);
over MPI the difference is that of one round's sums
(`MpiNetworkInterface::reduceTotalSendReceive`). A simulator reports what it
has counted since the previous round (`AbsCommManager::reduceTotalSendReceive`).
-/
import Fncs.Broker.Collect

namespace Fncs.Broker

open Pending

variable {ι : Type} [LinearOrder ι]

/-- One round: what each simulator reports as sent and received, and the order in which the requests
reach the broker. -/
structure ReduceRound (ι : Type) where
  order : List ι
  contribution : ι → ℕ × ℕ

namespace ReduceRound

/-- What the round reports as sent. -/
def sent (r : ReduceRound ι) : ℕ := (r.order.map fun i => (r.contribution i).1).sum

/-- What the round reports as received. -/
def received (r : ReduceRound ι) : ℕ := (r.order.map fun i => (r.contribution i).2).sum

/-- The request `ZmqNetworkInterface::reduceTotalSendReceive` sends. -/
def request (r : ReduceRound ι) (i : ι) : Request ι :=
  .reduceSendRecv (r.contribution i).1 (r.contribution i).2

def frames (r : ReduceRound ι) : List (Frame ι) := r.order.map fun i => ⟨i, 0, r.request i⟩

end ReduceRound

/-- `MpiNetworkInterface::reduceTotalSendReceive`, given the sums `MPI_Allreduce` returns. -/
def mpiReduceTotalSendReceive (sent received : ℕ) : Except Stop ℕ :=
  if received ≤ sent then .ok (sent - received) else .error .assertion

/-- In every round both back ends return the same difference to every simulator of the group. -/
def SameDifferences (g : HelloGroup ι) : Broker ι → List (ReduceRound ι) → Prop
  | _, [] => True
  | b, r :: rs => ∃ b' out d, handleAll b r.frames = .ok (b', out) ∧
      mpiReduceTotalSendReceive r.sent r.received = .ok d ∧
      Answered out g.members.toFinset (fun _ => .diff d) ∧ SameDifferences g b' rs

/-- Every round but the last reports as many messages received as sent. -/
def Settled (rounds : List (ReduceRound ι)) : Prop := ∀ r ∈ rounds.dropLast, r.received = r.sent

/-- The rounds report on their members, never more received than sent so far, and the counts fit. -/
structure Reported (g : HelloGroup ι) (rounds : List (ReduceRound ι)) : Prop where
  members : ∀ r ∈ rounds, r.order.Perm g.members
  causal : ∀ rs, rs <+: rounds → (rs.map ReduceRound.received).sum ≤ (rs.map ReduceRound.sent).sum
  fits : (rounds.map ReduceRound.sent).sum < ulongSize

/-! ## One round at the broker -/

/-- The broker between rounds, with the totals `S` and `R`. -/
structure Idle (g : HelloGroup ι) (S R : ℕ) (c : Context ι) : Prop where
  tables : Tables (fun _ => none) c
  valid : c.validContexts = true
  worldSizes : c.worldSizes = g.size
  sentTotal : c.reduceSentTotal = S
  recvTotal : c.reduceRecvTotal = R

theorem Idle.formed (g : HelloGroup ι) : Idle g 0 0 g.context where
  tables := (Agrees.formed g).tables
  valid := rfl
  worldSizes := rfl
  sentTotal := rfl
  recvTotal := rfl

section Round

variable {g : HelloGroup ι} {r : ReduceRound ι} {S R : ℕ}

/-- The unanswered requests once the simulators of `l` have asked. -/
def ReduceRound.asked (r : ReduceRound ι) (l : List ι) (i : ι) : Option (Request ι) :=
  if i ∈ l then some (r.request i) else none

theorem ReduceRound.post_asked (l : List ι) (i : ι) :
    post (r.asked l) i (r.request i) = r.asked (l ++ [i]) := by
  funext j
  by_cases hj : j = i
  · simp [post, asked, hj]
  · simp [post, asked, hj]

theorem ReduceRound.participants (l : List ι) :
    Participants (r.asked l) (fun v => .reduceSendRecv v.1 v.2) l.toFinset r.contribution := by
  intro i a
  by_cases hi : i ∈ l
  · simp [asked, hi, request, Prod.ext_iff, eq_comm]
  · simp [asked, hi]

/-- What a round adds up to, as sums over the group. -/
theorem ReduceRound.sum_order (hr : r.order.Perm g.members) (f : ι → ℕ) :
    (r.order.map f).sum = ∑ i ∈ g.members.toFinset, f i := by
  rw [(hr.map f).sum_eq, List.sum_toFinset f g.nodup]

/-- The broker while a round is under way: the simulators of `l` have asked. -/
structure Asked (g : HelloGroup ι) (r : ReduceRound ι) (S R : ℕ) (l : List ι) (c : Context ι) : Prop where
  tables : Tables (r.asked l) c
  valid : c.validContexts = true
  worldSizes : c.worldSizes = g.size
  sentTotal : c.reduceSentTotal = S
  recvTotal : c.reduceRecvTotal = R

theorem Idle.asked {c : Context ι} (h : Idle g S R c) : Asked g r S R [] c where
  tables := by
    have hnone : r.asked [] = fun _ => none := by funext i; simp [ReduceRound.asked]
    rw [hnone]
    exact h.tables
  valid := h.valid
  worldSizes := h.worldSizes
  sentTotal := h.sentTotal
  recvTotal := h.recvTotal

theorem Asked.enter {c : Context ι} {l : List ι} {i : ι} (h : Asked g r S R l c) (hi : i ∉ l) :
    Asked g r S R (l ++ [i]) (c.enter i (r.request i)) where
  tables := by
    rw [← ReduceRound.post_asked]
    exact h.tables.enter (if_neg hi) rfl
  valid := h.valid
  worldSizes := h.worldSizes
  sentTotal := h.sentTotal
  recvTotal := h.recvTotal

/-- The broker's next request of the round is handed to the checker. -/
theorem Asked.handle {c : Context ι} {l : List ι} {i : ι} (h : Asked g r S R l c) (hi : i ∉ l) (n : ℕ) :
    c.handle n i (r.request i) = reduceSendRecvChecker (c.enter i (r.request i)) :=
  reduceSendRecvHandler_eq h.valid (h.tables.reduceSent.not_mem_dom (if_neg hi))

theorem ReduceRound.not_mem_of_order (hperm : r.order.Perm g.members) {l rest : List ι} {i : ι}
    (h : r.order = l ++ i :: rest) : i ∉ l := by
  have hnd : r.order.Nodup := hperm.nodup_iff.mpr g.nodup
  rw [h] at hnd
  exact fun hm => (List.nodup_append.mp hnd).2.2 i hm i (by simp) rfl

/-- A request before the last one waits. -/
theorem Asked.waits (hperm : r.order.Perm g.members) {l rest : List ι} {i j : ι} {b : Broker ι} {c : Context ι}
    (horder : r.order = l ++ i :: j :: rest) (hb : b.ctxs = [c]) (h : Asked g r S R l c) :
    b.step i 0 (r.request i) = .ok ({ b with ctxs := [c.enter i (r.request i)] }, [], []) := by
  have hil := ReduceRound.not_mem_of_order hperm horder
  have hjl : j ∉ l ++ [i] := ReduceRound.not_mem_of_order hperm (show r.order = (l ++ [i]) ++ j :: rest by simp [horder])
  have he := h.enter hil
  have hsub : (l ++ [i]).toFinset ⊂ g.members.toFinset := by
    refine (Finset.ssubset_iff_of_subset fun k hk => ?_).mpr ⟨j, ?_, by rwa [List.mem_toFinset]⟩
    · rw [List.mem_toFinset] at hk ⊢
      exact hperm.subset (horder ▸ by simp at hk ⊢; tauto)
    · rw [List.mem_toFinset]
      exact hperm.subset (by rw [horder]; simp)
  exact step_handle (i := i) (r := r.request i) hb ((h.handle hil b.worldSize).trans
    (reduceSendRecvChecker_waits he.tables
      (he.worldSizes.trans (List.toFinset_card_of_nodup g.nodup).symm) (ReduceRound.participants (l ++ [i])) hsub))

/-- The last request releases the round. -/
theorem Asked.releases (hperm : r.order.Perm g.members) (hfit : S + r.sent < ulongSize)
    (hle : R + r.received ≤ S + r.sent) {l : List ι} {i : ι} {b : Broker ι} {c : Context ι}
    (horder : r.order = l ++ [i]) (hb : b.ctxs = [c]) (h : Asked g r S R l c) :
    ∃ c' out, b.step i 0 (r.request i) = .ok ({ b with ctxs := [c'] }, out, []) ∧
      Idle g (S + r.sent) (R + r.received) c' ∧
      Answered out g.members.toFinset fun _ => .diff (S + r.sent - (R + r.received)) := by
  have hil := ReduceRound.not_mem_of_order hperm horder
  have he := h.enter hil
  have hall : (l ++ [i]).toFinset = g.members.toFinset := by
    rw [← horder]
    exact List.toFinset_eq_of_perm _ _ hperm
  have hp : Participants (r.asked (l ++ [i])) (fun v => .reduceSendRecv v.1 v.2) g.members.toFinset r.contribution :=
    hall ▸ ReduceRound.participants (l ++ [i])
  have hS : r.sent = ∑ j ∈ g.members.toFinset, (r.contribution j).1 := ReduceRound.sum_order hperm _
  have hR : r.received = ∑ j ∈ g.members.toFinset, (r.contribution j).2 := ReduceRound.sum_order hperm _
  obtain ⟨hrel, hans⟩ := reduceSendRecvChecker_releases he.tables
    (he.worldSizes.trans (List.toFinset_card_of_nodup g.nodup).symm) hp
    (by rw [he.sentTotal, ← hS]; exact hfit) (by rw [he.sentTotal, he.recvTotal, ← hS, ← hR]; exact hle)
  rw [he.sentTotal, he.recvTotal, ← hS, ← hR] at hrel
  have hstep := step_handle (i := i) (r := r.request i) hb ((h.handle hil b.worldSize).trans hrel)
  have hnone : answer (r.asked (l ++ [i])) (l ++ [i]) = fun _ => none := by
    funext j
    by_cases hj : j ∈ l ++ [i] <;> simp [answer, ReduceRound.asked, hj]
  have htables := he.tables.released_sendRecv hp hall (S + r.sent) (R + r.received)
  rw [hnone] at htables
  exact ⟨_, _, hstep, ⟨htables, he.valid, he.worldSizes, rfl, rfl⟩, hans _⟩

/-- The rest of a round: the last request releases it. -/
theorem Asked.serve (hperm : r.order.Perm g.members) (hfit : S + r.sent < ulongSize)
    (hle : R + r.received ≤ S + r.sent) (rest : List ι) :
    ∀ (l : List ι) (i : ι) (b : Broker ι) (c : Context ι), r.order = l ++ i :: rest → b.ctxs = [c] →
      Asked g r S R l c →
      ∃ c' out, handleAll b ((i :: rest).map fun j => ⟨j, 0, r.request j⟩) = .ok ({ b with ctxs := [c'] }, out) ∧
        Idle g (S + r.sent) (R + r.received) c' ∧
        Answered out g.members.toFinset fun _ => .diff (S + r.sent - (R + r.received)) := by
  induction rest with
  | nil =>
    intro l i b c horder hb h
    obtain ⟨c', out, hstep, hidle, hans⟩ := h.releases hperm hfit hle horder hb
    have hserve := handleAll_cons (f := ⟨i, 0, r.request i⟩) hstep (show handleAll _ [] = .ok (_, []) from rfl)
    rw [List.append_nil] at hserve
    exact ⟨c', out, hserve, hidle, hans⟩
  | cons j rest ih =>
    intro l i b c horder hb h
    have hstep := h.waits hperm horder hb
    obtain ⟨c', out, hserve, hidle, hans⟩ := ih (l ++ [i]) j { b with ctxs := [c.enter i (r.request i)] }
      (c.enter i (r.request i)) (by simp [horder]) rfl (h.enter (ReduceRound.not_mem_of_order hperm horder))
    exact ⟨c', out, handleAll_cons (f := ⟨i, 0, r.request i⟩) hstep hserve, hidle, hans⟩

/-- A whole round at the broker. -/
theorem Idle.serve (hperm : r.order.Perm g.members) (hfit : S + r.sent < ulongSize)
    (hle : R + r.received ≤ S + r.sent) {b : Broker ι} {c : Context ι} (hb : b.ctxs = [c]) (h : Idle g S R c) :
    ∃ c' out, handleAll b r.frames = .ok ({ b with ctxs := [c'] }, out) ∧
      Idle g (S + r.sent) (R + r.received) c' ∧
      Answered out g.members.toFinset fun _ => .diff (S + r.sent - (R + r.received)) := by
  cases horder : r.order with
  | nil =>
    have := hperm.symm.subset g.netSim_mem
    rw [horder] at this
    cases this
  | cons i rest =>
    have := Asked.serve hperm hfit hle rest [] i b c (by simp [horder]) hb h.asked
    simpa [ReduceRound.frames, horder] using this

end Round

/-! ## The whole history -/

theorem mpiReduceTotalSendReceive_ok {sent received d : ℕ} :
    mpiReduceTotalSendReceive sent received = .ok d ↔ received ≤ sent ∧ d = sent - received := by
  rw [mpiReduceTotalSendReceive]
  split
  · next h => simp [h, eq_comm]
  · next h => simp [h]

/-- Everybody got the same difference, so there is only one. -/
theorem Answered.diff_unique {out : Replies ι} {who : Finset ι} {d d' : ℕ} (h : Answered out who fun _ => .diff d)
    (h' : Answered out who fun _ => .diff d') (hne : who.Nonempty) : d = d' := by
  obtain ⟨i, hi⟩ := hne
  obtain ⟨e, he, -⟩ := List.mem_map.mp (h.mem_iff.mpr hi)
  have := (h.value e he).symm.trans (h'.value e he)
  exact Reply.diff.inj this

omit [LinearOrder ι] in
theorem settled_cons {r : ReduceRound ι} {rounds : List (ReduceRound ι)} :
    Settled (r :: rounds) ↔ rounds = [] ∨ r.received = r.sent ∧ Settled rounds := by
  cases rounds with
  | nil => simp [Settled]
  | cons r' rounds => simp [Settled]

/-- In a round from totals `S` and `R` on, the back ends return the same difference just if the totals are equal. -/
theorem Idle.sameDifferences_cons {g : HelloGroup ι} {r : ReduceRound ι} {S R : ℕ} (hperm : r.order.Perm g.members)
    (hfit : S + r.sent < ulongSize) (hle0 : R ≤ S) (hle : R + r.received ≤ S + r.sent) {b : Broker ι} {c : Context ι}
    (hb : b.ctxs = [c]) (h : Idle g S R c) (rounds : List (ReduceRound ι)) :
    ∃ c', Idle g (S + r.sent) (R + r.received) c' ∧
      (SameDifferences g b (r :: rounds) ↔ S = R ∧ SameDifferences g { b with ctxs := [c'] } rounds) := by
  obtain ⟨c', out, hserve, hidle, hans⟩ := h.serve hperm hfit hle hb
  have hne : g.members.toFinset.Nonempty := ⟨g.netSim, List.mem_toFinset.mpr g.netSim_mem⟩
  refine ⟨c', hidle, ?_⟩
  rw [SameDifferences]
  constructor
  · rintro ⟨b₁, out₁, d, h1, hd, ha, hs⟩
    rw [hserve] at h1
    simp only [Except.ok.injEq, Prod.mk.injEq] at h1
    obtain ⟨rfl, rfl⟩ := h1
    obtain ⟨hrs, rfl⟩ := mpiReduceTotalSendReceive_ok.mp hd
    have hdiff := hans.diff_unique ha hne
    exact ⟨by omega, hs⟩
  · rintro ⟨rfl, hs⟩
    have hrs : r.received ≤ r.sent := by omega
    refine ⟨_, out, r.sent - r.received, hserve, mpiReduceTotalSendReceive_ok.mpr ⟨hrs, rfl⟩, ?_, hs⟩
    rwa [show S + r.sent - (S + r.received) = r.sent - r.received by omega] at hans

/-- From totals `S` and `R` on, the back ends agree exactly when the totals are equal before every round. -/
theorem sameDifferences_iff_from {g : HelloGroup ι} (rounds : List (ReduceRound ι)) :
    ∀ (S R : ℕ) (b : Broker ι) (c : Context ι), b.ctxs = [c] → Idle g S R c →
      (∀ r ∈ rounds, r.order.Perm g.members) →
      (∀ rs, rs <+: rounds → R + (rs.map ReduceRound.received).sum ≤ S + (rs.map ReduceRound.sent).sum) →
      S + (rounds.map ReduceRound.sent).sum < ulongSize →
      (SameDifferences g b rounds ↔ rounds = [] ∨ S = R ∧ Settled rounds) := by
  induction rounds with
  | nil => intro S R b c _ _ _ _ _; simp [SameDifferences]
  | cons r rounds ih =>
    intro S R b c hb h hmem hcausal hfit
    simp only [List.map_cons, List.sum_cons] at hfit
    have hle0 : R ≤ S := by simpa using hcausal [] List.nil_prefix
    have hle : R + r.received ≤ S + r.sent := by simpa using hcausal [r] ⟨rounds, rfl⟩
    obtain ⟨c', hidle, hiff⟩ := h.sameDifferences_cons (hmem r (by simp)) (by omega) hle0 hle hb rounds
    have hrest := ih (S + r.sent) (R + r.received) { b with ctxs := [c'] } c' rfl hidle
      (fun r' hr' => hmem r' (by simp [hr']))
      (fun rs hrs => by
        have := hcausal (r :: rs) (List.cons_prefix_cons.mpr ⟨rfl, hrs⟩)
        simp only [List.map_cons, List.sum_cons] at this
        omega)
      (by omega)
    rw [hiff, hrest, settled_cons]
    simp only [List.cons_ne_nil, false_or]
    refine and_congr_right fun hSR => or_congr_right (and_congr_left' ?_)
    omega

/-- The back ends return the same differences exactly when every round but the last reports as many
messages received as sent: over MPI a message that is received in a later round than it was sent in is
never subtracted from the sends of its own. -/
theorem same_differences_iff {g : HelloGroup ι} {rounds : List (ReduceRound ι)} (h : Reported g rounds) :
    SameDifferences g g.formed rounds ↔ Settled rounds := by
  have := sameDifferences_iff_from (g := g) rounds 0 0 g.formed g.context rfl (.formed g) h.members
    (by simpa using h.causal) (by simpa using h.fits)
  rw [this]
  constructor
  · rintro (rfl | ⟨-, hs⟩)
    · intro r hr
      simp at hr
    · exact hs
  · exact fun hs => .inr ⟨rfl, hs⟩

/-- A round of the four simulators, in the order of their numbers. -/
def fourRound (contribution : ℕ → ℕ × ℕ) : ReduceRound ℕ := ⟨[0, 1, 2, 3], contribution⟩

/-- Two rounds of the four simulators that a run can report. -/
theorem reported_two {r r' : ReduceRound ℕ} (h : r.order = [0, 1, 2, 3]) (h' : r'.order = [0, 1, 2, 3])
    (hr : r.received ≤ r.sent) (hr' : r.received + r'.received ≤ r.sent + r'.sent)
    (hfit : r.sent + r'.sent < ulongSize) : Reported fourMembers [r, r'] where
  members q hq := by
    simp only [List.mem_cons, List.not_mem_nil, or_false] at hq
    rcases hq with rfl | rfl
    · rw [h]; exact List.Perm.refl _
    · rw [h']; exact List.Perm.refl _
  causal rs hrs := by
    obtain hl | hl | hl : rs.length = 0 ∨ rs.length = 1 ∨ rs.length = 2 := by
      have := hrs.length_le
      simp only [List.length_cons, List.length_nil] at this
      omega
    all_goals rw [List.prefix_iff_eq_take.mp hrs, hl]
    · exact le_rfl
    · simpa using hr
    · simpa using hr'
  fits := by simpa using hfit

/-- Simulator 0 sends a message, which simulator 1 receives in the round after. -/
def receivedLater : List (ReduceRound ℕ) :=
  [fourRound fun i => if i = 0 then (1, 0) else (0, 0), fourRound fun i => if i = 1 then (0, 1) else (0, 0)]

/-- The second round fails an assertion over MPI; the broker answers it with 0. -/
theorem received_later_aborts : Reported fourMembers receivedLater ∧
    mpiReduceTotalSendReceive 0 1 = .error .assertion ∧
    ¬ SameDifferences fourMembers fourMembers.formed receivedLater := by
  have hrep : Reported fourMembers receivedLater := reported_two rfl rfl (by decide) (by decide) (by decide)
  refine ⟨hrep, rfl, fun h => ?_⟩
  have hiff := sameDifferences_iff_from receivedLater 0 0 fourMembers.formed fourMembers.context rfl (.formed _)
    hrep.members (by simpa using hrep.causal) (by simpa using hrep.fits)
  rcases hiff.mp h with h | ⟨-, h⟩
  · cases h
  · exact absurd (h _ (List.mem_cons_self ..)) (by decide)

/-- Two messages that are received in the round they are sent in, then three of which one is. -/
def receivedAtOnce : List (ReduceRound ℕ) :=
  [fourRound fun i => if i = 0 then (2, 0) else if i = 1 then (0, 2) else (0, 0),
   fourRound fun i => if i = 2 then (3, 0) else if i = 3 then (0, 1) else (0, 0)]

theorem same_differences_at_once : Reported fourMembers receivedAtOnce ∧
    SameDifferences fourMembers fourMembers.formed receivedAtOnce := by
  have hrep : Reported fourMembers receivedAtOnce := reported_two rfl rfl (by decide) (by decide) (by decide)
  refine ⟨hrep, (same_differences_iff hrep).mpr fun r hr => ?_⟩
  simp only [receivedAtOnce, List.dropLast_cons_cons, List.dropLast_singleton, List.mem_singleton] at hr
  subst hr
  decide

end Fncs.Broker

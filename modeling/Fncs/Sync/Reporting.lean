/-
What the counters of a traffic add up to. Everything that was ever sent is
reported to the broker or still in a `sendCount` (`Reporting.sent`); where it
is between its sender and a `receiveCount` is `outstanding`: in flight, or a
token of the net sim's ledger.

A simulator reports copies of its counters and is blocked until the round is
complete, so a completed round has reported every send of who takes part in
it (`Round`).
-/
import Fncs.Sync.Traffic

namespace Fncs

open Broker Pending

/-! ## What an operation counts -/

section Managers

variable {c : Counters} {m : Message} {packets packets' : OrdMap TIME ℕ} {t : TIME} {f : ℕ → ℕ}

theorem AbsCommManager.subtractCopies_eq {sent recv : ℕ} (hs : sent ≤ c.sendCount) (hr : recv ≤ c.receiveCount)
    (hsl : c.sendCount < ulongSize) (hrl : c.receiveCount < ulongSize) :
    AbsCommManager.subtractCopies c sent recv = ⟨c.sendCount - sent, c.receiveCount - recv⟩ := by
  rw [subtractCopies, subTime_of_le hs hsl, subTime_of_le hr hrl]

theorem AbsCommManager.messageReceived_ok {interfaces : List String} {packetLostPeriod currentTime : TIME}
    {c' : Counters} (h : messageReceived interfaces packetLostPeriod currentTime c m = .ok c') :
    (tooOld packetLostPeriod currentTime m = true ∧ c' = c) ∨
      (tooOld packetLostPeriod currentTime m = false ∧ m.isBroadCast = false ∧
        c' = { c with receiveCount := (c.receiveCount + 1) % ulongSize }) := by
  unfold messageReceived at h
  split at h
  · next ho =>
    cases h
    exact .inl ⟨ho, rfl⟩
  next ho =>
  split at h
  · cases h
  next hb =>
  split at h
  · cases h
  cases h
  exact .inr ⟨by simpa using ho, by simpa using hb, rfl⟩

/-- A group of at most 2^31 objects, one of them at least, can be counted by an `int`. -/
theorem GracePeriodCommManager.scount_eq {k : ℕ} (h0 : 0 < k) (hk : k ≤ 2 ^ 31) : scount k = (k - 1 : ℕ) := by
  rw [scount, uintSize, Nat.cast_sub h0, Nat.cast_one]
  exact Int.bmod_eq_of_le (by omega) (by omega)

theorem GracePeriodCommManager.countSend_eq {k : ℕ} (hb : m.isBroadCast = true → 0 < k ∧ k ≤ 2 ^ 31)
    (hfit : c.sendCount + (if m.isBroadCast then k - 1 else 1) < ulongSize) :
    countSend k c m = { c with sendCount := c.sendCount + if m.isBroadCast then k - 1 else 1 } := by
  unfold countSend
  split
  · next hm =>
    rw [if_pos hm] at hfit
    rw [scount_eq (hb hm).1 (hb hm).2, ← Nat.cast_add, ← Int.natCast_mod, Int.toNat_natCast, Nat.mod_eq_of_lt hfit]
  · next hm =>
    rw [if_neg hm] at hfit
    rw [Nat.mod_eq_of_lt hfit]

namespace CommunicationComManager

theorem messageReceived_ok {interfaces : List String} {packetLostPeriod currentTime : TIME}
    (h : messageReceived interfaces packetLostPeriod currentTime packets m = .ok packets') :
    (tooOld packetLostPeriod currentTime m = true ∧ packets' = packets) ∨
      (tooOld packetLostPeriod currentTime m = false ∧ m.msgFrom ∈ interfaces ∧
        packets' = addMessageTimeout interfaces packets m.timeStamp m.isBroadCast) := by
  unfold messageReceived at h
  split at h
  · next ho =>
    cases h
    exact .inl ⟨ho, rfl⟩
  next ho =>
  split at h
  · cases h
  next hf =>
  cases h
  exact .inr ⟨by simpa using ho, not_not.mp hf, rfl⟩

/-- A forward takes one from the entry's value, if that is how its values are measured. -/
theorem total_removeMessageTimeout (hf : ∀ v, packets.lookup t = some v → f v = if v ≤ 1 then 1 else f (v - 1) + 1)
    (h : removeMessageTimeout packets t = (true, packets')) : packets'.total f + 1 = packets.total f := by
  unfold removeMessageTimeout at h
  split at h
  · cases h
  next v hv =>
  obtain ⟨-, rfl⟩ := Prod.mk.inj h
  have hfv := hf v hv
  split
  · next h1 =>
    have := OrdMap.total_erase f packets t
    rw [hv, Option.map_some, Option.getD_some, hfv, if_pos h1] at this
    exact this
  · next h1 =>
    have := OrdMap.total_insert f packets t (v - 1)
    rw [hv, Option.map_some, Option.getD_some, hfv, if_neg h1] at this
    omega

/-- An arrival adds one to the messages held at least. -/
theorem total_addMessageTimeout_le (interfaces : List String) (packets : OrdMap TIME ℕ) (t : TIME) :
    (addMessageTimeout interfaces packets t false).total (max 1) ≤ packets.total (max 1) + 1 := by
  have := OrdMap.total_insert (max 1) packets t (((packets.lookup t).getD 0 + 1) % uintSize)
  have hmod : max 1 (((packets.lookup t).getD 0 + 1) % uintSize) ≤ ((packets.lookup t).map (max 1)).getD 0 + 1 := by
    have := Nat.mod_le ((packets.lookup t).getD 0 + 1) uintSize
    generalize ((packets.lookup t).getD 0 + 1) % uintSize = v at this ⊢
    cases hl : packets.lookup t <;> simp [hl] at this ⊢ <;> omega
  simp only [addMessageTimeout, Bool.false_eq_true, if_false]
  omega

/-- An arrival adds its tokens, if a `uint32_t` holds them. -/
theorem total_addMessageTimeout {interfaces : List String} {packets : OrdMap TIME ℕ} {t : TIME} {b : Bool}
    (hb : b = true → 0 < interfaces.length)
    (hfit : (packets.lookup t).getD 0 + (if b then interfaces.length - 1 else 1) < uintSize) :
    (addMessageTimeout interfaces packets t b).total id =
      packets.total id + if b then interfaces.length - 1 else 1 := by
  have hval : ((packets.lookup t).getD 0 + if b then interfaces.length + (uintSize - 1) else 1) % uintSize =
      (packets.lookup t).getD 0 + if b then interfaces.length - 1 else 1 := by
    cases b with
    | false => exact Nat.mod_eq_of_lt hfit
    | true =>
      have := hb rfl
      simp only [if_true] at hfit ⊢
      rw [show (packets.lookup t).getD 0 + (interfaces.length + (uintSize - 1)) =
        (packets.lookup t).getD 0 + (interfaces.length - 1) + uintSize by
          have : 0 < uintSize := by decide
          omega, Nat.add_mod_right, Nat.mod_eq_of_lt hfit]
  have := OrdMap.total_insert id packets t ((packets.lookup t).getD 0 + if b then interfaces.length - 1 else 1)
  simp only [addMessageTimeout, hval]
  have hid : ((packets.lookup t).map id).getD 0 = (packets.lookup t).getD 0 := by simp
  rw [hid] at this
  simp only [id_eq] at this
  omega

end CommunicationComManager

/-- What is sent is one packet, with the message, as long as there is a net sim. -/
theorem ZmqNetworkInterface.send_ok {ι : Type} [LinearOrder ι] {b : Broker ι} {ctx : Context ι} {net : ι}
    {iAmNetSim : Bool} {ps : List (Packet ι)} (hc : b.ctxs = [ctx]) (hn : ctx.netSimID = some net)
    (h : send b iAmNetSim m = .ok ps) : ∃ p, ps = [p] ∧ p.message = m := by
  unfold send at h
  split at h
  · cases hr : b.routeHandler 0 m.msgTo with
    | error e => rw [hr] at h; cases h
    | ok i =>
      rw [hr] at h
      cases h
      exact ⟨_, rfl, rfl⟩
  · have hd : b.delayHandler 0 = .ok (some net) := by
      have hctx : b.context 0 = .ok ctx := context_ok.mpr (by simp [hc])
      simp [delayHandler, hctx, bind, Except.bind, hn]
    rw [hd] at h
    cases h
    exact ⟨_, rfl, rfl⟩

end Managers

namespace Traffic

variable {ι : Type} [LinearOrder ι] {n : Network ι} {s s' : Traffic ι} {i : ι} {m : Message}

/-! ## What a step does -/

theorem send_ok (h : s.step n (.send i m) = .ok s') : i ∈ n.group.members ∧ s.asked i = none ∧
    ((i = n.group.netSim ∧ m.isBroadCast = false ∧ s' = s) ∨
    (∃ packets ps, i = n.group.netSim ∧ m.isBroadCast = false ∧
      CommunicationComManager.removeMessageTimeout s.packets m.timeStamp = (true, packets) ∧
      ZmqNetworkInterface.send s.session.broker true m = .ok ps ∧
      s' = { s with packets := packets, inFlight := s.inFlight ++ ps }) ∨
    (∃ ps, i ≠ n.group.netSim ∧ ZmqNetworkInterface.send s.session.broker false m = .ok ps ∧
      s' = { s with
        counters := Function.update s.counters i (GracePeriodCommManager.countSend n.globalObjectCount (s.counters i) m)
        inFlight := s.inFlight ++ ps
        sentEver := s.sentEver + n.copies m })) := by
  simp only [step] at h
  split at h
  · next hi =>
    refine ⟨hi.1, hi.2, ?_⟩
    unfold sendOne at h
    split at h
    · next hin =>
      split at h
      · cases h
      next hb =>
      have hb : m.isBroadCast = false := by simpa using hb
      split at h
      · cases h
        exact .inl ⟨hin, hb, rfl⟩
      next packets hr =>
      split at h
      · cases h
      next ps hps =>
      cases h
      exact .inr (.inl ⟨packets, ps, hin, hb, hr, hps, rfl⟩)
    · next hin =>
      split at h
      · cases h
      next ps hps =>
      cases h
      exact .inr (.inr ⟨ps, hin, hps, rfl⟩)
  · cases h

theorem arrive_ok (h : s.step n (.arrive i) = .ok s') : ∃ r b out pubs, s.asked i = some r ∧
    s.session.pending i = none ∧ s.session.broker.step i 0 r = .ok (b, out, pubs) ∧ s' = s.after i r b out := by
  simp only [step] at h
  split at h
  · cases h
  next r hr =>
  split at h
  · cases h
  next hp =>
  split at h
  · cases h
  next b out pubs hb =>
  cases h
  exact ⟨r, b, out, pubs, hr, not_not.mp hp, hb, rfl⟩

/-- An arrival: dropped as too old, or held by the net sim, or counted by the simulator. -/
theorem deliver_ok {k : ℕ} {currentTime : TIME} (h : s.step n (.deliver k currentTime) = .ok s') :
    ∃ p, s.inFlight[k]? = some p ∧ p.dest ∈ n.group.members ∧ s.asked p.dest ≠ some .sleep ∧
    ((tooOld (n.packetLostPeriod p.dest) currentTime p.message = true ∧
      s' = { s with inFlight := s.inFlight.eraseIdx k }) ∨
    (tooOld (n.packetLostPeriod p.dest) currentTime p.message = false ∧ p.dest = n.group.netSim ∧
      p.message.msgFrom ∈ n.interfaces p.dest ∧
      s' = { s with
        inFlight := s.inFlight.eraseIdx k
        packets := CommunicationComManager.addMessageTimeout (n.interfaces p.dest) s.packets p.message.timeStamp
          p.message.isBroadCast }) ∨
    (tooOld (n.packetLostPeriod p.dest) currentTime p.message = false ∧ p.dest ≠ n.group.netSim ∧
      p.message.isBroadCast = false ∧
      s' = { s with
        inFlight := s.inFlight.eraseIdx k
        counters := Function.update s.counters p.dest { s.counters p.dest with
          receiveCount := ((s.counters p.dest).receiveCount + 1) % ulongSize } })) := by
  simp only [step] at h
  split at h
  · cases h
  next p hp =>
  split at h
  · cases h
  next hd =>
  obtain ⟨hm, hsl⟩ := not_or.mp hd
  refine ⟨p, hp, not_not.mp hm, hsl, ?_⟩
  unfold receive at h
  split at h
  · next hin =>
    split at h
    · cases h
    split at h
    · cases h
    next packets hr =>
    cases h
    obtain ⟨ho, rfl⟩ | ⟨ho, hf, rfl⟩ := CommunicationComManager.messageReceived_ok hr
    · exact .inl ⟨ho, rfl⟩
    · exact .inr (.inl ⟨ho, hin, hf, rfl⟩)
  · next hin =>
    split at h
    · cases h
    split at h
    · cases h
    next c hr =>
    cases h
    obtain ⟨ho, rfl⟩ | ⟨ho, hb, rfl⟩ := AbsCommManager.messageReceived_ok hr
    · exact .inl ⟨ho, by simp⟩
    · exact .inr (.inr ⟨ho, hin, hb, rfl⟩)

/-! ## Totals -/

section Totals

variable (n : Network ι) (s : Traffic ι)

/-- The sends the broker has not been told of. -/
def unreportedSends : ℕ := ∑ i ∈ n.members, (s.counters i).sendCount

/-- The receipts the broker has not been told of. -/
def unreportedReceipts : ℕ := ∑ i ∈ n.members, (s.counters i).receiveCount

/-- Everything received, reported or not. -/
def received : ℕ := s.session.recvSum + s.unreportedReceipts n

/-- What is between its sender and a `receiveCount`, where a message in flight
weighs `w` and an entry of the ledger `f`. -/
def outstanding (w : Message → ℕ) (f : ℕ → ℕ) : ℕ :=
  (s.inFlight.map fun p => w p.message).sum + s.packets.total f

end Totals

omit [LinearOrder ι] in
theorem sum_update [DecidableEq ι] {α : Type} {M : Finset ι} (hi : i ∈ M) (c : ι → α) (x : α) (g : α → ℕ) :
    ∑ j ∈ M, g (Function.update c i x j) + g (c i) = ∑ j ∈ M, g (c j) + g x := by
  rw [← Finset.sum_erase_add _ _ hi, ← Finset.sum_erase_add _ (fun j => g (c j)) hi]
  have hrest : ∑ j ∈ M.erase i, g (Function.update c i x j) = ∑ j ∈ M.erase i, g (c j) :=
    Finset.sum_congr rfl fun j hj => by rw [Function.update_of_ne (Finset.ne_of_mem_erase hj)]
  rw [hrest, Function.update_self]
  omega

theorem sum_settled {M A : Finset ι} (hA : A ⊆ M) {f r g : ι → ℕ} (hin : ∀ j ∈ A, r j + g j = f j)
    (hout : ∀ j ∈ M, j ∉ A → r j = f j) : ∑ j ∈ M, r j + ∑ j ∈ A, g j = ∑ j ∈ M, f j := by
  rw [← Finset.sum_sdiff hA, ← Finset.sum_sdiff (f := f) hA, add_assoc, ← Finset.sum_add_distrib]
  congr 1
  · exact Finset.sum_congr rfl fun j hj => hout j (Finset.mem_sdiff.mp hj).1 (Finset.mem_sdiff.mp hj).2
  · exact Finset.sum_congr rfl hin

omit [LinearOrder ι] in
theorem sum_eraseIdx (w : Message → ℕ) {l : List (Packet ι)} {k : ℕ} {p : Packet ι} (h : l[k]? = some p) :
    ((l.eraseIdx k).map fun p => w p.message).sum + w p.message = (l.map fun p => w p.message).sum := by
  induction l generalizing k with
  | nil => cases h
  | cons q l ih =>
    cases k with
    | zero =>
      cases h
      simp [add_comm]
    | succ k =>
      have := ih h
      simp only [List.eraseIdx_cons_succ, List.map_cons, List.sum_cons]
      omega

/-! ## What is reported -/

/-- A blocked simulator waits for what it asked; the copies it reported are all
it has sent and at most what it has received; and every send is reported or
still counted. -/
structure Reporting (n : Network ι) (s : Traffic ι) : Prop where
  agrees : SessionAgrees n.group s.session
  waits : ∀ i r, s.session.pending i = some r → s.asked i = some r
  proper : ∀ i r, s.asked i = some r → i ∈ n.group.members ∧ r.isCollective = true ∧ r.fits = true ∧
    (i = n.group.netSim → r.notOfNetSim = false)
  copies : ∀ i sent recv, s.asked i = some (.reduceSendRecv sent recv) →
    sent = (s.counters i).sendCount ∧ recv ≤ (s.counters i).receiveCount
  sent : s.session.sentSum + s.unreportedSends n = s.sentEver

section Reporting

variable {r : Request ι} {c : Counters}

theorem mem_members : i ∈ n.members ↔ i ∈ n.group.members := List.mem_toFinset

/-- A member that is not blocked asks for something. -/
theorem Reporting.ask (h : Reporting n s) (hi : i ∈ n.group.members) (hidle : s.asked i = none)
    (hr : r.isCollective = true) (hf : r.fits = true) (hn : i = n.group.netSim → r.notOfNetSim = false)
    (hc : ∀ sent recv, r = .reduceSendRecv sent recv →
      sent = (s.counters i).sendCount ∧ recv ≤ (s.counters i).receiveCount) :
    Reporting n { s with asked := post s.asked i r } where
  agrees := h.agrees
  waits j q hq := by
    have hji : j ≠ i := by
      rintro rfl
      cases hidle.symm.trans (h.waits j q hq)
    simpa [post, hji] using h.waits j q hq
  proper j q hq := by
    rcases post_eq_some.mp hq with ⟨rfl, rfl⟩ | ⟨-, hq⟩
    · exact ⟨hi, hr, hf, hn⟩
    · exact h.proper j q hq
  copies j sent recv hq := by
    rcases post_eq_some.mp hq with ⟨rfl, rfl⟩ | ⟨-, hq⟩
    · exact hc sent recv rfl
    · exact h.copies j sent recv hq
  sent := h.sent

/-- The counters of one member change, not its `sendCount` while it is blocked. -/
theorem Reporting.count (h : Reporting n s) (hi : i ∈ n.group.members)
    (hc : s.asked i ≠ none → c.sendCount = (s.counters i).sendCount ∧ (s.counters i).receiveCount ≤ c.receiveCount)
    {packets : OrdMap TIME ℕ} {inFlight : List (Packet ι)} {k : ℕ}
    (hk : c.sendCount + s.sentEver = (s.counters i).sendCount + k) :
    Reporting n { s with
      counters := Function.update s.counters i c, packets := packets, inFlight := inFlight, sentEver := k } where
  agrees := h.agrees
  waits := h.waits
  proper := h.proper
  copies j sent recv hq := by
    have hold := h.copies j sent recv hq
    by_cases hji : j = i
    · subst hji
      have := hc (by rw [hq]; nofun)
      simp only [Function.update_self]
      omega
    · simpa [Function.update_of_ne hji] using hold
  sent := by
    have := sum_update (mem_members.mpr hi) s.counters c Counters.sendCount
    have hs := h.sent
    simp only [unreportedSends] at hs ⊢
    omega

end Reporting

/-! ## A request at the broker -/

section After

variable {r : Request ι} {b : Broker ι} {out : Replies ι} {pubs : List Publication}

theorem settled_of_notMem (hi : i ∉ out.map Prod.fst) : s.settled out i = s.counters i := by
  have hf : System.replyTo out i = none := by
    rw [System.replyTo, Option.map_eq_none_iff, List.find?_eq_none]
    exact fun e he hei => hi (List.mem_map.mpr ⟨e, he, of_decide_eq_true hei⟩)
  rw [settled, hf]

/-- Only a difference is subtracted for. -/
theorem settled_of_ne (h : ∀ e ∈ out, ∀ d, e.2 ≠ .diff d) : s.settled out = s.counters := by
  funext i
  unfold settled
  split
  · next d _ _ hd _ =>
    obtain ⟨e, he, hed⟩ := Option.map_eq_some_iff.mp hd
    exact absurd hed (h e (List.mem_of_find?_eq_some he) d)
  · rfl

/-- A completed round of REDUCE_SEND_RECV: the awake have nothing sent left to
report, the others sleep, and the difference is that of all rounds so far. -/
structure Round (n : Network ι) (s s' : Traffic ι) (awake : Finset ι) (d : ℕ) : Prop where
  asleep : ∀ i ∈ n.members, i ∉ awake → s.asked i = some .sleep
  reported : ∀ i ∈ awake, (s'.counters i).sendCount = 0
  others : ∀ i ∉ awake, s'.counters i = s.counters i
  sentSum : s'.session.sentSum ≤ s.sentEver
  diff : d + s'.session.recvSum = s'.session.sentSum

theorem Reporting.collectivesOnly (h : Reporting n s) (hr : s.asked i = some r) (hp : s.session.pending i = none) :
    Broker.collectivesOnly n.group.netSim s.session ⟨i, 0, r⟩ = true := by
  obtain ⟨hm, hc, hf, hn⟩ := h.proper i r hr
  obtain ⟨-, c, hctx, hag⟩ := h.agrees
  have hmem : isMember s.session.broker 0 i = true := by
    have := hag.roster.union ▸ List.mem_toFinset.mpr hm
    simpa [isMember, hctx, OrdMap.contains_iff] using this
  simp only [Broker.collectivesOnly, hp, hmem, hc, hf, Option.isNone_none, decide_true, Bool.and_self,
    Bool.true_and, Bool.not_eq_true', Bool.and_eq_false_iff, decide_eq_false_iff_not]
  by_cases hin : i = n.group.netSim
  · exact .inr (hn hin)
  · exact .inl hin

theorem Reporting.posted (h : Reporting n s) (hr : s.asked i = some r) {j : ι} {q : Request ι}
    (hq : s.session.posted ⟨i, 0, r⟩ j = some q) : s.asked j = some q := by
  rcases post_eq_some.mp hq with ⟨rfl, rfl⟩ | ⟨-, hq⟩
  · exact hr
  · exact h.waits j q hq

theorem sendCount_le (hi : i ∈ n.members) : (s.counters i).sendCount ≤ s.unreportedSends n :=
  Finset.single_le_sum (f := fun i => (s.counters i).sendCount) (fun _ _ => Nat.zero_le _) hi

theorem receiveCount_le (hi : i ∈ n.members) : (s.counters i).receiveCount ≤ s.unreportedReceipts n :=
  Finset.single_le_sum (f := fun i => (s.counters i).receiveCount) (fun _ _ => Nat.zero_le _) hi

/-- What a request leaves of the invariant, given the counters. -/
theorem Reporting.after_of_sums (h : Reporting n s) (hr : s.asked i = some r)
    (hag : SessionAgrees n.group (s.session.after ⟨i, 0, r⟩ b out))
    (hsums : s.session.sentSum + Session.roundSent (s.session.posted ⟨i, 0, r⟩) out +
      ∑ j ∈ n.members, (s.settled out j).sendCount = s.sentEver) : Reporting n (s.after i r b out) where
  agrees := hag
  waits j q hq := by
    obtain ⟨hj, hq⟩ := answer_eq_some.mp hq
    exact answer_eq_some.mpr ⟨hj, h.posted hr hq⟩
  proper j q hq := h.proper j q (answer_eq_some.mp hq).2
  copies j sent recv hq := by
    obtain ⟨hj, hq⟩ := answer_eq_some.mp hq
    have := h.copies j sent recv hq
    rwa [← settled_of_notMem (s := s) hj] at this
  sent := hsums

/-- No difference is among the replies. -/
theorem Reporting.after_quiet (h : Reporting n s) (hr : s.asked i = some r)
    (hag : SessionAgrees n.group (s.session.after ⟨i, 0, r⟩ b out)) (hne : ∀ e ∈ out, ∀ d, e.2 ≠ .diff d) :
    Reporting n (s.after i r b out) ∧ (s.after i r b out).received n = s.received n ∧
      (s.after i r b out).counters = s.counters := by
  have hcount := settled_of_ne (s := s) hne
  obtain ⟨hs0, hr0⟩ := Session.round_of_ne (p := s.session.posted ⟨i, 0, r⟩) hne
  refine ⟨h.after_of_sums hr hag ?_, ?_, hcount⟩
  · rw [hcount, hs0]
    exact h.sent
  · simp only [received, unreportedReceipts, Traffic.after, Session.after, hcount, hr0, Nat.add_zero]

/-- The counters of who takes part in a round, before and after. -/
theorem Reporting.settled_eq (h : Reporting n s) (hfit : s.sentEver < ulongSize) (hroom : s.received n < ulongSize)
    {awake : Finset ι} {d : ℕ} (ha : Answered out awake fun _ => .diff d) {j : ι} (hj : j ∈ awake)
    (hm : j ∈ n.members) {v : ℕ × ℕ} (hv : s.asked j = some (.reduceSendRecv v.1 v.2)) :
    v.1 = (s.counters j).sendCount ∧ v.2 ≤ (s.counters j).receiveCount ∧
      s.settled out j = ⟨0, (s.counters j).receiveCount - v.2⟩ := by
  obtain ⟨h1, h2⟩ := h.copies j _ _ hv
  have hsl := sendCount_le (s := s) hm
  have hrl := receiveCount_le (s := s) hm
  have hsent := h.sent
  have hrec : s.received n = s.session.recvSum + s.unreportedReceipts n := rfl
  refine ⟨h1, h2, ?_⟩
  rw [settled, System.replyTo_eq ha, if_pos hj, hv]
  show AbsCommManager.subtractCopies _ _ _ = _
  rw [AbsCommManager.subtractCopies_eq h1.le h2 (by omega) (by omega), h1, Nat.sub_self]

theorem Reporting.after_round (h : Reporting n s) (hfit : s.sentEver < ulongSize) (hroom : s.received n < ulongSize)
    (hr : s.asked i = some r) (hag : SessionAgrees n.group (s.session.after ⟨i, 0, r⟩ b out)) {awake : Finset ι}
    (hsub : awake ⊆ n.members) (hasleep : ∀ j ∈ n.members, j ∉ awake → s.asked j = some .sleep)
    {val : ι → ℕ × ℕ} {d : ℕ}
    (hpart : Participants (s.session.posted ⟨i, 0, r⟩) (fun v => .reduceSendRecv v.1 v.2) awake val)
    (hexact : s.session.sentSum + ∑ i ∈ awake, (val i).1 < ulongSize →
      s.session.recvSum + ∑ i ∈ awake, (val i).2 < ulongSize →
      d + (s.session.recvSum + ∑ i ∈ awake, (val i).2) = s.session.sentSum + ∑ i ∈ awake, (val i).1)
    (ha : Answered out awake fun _ => .diff d) :
    Reporting n (s.after i r b out) ∧ (s.after i r b out).received n = s.received n ∧
      Round n s (s.after i r b out) awake d := by
  obtain ⟨hs, hrv⟩ := Session.round_answered ha hpart
  have hout (j : ι) (hj : j ∉ awake) : s.settled out j = s.counters j :=
    settled_of_notMem fun hm => hj (ha.mem_iff.mp hm)
  have hin (j : ι) (hj : j ∈ awake) := h.settled_eq hfit hroom ha hj (hsub hj)
    (h.posted hr ((hpart j (val j)).mpr ⟨hj, rfl⟩))
  have hsend := sum_settled hsub (f := fun j => (s.counters j).sendCount)
    (r := fun j => (s.settled out j).sendCount) (g := fun j => (val j).1)
    (fun j hj => by rw [(hin j hj).2.2, (hin j hj).1, Nat.zero_add]) fun j _ hj => by rw [hout j hj]
  have hrecv := sum_settled hsub (f := fun j => (s.counters j).receiveCount)
    (r := fun j => (s.settled out j).receiveCount) (g := fun j => (val j).2)
    (fun j hj => by
      rw [(hin j hj).2.2]
      exact Nat.sub_add_cancel (hin j hj).2.1) fun j _ hj => by rw [hout j hj]
  have hsent := h.sent
  simp only [unreportedSends] at hsent
  have hreceived : (s.after i r b out).received n = s.received n := by
    simp only [received, unreportedReceipts, Traffic.after, Session.after, hrv]
    omega
  refine ⟨h.after_of_sums hr hag (by rw [hs]; omega), hreceived, hasleep,
    fun j hj => congrArg Counters.sendCount (hin j hj).2.2, hout, ?_, ?_⟩
  · simp only [Traffic.after, Session.after, hs]
    omega
  · have hle := hreceived ▸ hroom
    simp only [received, Traffic.after, Session.after, hrv] at hle
    simp only [Traffic.after, Session.after, hs, hrv]
    exact hexact (by omega) (by omega)

/-- A request that reaches the broker: nothing is reported, or a round of
REDUCE_SEND_RECV is complete. -/
theorem Reporting.after (h : Reporting n s) (hfit : s.sentEver < ulongSize) (hroom : s.received n < ulongSize)
    (hr : s.asked i = some r) (hp : s.session.pending i = none)
    (hb : s.session.broker.step i 0 r = .ok (b, out, pubs)) :
    Reporting n (s.after i r b out) ∧ (s.after i r b out).received n = s.received n ∧
      (((∀ e ∈ out, ∀ d, e.2 ≠ .diff d) ∧ (s.after i r b out).counters = s.counters) ∨
        ∃ awake d, Answered out awake (fun _ => .diff d) ∧ Round n s (s.after i r b out) awake d) := by
  have hallow := h.collectivesOnly hr hp
  have hagr := step_agrees h.agrees (Session.step_ok.mpr ⟨hallow, b, out, pubs, hb, rfl⟩)
  obtain ⟨hw, c, hctx, hag⟩ := h.agrees
  obtain ⟨c', rfl, -, hrel⟩ := step_handles hw hctx hag hallow hb
  have hquiet (hne : ∀ e ∈ out, ∀ d, e.2 ≠ .diff d) := by
    obtain ⟨h1, h2, h3⟩ := h.after_quiet hr hagr hne
    exact And.intro h1 (And.intro h2 (Or.inl (b := ∃ awake d, Answered out awake (fun _ => .diff d) ∧
      Round n s (s.after i r { s.session.broker with ctxs := [c'] } out) awake d) (And.intro hne h3)))
  rcases hrel with rfl | hrel
  · exact hquiet nofun
  cases hrel with
  | barrier _ ha => exact hquiet fun e he d => by rw [ha.value e he]; nofun
  | reduceMinTime _ _ _ _ ha => exact hquiet fun e he d => by rw [ha.value e he]; nofun
  | reduceMinTimeAction _ _ _ _ _ _ ha => exact hquiet fun e he d => by rw [ha.value e he]; nofun
  | allGather _ _ _ _ ha => exact hquiet fun e he d => by rw [ha.value e he]; nofun
  | wake _ _ _ ha => exact hquiet fun e he d => by rw [ha.value e he]; nofun
  | reduceSendRecv val d hpart _ _ hexact ha =>
    obtain ⟨h1, h2, h3⟩ := h.after_round hfit hroom hr hagr hag.awakeFor_subset
      (fun j hj hja => h.posted hr (hag.asleep_of_notMem hp hj hja)) hpart hexact ha
    exact ⟨h1, h2, .inr ⟨_, d, ha, h3⟩⟩

end After

/-! ## Any step -/

section Step

variable {e : Event ι}

/-- A broadcast is counted by an `int`, and only counters that are 0 are reset. -/
def Countable (n : Network ι) (s : Traffic ι) : Event ι → Prop
  | .send i m => i ≠ n.group.netSim → m.isBroadCast = true → 0 < n.globalObjectCount ∧ n.globalObjectCount ≤ 2 ^ 31
  | .resetCounters i => s.counters i = ⟨0, 0⟩
  | _ => True

/-- What a message that is not a broadcast weighs. -/
def single (m : Message) : ℕ := if m.isBroadCast then 0 else 1

theorem received_update (hi : i ∈ n.group.members) (c : Counters) (packets : OrdMap TIME ℕ)
    (inFlight : List (Packet ι)) (k : ℕ) :
    received n { s with
      counters := Function.update s.counters i c, packets := packets, inFlight := inFlight, sentEver := k } +
      (s.counters i).receiveCount = s.received n + c.receiveCount := by
  have := sum_update (mem_members.mpr hi) s.counters c Counters.receiveCount
  simp only [received, unreportedReceipts]
  omega

theorem mem_weight (w : Message → ℕ) {p : Packet ι} (hp : p ∈ s.inFlight) :
    w p.message ≤ (s.inFlight.map fun p => w p.message).sum :=
  List.single_le_sum (fun _ _ => Nat.zero_le _) _ (List.mem_map_of_mem hp)

/-- No `receiveCount` has reached the end of its range, nor does it by an arrival or by what is lost. -/
theorem receiveCount_room (hi : i ∈ n.group.members) (h : s.received n + s.outstanding single id < ulongSize) :
    (s.counters i).receiveCount + (s.inFlight.map fun p => single p.message).sum + s.packets.total id < ulongSize := by
  have := receiveCount_le (s := s) (mem_members.mpr hi)
  simp only [received, outstanding] at h
  omega

theorem total_lost (f : ℕ → ℕ) (leastTime : TIME) (packets : OrdMap TIME ℕ) :
    (CommunicationComManager.lost leastTime packets).total f +
      (packets.filter fun t _ => !decide (t < leastTime)).total f = packets.total f :=
  OrdMap.total_filter f (fun t => decide (t < leastTime)) packets

/-- A send is dropped, or forwards what the net sim holds, or is a new message. -/
theorem send_flow (h : Reporting n s) (w : Message → ℕ) (f : ℕ → ℕ) (hs : s.step n (.send i m) = .ok s') :
    s' = s ∨ s'.received n = s.received n ∧
      ((i = n.group.netSim ∧ m.isBroadCast = false ∧ s'.sentEver = s.sentEver ∧
          CommunicationComManager.removeMessageTimeout s.packets m.timeStamp = (true, s'.packets) ∧
          s'.outstanding w f + s.packets.total f = s.outstanding w f + w m + s'.packets.total f) ∨
        (i ≠ n.group.netSim ∧ s'.sentEver = s.sentEver + n.copies m ∧
          s'.outstanding w f = s.outstanding w f + w m)) := by
  obtain ⟨_, c, hctx, hag⟩ := h.agrees
  obtain ⟨hi, -, ⟨-, -, rfl⟩ | ⟨packets, ps, hin, hb, hr, hps, rfl⟩ | ⟨ps, hin, hps, rfl⟩⟩ := send_ok hs
  · exact .inl rfl
  · obtain ⟨p, rfl, rfl⟩ := ZmqNetworkInterface.send_ok hctx hag.roster.netSimID hps
    refine .inr ⟨rfl, .inl ⟨hin, hb, rfl, hr, ?_⟩⟩
    simp only [outstanding, List.map_append, List.sum_append, List.map_cons, List.map_nil, List.sum_cons, List.sum_nil]
    omega
  · obtain ⟨p, rfl, rfl⟩ := ZmqNetworkInterface.send_ok hctx hag.roster.netSimID hps
    have hrec := received_update (s := s) hi
      (GracePeriodCommManager.countSend n.globalObjectCount (s.counters i) p.message) s.packets
      (s.inFlight ++ [p]) (s.sentEver + n.copies p.message)
    have hc : (GracePeriodCommManager.countSend n.globalObjectCount (s.counters i) p.message).receiveCount =
        (s.counters i).receiveCount := by
      unfold GracePeriodCommManager.countSend
      split <;> rfl
    refine .inr ⟨by omega, .inr ⟨hin, rfl, ?_⟩⟩
    simp only [outstanding, List.map_append, List.sum_append, List.map_cons, List.map_nil, List.sum_cons, List.sum_nil]
    omega

/-- A message that arrives is no longer in flight: dropped, or held, or received. -/
theorem deliver_flow {k : ℕ} {currentTime : TIME} (w : Message → ℕ) (f : ℕ → ℕ)
    (hs : s.step n (.deliver k currentTime) = .ok s') : ∃ p, s.inFlight[k]? = some p ∧ s'.sentEver = s.sentEver ∧
    s'.outstanding w f + w p.message + s.packets.total f = s.outstanding w f + s'.packets.total f ∧
    ((tooOld (n.packetLostPeriod p.dest) currentTime p.message = true ∧ s'.received n = s.received n ∧
        s'.packets = s.packets) ∨
      (tooOld (n.packetLostPeriod p.dest) currentTime p.message = false ∧ p.dest = n.group.netSim ∧
        p.message.msgFrom ∈ n.interfaces p.dest ∧ s'.received n = s.received n ∧
        s'.packets = CommunicationComManager.addMessageTimeout (n.interfaces p.dest) s.packets p.message.timeStamp
          p.message.isBroadCast) ∨
      (tooOld (n.packetLostPeriod p.dest) currentTime p.message = false ∧ p.dest ∈ n.group.members ∧
        p.message.isBroadCast = false ∧ s'.packets = s.packets ∧
        s'.received n + (s.counters p.dest).receiveCount =
          s.received n + ((s.counters p.dest).receiveCount + 1) % ulongSize)) := by
  obtain ⟨p, hp, hm, -, ⟨hold, rfl⟩ | ⟨hnew, hin, hfrom, rfl⟩ | ⟨hnew, -, hb, rfl⟩⟩ := deliver_ok hs <;>
    have hsum := sum_eraseIdx w hp
  · refine ⟨p, hp, rfl, ?_, .inl ⟨hold, rfl, rfl⟩⟩
    simp only [outstanding]
    omega
  · refine ⟨p, hp, rfl, ?_, .inr (.inl ⟨hnew, hin, hfrom, rfl, rfl⟩)⟩
    simp only [outstanding]
    omega
  · refine ⟨p, hp, rfl, ?_, .inr (.inr ⟨hnew, hm, hb, rfl, received_update hm _ s.packets _ _⟩)⟩
    simp only [outstanding]
    omega

/-- What the net sim gives up counts as received. -/
theorem lost_flow {currentTime : TIME} (w : Message → ℕ) (f : ℕ → ℕ)
    (hs : s.step n (.packetLostCalculator currentTime) = .ok s') : ∃ leastTime, s'.sentEver = s.sentEver ∧
    s'.outstanding w f + (CommunicationComManager.lost leastTime s.packets).total f = s.outstanding w f ∧
    s'.received n + (s.counters n.group.netSim).receiveCount =
      s.received n + ((s.counters n.group.netSim).receiveCount +
        (CommunicationComManager.lost leastTime s.packets).total id) % ulongSize := by
  simp only [Traffic.step] at hs
  split at hs
  · cases hs
    refine ⟨_, rfl, ?_, received_update n.group.netSim_mem _ _ s.inFlight s.sentEver⟩
    have hlost := total_lost f (graceTime currentTime (n.packetLostPeriod n.group.netSim)) s.packets
    simp only [CommunicationComManager.packetLostCalculator, outstanding]
    omega
  · cases hs

/-- What is reset is no longer received. -/
theorem reset_flow (w : Message → ℕ) (f : ℕ → ℕ) (hs : s.step n (.resetCounters i) = .ok s') :
    s'.sentEver = s.sentEver ∧ s'.outstanding w f = s.outstanding w f ∧
      s'.received n + (s.counters i).receiveCount = s.received n := by
  simp only [Traffic.step] at hs
  split at hs
  · next hi =>
    cases hs
    exact ⟨rfl, rfl, received_update hi.1 AbsCommManager.resetCounters s.packets s.inFlight s.sentEver⟩
  · cases hs

/-! ## Each call keeps the reports -/

theorem Reporting.send (h : Reporting n s) (hs : s.step n (.send i m) = .ok s') (hfit' : s'.sentEver < ulongSize)
    (hcount : s.Countable n (.send i m)) : Reporting n s' := by
  obtain ⟨hi, hidle, ⟨-, -, rfl⟩ | ⟨_, _, -, -, -, -, rfl⟩ | ⟨_, hin, -, rfl⟩⟩ := send_ok hs
  · exact h
  · exact ⟨h.agrees, h.waits, h.proper, h.copies, h.sent⟩
  · have hle := sendCount_le (s := s) (mem_members.mpr hi)
    have hsent := h.sent
    have hc := GracePeriodCommManager.countSend_eq (c := s.counters i) (hcount hin)
      (by simp only [Network.copies] at hfit'; omega)
    refine h.count hi (fun hne => absurd hidle hne) ?_
    rw [hc, Network.copies]
    simp only
    omega

/-- A report fits its frames. -/
theorem Reporting.reduceTotalSendReceive (h : Reporting n s) (hfit : s.sentEver < ulongSize)
    (hrec : s.received n < ulongSize) (hs : s.step n (.reduceTotalSendReceive i) = .ok s') : Reporting n s' := by
  simp only [Traffic.step] at hs
  split at hs
  · next hi =>
    cases hs
    have hsl := sendCount_le (s := s) (mem_members.mpr hi.1)
    have hrl := receiveCount_le (s := s) (mem_members.mpr hi.1)
    have hsent := h.sent
    have hr : s.received n = s.session.recvSum + s.unreportedReceipts n := rfl
    refine h.ask hi.1 hi.2 rfl ?_ (fun _ => rfl) fun sent recv hc => ?_
    · have hs : (s.counters i).sendCount ≤ Infinity := Nat.le_sub_one_of_lt (by omega)
      have hr : (s.counters i).receiveCount ≤ Infinity := Nat.le_sub_one_of_lt (by omega)
      simp [Request.fits, hs, hr]
    · cases hc
      exact ⟨rfl, le_rfl⟩
  · cases hs

theorem Reporting.request {r : Request ι} (h : Reporting n s) (hs : s.step n (.request i r) = .ok s') :
    Reporting n s' := by
  simp only [Traffic.step] at hs
  split at hs
  · next hi =>
    cases hs
    obtain ⟨hm, hidle, ho⟩ := hi
    simp only [otherCollective, Bool.and_eq_true, Bool.not_eq_true', Bool.and_eq_false_iff,
      decide_eq_false_iff_not] at ho
    obtain ⟨⟨⟨hr, hf⟩, hsr⟩, hn⟩ := ho
    refine h.ask hm hidle hr hf (fun hin => hn.resolve_left fun hne => hne hin) fun sent recv hc => ?_
    subst hc
    cases hsr
  · cases hs

/-- An arrival adds at most one to a `receiveCount`, which has room for it. -/
theorem Reporting.deliver {k : ℕ} {currentTime : TIME} (h : Reporting n s)
    (hroom : s.received n + s.outstanding single id < ulongSize) (hs : s.step n (.deliver k currentTime) = .ok s') :
    Reporting n s' := by
  obtain ⟨p, hp, hm, -, ⟨-, rfl⟩ | ⟨-, -, -, rfl⟩ | ⟨-, hin, hb, rfl⟩⟩ := deliver_ok hs
  · exact ⟨h.agrees, h.waits, h.proper, h.copies, h.sent⟩
  · exact ⟨h.agrees, h.waits, h.proper, h.copies, h.sent⟩
  · have hrl := receiveCount_room hm hroom
    have hw := mem_weight single (List.mem_of_getElem? hp)
    rw [single, if_neg (by simp [hb])] at hw
    have hmod : ((s.counters p.dest).receiveCount + 1) % ulongSize = (s.counters p.dest).receiveCount + 1 :=
      Nat.mod_eq_of_lt (by omega)
    rw [hmod]
    exact h.count (c := { s.counters p.dest with receiveCount := (s.counters p.dest).receiveCount + 1 }) hm
      (fun _ => ⟨rfl, Nat.le_add_right _ _⟩) rfl

theorem Reporting.step (h : Reporting n s) (hfit : s.sentEver < ulongSize)
    (hroom : s.received n + s.outstanding single id < ulongSize) (hs : s.step n e = .ok s')
    (hfit' : s'.sentEver < ulongSize) (hcount : s.Countable n e) : Reporting n s' := by
  have hrec : s.received n < ulongSize := by omega
  cases e with
  | send i m => exact h.send hs hfit' hcount
  | reduceTotalSendReceive i => exact h.reduceTotalSendReceive hfit hrec hs
  | request i r => exact h.request hs
  | arrive i =>
    obtain ⟨r, b, out, pubs, hr, hp, hb, rfl⟩ := arrive_ok hs
    exact (h.after hfit hrec hr hp hb).1
  | deliver k currentTime => exact h.deliver hroom hs
  | packetLostCalculator currentTime =>
    simp only [Traffic.step] at hs
    split at hs
    · next hidle =>
      cases hs
      exact h.count n.group.netSim_mem (fun hne => absurd hidle hne) rfl
    · cases hs
  | resetCounters i =>
    simp only [Traffic.step] at hs
    split at hs
    · next hi =>
      cases hs
      refine h.count hi.1 (fun hne => absurd hi.2 hne) ?_
      rw [show s.counters i = ⟨0, 0⟩ from hcount]
      rfl
    · cases hs

theorem sentEver_le (hs : s.step n e = .ok s') : s.sentEver ≤ s'.sentEver := by
  cases e with
  | send i m =>
    obtain ⟨-, -, ⟨-, -, rfl⟩ | ⟨_, _, -, -, -, -, rfl⟩ | ⟨_, -, -, rfl⟩⟩ := send_ok hs <;> simp
  | arrive i =>
    obtain ⟨r, b, out, pubs, -, -, -, rfl⟩ := arrive_ok hs
    exact le_rfl
  | deliver k currentTime =>
    obtain ⟨p, -, -, -, ⟨-, rfl⟩ | ⟨-, -, -, rfl⟩ | ⟨-, -, -, rfl⟩⟩ := deliver_ok hs <;> exact le_rfl
  | _ =>
    simp only [Traffic.step] at hs
    split at hs <;> cases hs
    exact le_rfl

end Step

end Traffic

end Fncs

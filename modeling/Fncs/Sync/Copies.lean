/-
The net sim between its ledger and its simulation: messages come in and are
handed out, broadcasts as copies, and what is handed out is forwarded later
against the ledger. A copy is a new message, so its time is converted once more;
the ledger holds tokens of the time of the original.
-/
import Fncs.Sync.Broadcast

namespace Fncs

/-- A framework time that the constructor of a message leaves as it is. -/
def KeepsTime (g : Integrator) (t : TIME) : Prop :=
  t < ulongSize ∧ t * g.simTimeMetric.scale ≡ t + g.offset [MOD ulongSize]

instance (g : Integrator) (t : TIME) : Decidable (KeepsTime g t) :=
  inferInstanceAs (Decidable (t < ulongSize ∧ t * g.simTimeMetric.scale ≡ t + g.offset [MOD ulongSize]))

theorem Integrator.toFramework_eq_iff (g : Integrator) (t : TIME) : g.toFramework t = t ↔ KeepsTime g t := by
  rw [toFramework, subTime_eq_iff, KeepsTime, convertToFrameworkTime]
  exact and_congr_right fun _ => by rw [Nat.ModEq, Nat.mod_mod, Nat.ModEq]

/-- With nanoseconds and no offset every time is kept. -/
theorem keepsTime_nanoseconds {offset onetimestep t : TIME} (ho : offset % ulongSize = 0) (ht : t < ulongSize) :
    KeepsTime ⟨.nanoseconds, offset, onetimestep⟩ t := by
  refine ⟨ht, ?_⟩
  rw [TimeMetric.scale, Nat.mul_one]
  exact (Nat.ModEq.add_left t (show offset ≡ 0 [MOD ulongSize] from ho)).symm

/-- The ledger, what the simulation holds, and what was refused when it was forwarded. -/
structure Holding where
  packets : OrdMap TIME ℕ
  held : List Message
  refused : List Message

namespace Holding

open CommunicationComManager

inductive Event
  /-- A message arrives when the clock shows `currentTime`. -/
  | messageReceived (currentTime : TIME) (m : Message)
  /-- The `k`-th message of those held is sent. -/
  | sendAll (k : ℕ)
  | packetLostCalculator (currentTime : TIME)
  deriving DecidableEq, Repr

inductive Halt
  | notAllowed
  | threw (what : Thrown)
  deriving DecidableEq, Repr

/-- Nothing held yet. -/
def start : Holding := ⟨∅, [], []⟩

/-- One call of the net sim's manager. What is too old by the clock of
`packetLostCalculator` is not forwarded within the packet lost period any more. -/
def step (g : Integrator) (interfaces : OrdSet String) (packetLostPeriod : TIME) (s : Holding) :
    Event → Except Halt Holding
  | .messageReceived currentTime m =>
    match messageReceived interfaces.keys packetLostPeriod currentTime s.packets m with
    | .error e => .error (.threw e)
    | .ok packets => .ok { s with
        packets := packets
        held := s.held ++ handedOut g interfaces packetLostPeriod currentTime m }
  | .sendAll k =>
    match s.held[k]? with
    | none => .error .notAllowed
    | some m =>
      if m.isBroadCast then .error (.threw .operationNotSupported)
      else
        match removeMessageTimeout s.packets m.timeStamp with
        | (true, packets) => .ok { s with packets := packets, held := s.held.eraseIdx k }
        | (false, packets) => .ok { packets := packets, held := s.held.eraseIdx k, refused := s.refused ++ [m] }
  | .packetLostCalculator currentTime =>
    .ok { s with
      packets := (packetLostCalculator packetLostPeriod currentTime ⟨0, 0⟩ s.packets).2
      held := s.held.filter fun m => !tooOld packetLostPeriod currentTime m }

/-- The times of the messages that are held. -/
def times (s : Holding) : Multiset TIME := (s.held.map Message.timeStamp : List TIME)

/-- Nothing was refused, and the tokens are those of the messages held: each of them would be accepted. -/
structure Matched (s : Holding) : Prop where
  refused : s.refused = []
  tokens : s.packets.bag = s.times
  accepted : ∀ m ∈ s.held, (removeMessageTimeout s.packets m.timeStamp).1 = true

/-- Tokens of one more message, or of all copies, fit the counter, and copies keep the time. -/
def InTime (g : Integrator) (interfaces : OrdSet String) (packetLostPeriod : TIME) (s : Holding) : Event → Prop
  | .messageReceived currentTime m => tooOld packetLostPeriod currentTime m = true ∨
      if m.isBroadCast then copies g interfaces m = [] ∨
        (KeepsTime g m.timeStamp ∧
          (s.packets.lookup m.timeStamp).getD 0 + (copies g interfaces m).length < uintSize)
      else (s.packets.lookup m.timeStamp).getD 0 + 1 < uintSize
  | _ => True

/-- The counters are of their type. -/
def Small (s : Holding) : Prop := ∀ t, (s.packets.lookup t).getD 0 < uintSize

variable {g : Integrator} {interfaces : OrdSet String} {packetLostPeriod currentTime : TIME} {s s' : Holding}
  {e : Event} {m : Message}

/-! ## The time of a copy -/

theorem copies_time (g : Integrator) (interfaces : OrdSet String) (m : Message) :
    ∀ c ∈ copies g interfaces m, c.timeStamp = g.toFramework m.timeStamp := by
  intro c hc
  obtain ⟨name, -, rfl⟩ := List.mem_map.mp hc
  rfl

/-- The copies of a broadcast have its time exactly when the time is kept. -/
theorem copies_keep_iff (g : Integrator) (interfaces : OrdSet String) (m : Message) :
    (∀ c ∈ copies g interfaces m, c.timeStamp = m.timeStamp) ↔
      copies g interfaces m = [] ∨ KeepsTime g m.timeStamp := by
  rw [← Integrator.toFramework_eq_iff]
  have htime := copies_time g interfaces m
  generalize copies g interfaces m = l at htime
  cases l with
  | nil => simp
  | cons c l =>
    constructor
    · intro h
      exact .inr ((htime c List.mem_cons_self).symm.trans (h c List.mem_cons_self))
    · intro h c' hc'
      rw [htime c' hc']
      exact h.resolve_left (List.cons_ne_nil c l)

theorem times_copies (g : Integrator) (interfaces : OrdSet String) (m : Message) :
    (((copies g interfaces m).map Message.timeStamp : List TIME) : Multiset TIME) =
      Multiset.replicate (copies g interfaces m).length (g.toFramework m.timeStamp) := by
  rw [Multiset.eq_replicate]
  refine ⟨by simp, fun t ht => ?_⟩
  obtain ⟨c, hc, rfl⟩ := List.mem_map.mp (Multiset.mem_coe.mp ht)
  exact copies_time g interfaces m c hc

/-! ## One call -/

/-- Of the tokens of the messages held, one for each. -/
theorem matched_iff : Matched s ↔ s.refused = [] ∧ s.packets.bag = s.times := by
  refine ⟨fun h => ⟨h.refused, h.tokens⟩, fun h => ⟨h.1, h.2, fun m hm => ?_⟩⟩
  have hmem : m.timeStamp ∈ s.packets.bag := by
    rw [h.2]
    exact Multiset.mem_coe.mpr (List.mem_map_of_mem hm)
  rw [OrdMap.mem_bag] at hmem
  rw [Ledger.removeMessageTimeout_eq]
  cases hl : s.packets.lookup m.timeStamp with
  | none => simp [hl] at hmem
  | some v => rfl

/-- What an arrival does: it is dropped, or its tokens are added and it is handed out. -/
theorem arrival_ok (hs : s.step g interfaces packetLostPeriod (.messageReceived currentTime m) = .ok s') :
    s'.refused = s.refused ∧
      (tooOld packetLostPeriod currentTime m = true ∧ s' = s ∨
        tooOld packetLostPeriod currentTime m = false ∧ m.msgFrom ∈ interfaces.dom ∧
          s'.packets = addMessageTimeout interfaces.keys s.packets m.timeStamp m.isBroadCast ∧
          s'.held = s.held ++ if m.isBroadCast then copies g interfaces m else [m]) := by
  simp only [step, messageReceived, handedOut] at hs
  cases hold : tooOld packetLostPeriod currentTime m with
  | true =>
    simp only [hold, if_true, List.append_nil] at hs
    obtain rfl := Except.ok.inj hs
    exact ⟨rfl, .inl ⟨rfl, rfl⟩⟩
  | false =>
    simp only [hold, Bool.false_eq_true, if_false] at hs
    split at hs
    · cases hs
    · next packets hp =>
      split at hp
      · cases hp
      · next hfrom =>
        obtain rfl := Except.ok.inj hp
        obtain rfl := Except.ok.inj hs
        exact ⟨rfl, .inr ⟨rfl, List.mem_toFinset.mpr (Decidable.not_not.mp hfrom), rfl, rfl⟩⟩

/-- An arrival keeps the tokens and the messages matched exactly when it is in time. -/
theorem Matched.arrival (h : Matched s) (hsmall : Small s)
    (hs : s.step g interfaces packetLostPeriod (.messageReceived currentTime m) = .ok s') :
    Matched s' ↔ s.InTime g interfaces packetLostPeriod (.messageReceived currentTime m) := by
  obtain ⟨href, ⟨hold, rfl⟩ | ⟨hold, hfrom, hpackets, hheld⟩⟩ := arrival_ok hs
  · exact iff_of_true h (.inl hold)
  · have hpos : 0 < uintSize := by decide
    have hv := hsmall m.timeStamp
    have hwrap (n : ℕ) : ((s.packets.lookup m.timeStamp).getD 0 + n) % uintSize =
        (s.packets.lookup m.timeStamp).getD 0 + n ↔ (s.packets.lookup m.timeStamp).getD 0 + n < uintSize :=
      Nat.mod_eq_iff_lt (by omega)
    rw [matched_iff, href, h.refused, hpackets, times, hheld, List.map_append, ← Multiset.coe_add, ← times,
      ← h.tokens]
    simp only [true_and, InTime, hold, Bool.false_eq_true, false_or]
    cases hb : m.isBroadCast with
    | false =>
      simp only [Bool.false_eq_true, if_false]
      have hone : (([m].map Message.timeStamp : List TIME) : Multiset TIME) = Multiset.replicate 1 m.timeStamp := rfl
      have hadd : addMessageTimeout interfaces.keys s.packets m.timeStamp false =
          s.packets.insert m.timeStamp (((s.packets.lookup m.timeStamp).getD 0 + 1) % uintSize) := rfl
      rw [hone, hadd, OrdMap.bag_insert_eq_iff, if_pos rfl, hwrap]
      exact and_iff_left fun hne => absurd rfl hne
    | true =>
      simp only [if_true]
      rw [times_copies, addMessageTimeout_broadcast, broadcastTokens_eq g hfrom, Nat.add_mod_mod,
        OrdMap.bag_insert_eq_iff, ← Integrator.toFramework_eq_iff, ← List.length_eq_zero_iff]
      by_cases ht : g.toFramework m.timeStamp = m.timeStamp
      · rw [if_pos ht, hwrap]
        constructor
        · rintro ⟨hroom, -⟩
          exact .inr ⟨ht, hroom⟩
        · rintro (hnone | ⟨-, hroom⟩)
          · rw [hnone]
            exact ⟨hv, fun hne => absurd ht hne⟩
          · exact ⟨hroom, fun hne => absurd ht hne⟩
      · rw [if_neg ht]
        constructor
        · rintro ⟨-, hnone⟩
          exact .inl (hnone ht)
        · rintro (hnone | ⟨ht', -⟩)
          · rw [hnone]
            exact ⟨Nat.mod_eq_of_lt hv, fun _ => rfl⟩
          · exact absurd ht' ht

/-- A message that is sent takes a token of its time, if there is one. -/
theorem sendAll_ok {k : ℕ} (hs : s.step g interfaces packetLostPeriod (.sendAll k) = .ok s') :
    ∃ m, s.held[k]? = some m ∧ s'.packets = s.packets.takeOne m.timeStamp ∧ s'.held = s.held.eraseIdx k ∧
      s'.refused = if (s.packets.lookup m.timeStamp).isSome then s.refused else s.refused ++ [m] := by
  simp only [step, Ledger.removeMessageTimeout_eq] at hs
  split at hs
  · cases hs
  · next m hm =>
    split at hs
    · cases hs
    · split at hs
      · next hr =>
        obtain rfl := Except.ok.inj hs
        obtain ⟨hsome, rfl⟩ := Prod.mk.inj hr
        exact ⟨m, hm, rfl, rfl, by rw [if_pos hsome]⟩
      · next hr =>
        obtain rfl := Except.ok.inj hs
        obtain ⟨hnone, rfl⟩ := Prod.mk.inj hr
        exact ⟨m, hm, rfl, rfl, by rw [hnone, if_neg Bool.false_ne_true]⟩

theorem Small.step (h : Small s) (hs : s.step g interfaces packetLostPeriod e = .ok s') : Small s' := by
  have hpos : 0 < uintSize := by decide
  cases e with
  | messageReceived currentTime m =>
    obtain ⟨-, ⟨-, rfl⟩ | ⟨-, -, hpackets, -⟩⟩ := arrival_ok hs
    · exact h
    · intro t
      rw [hpackets, addMessageTimeout, OrdMap.lookup_insert]
      split
      · exact Nat.mod_lt _ hpos
      · exact h t
  | sendAll k =>
    obtain ⟨m, -, hpackets, -, -⟩ := sendAll_ok hs
    intro t
    have hle := Multiset.count_le_of_le t (OrdMap.takeOne_le s.packets m.timeStamp)
    rw [OrdMap.count_bag, OrdMap.count_bag] at hle
    rw [hpackets]
    exact hle.trans_lt (h t)
  | packetLostCalculator currentTime =>
    obtain rfl := Except.ok.inj hs
    intro t
    have := h t
    simp only [packetLostCalculator, OrdMap.lookup_filter]
    cases hl : s.packets.lookup t with
    | none => exact hpos
    | some v =>
      rw [hl] at this
      by_cases hlt : t < graceTime currentTime packetLostPeriod
      · simpa [hlt, Option.filter] using hpos
      · simpa [hlt, Option.filter] using this

/-- What is held is accepted, and takes its token with it. -/
theorem Matched.sendAll {k : ℕ} (h : Matched s) (hs : s.step g interfaces packetLostPeriod (.sendAll k) = .ok s') :
    Matched s' := by
  obtain ⟨m, hm, hpackets, hheld, hrefused⟩ := sendAll_ok hs
  have hmem : m ∈ s.held := List.mem_of_getElem? hm
  have haccept := h.accepted m hmem
  rw [Ledger.removeMessageTimeout_eq] at haccept
  have haccept : (s.packets.lookup m.timeStamp).isSome = true := haccept
  have htoken : m.timeStamp ∈ s.packets.bag := by
    rw [h.tokens]
    exact Multiset.mem_coe.mpr (List.mem_map_of_mem hmem)
  obtain ⟨hk, hget⟩ := List.getElem?_eq_some_iff.mp hm
  have hperm : List.Perm (m :: s.held.eraseIdx k) s.held := hget ▸ List.getElem_cons_eraseIdx_perm hk
  have htimes : s.times = {m.timeStamp} + ((s.held.eraseIdx k).map Message.timeStamp : List TIME) :=
    (Multiset.coe_eq_coe.mpr (hperm.map Message.timeStamp)).symm
  have hbag := OrdMap.bag_takeOne htoken
  rw [h.tokens, htimes, add_comm] at hbag
  refine matched_iff.mpr ⟨?_, ?_⟩
  · rw [hrefused, if_pos haccept, h.refused]
  · rw [hpackets, times, hheld]
    exact add_left_cancel hbag

/-- What expires takes its tokens with it. -/
theorem Matched.packetLost (h : Matched s)
    (hs : s.step g interfaces packetLostPeriod (.packetLostCalculator currentTime) = .ok s') : Matched s' := by
  obtain rfl := Except.ok.inj hs
  refine matched_iff.mpr ⟨h.refused, ?_⟩
  have hkeep := OrdMap.bag_filter_eq (fun t => !decide (t < graceTime currentTime packetLostPeriod)) s.packets
  rw [packetLostCalculator, hkeep, h.tokens, times, times, Multiset.filter_coe, List.filter_map]
  have hsame : ∀ m : Message, ((fun t => decide ((!decide (t < graceTime currentTime packetLostPeriod)) = true)) ∘
      Message.timeStamp) m = !tooOld packetLostPeriod currentTime m := fun m => Bool.decide_eq_true
  rw [funext hsame]

/-- One call keeps everything matched exactly when it is in time. -/
theorem Matched.step_iff (h : Matched s) (hsmall : Small s)
    (hs : s.step g interfaces packetLostPeriod e = .ok s') : Matched s' ↔ s.InTime g interfaces packetLostPeriod e := by
  cases e with
  | messageReceived currentTime m => exact h.arrival hsmall hs
  | sendAll k => exact iff_of_true (h.sendAll hs) trivial
  | packetLostCalculator currentTime => exact iff_of_true (h.packetLost hs) trivial

theorem matched_start : Matched start := ⟨rfl, rfl, fun m hm => by cases hm⟩

theorem small_start : Small start := fun t => (by decide : 0 < uintSize)

/-- The copies of a broadcast have its time, and in every run every message that is forwarded in time is accepted
against its own token, exactly when the time is one that the constructor keeps or there is nobody to copy for. -/
theorem copies_in_time_iff (g : Integrator) (interfaces : OrdSet String) (packetLostPeriod : TIME) :
    (∀ m, (∀ c ∈ copies g interfaces m, c.timeStamp = m.timeStamp) ↔
      copies g interfaces m = [] ∨ KeepsTime g m.timeStamp) ∧
    ∀ es, Trace.Always (step g interfaces packetLostPeriod) Matched start es ↔
      Trace.Guarded (step g interfaces packetLostPeriod) (InTime g interfaces packetLostPeriod) start es :=
  ⟨copies_keep_iff g interfaces, fun _ =>
    Trace.always_iff_guarded (fun _ _ _ hsmall hs => hsmall.step hs) (fun _ _ _ hsmall h hs => h.step_iff hsmall hs)
      small_start matched_start⟩

/-- A net sim that counts in seconds, with the objects "a" and "b"; "a" broadcasts at 1 s, and the copy is sent. -/
def secondCopied : List Event := [.messageReceived 1000000000 ⟨"a", "*", 1000000000, true⟩, .sendAll 0]

/-- The copy's time is 10⁹ s, and it is refused. -/
theorem copy_refused : (¬ ∀ (g : Integrator) (interfaces : OrdSet String) (m : Message),
      ∀ c ∈ copies g interfaces m, c.timeStamp = m.timeStamp) ∧
    ∃ s, Trace.run (step (.init .seconds 0 1) (.ofList ["a", "b"]) 5000000000) start secondCopied = .ok s ∧
      s.held = [] ∧ s.refused = [⟨"a", "b", 1000000000000000000, true⟩] ∧
      s.packets.lookup 1000000000 = some 1 := by
  refine ⟨fun h => ?_, _, rfl, by decide +kernel, by decide +kernel, by decide +kernel⟩
  have := h (.init .seconds 0 1) (.ofList ["a", "b"]) ⟨"a", "*", 1000000000, true⟩
    ⟨"a", "b", 1000000000000000000, true⟩ (by decide)
  cases this

end Holding

end Fncs

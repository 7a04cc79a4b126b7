/-
The net sim's ledger of held packets over any sequence of arrivals, departures
and expiries: a token that came in is still held, has left with a packet or is
counted as lost, and it is only one of the three.
-/
import Fncs.Lib.Tally
import Fncs.Lib.Trace
import Fncs.Sync.Traffic

namespace Fncs

/-- The ledger, with the bags of what has come in and gone out since the start. -/
structure Ledger where
  packets : OrdMap TIME ℕ
  receiveCount : ℕ
  added : Multiset TIME
  removed : Multiset TIME
  lost : Multiset TIME

namespace Ledger

open CommunicationComManager

/-- The calls that change the ledger. -/
inductive Call
  | addMessageTimeout (msgTime : TIME) (isbroadcast : Bool)
  | removeMessageTimeout (msgTime : TIME)
  | packetLostCalculator (packetLostPeriod currentTime : TIME)
  deriving DecidableEq, Repr

/-- How many tokens an arrival brings. -/
def amount (interfaces : List String) (isbroadcast : Bool) : ℕ := if isbroadcast then interfaces.length - 1 else 1

/-- A net sim that has received `receiveCount` messages and holds nothing. -/
def start (receiveCount : ℕ) : Ledger := ⟨∅, receiveCount, 0, 0, 0⟩

/-- No call fails. -/
def step (interfaces : List String) (l : Ledger) : Call → Except Thrown Ledger
  | .addMessageTimeout t b => .ok { l with
      packets := addMessageTimeout interfaces l.packets t b
      added := l.added + Multiset.replicate (amount interfaces b) t }
  | .removeMessageTimeout t =>
    match removeMessageTimeout l.packets t with
    | (true, packets) => .ok { l with packets := packets, removed := l.removed + {t} }
    | (false, packets) => .ok { l with packets := packets }
  | .packetLostCalculator packetLostPeriod currentTime =>
    let (c, packets) := packetLostCalculator packetLostPeriod currentTime ⟨0, l.receiveCount⟩ l.packets
    .ok { l with
      packets := packets
      receiveCount := c.receiveCount
      lost := l.lost + (CommunicationComManager.lost (graceTime currentTime packetLostPeriod) l.packets).bag }

/-- Times and counters fit their types. -/
def Fits (interfaces : List String) (l : Ledger) : Call → Prop
  | .addMessageTimeout t b => (l.packets.lookup t).getD 0 + amount interfaces b < uintSize
  | .removeMessageTimeout _ => True
  | .packetLostCalculator packetLostPeriod currentTime => packetLostPeriod < ulongSize ∧ currentTime < ulongSize

instance (interfaces : List String) (l : Ledger) : (c : Call) → Decidable (Fits interfaces l c)
  | .addMessageTimeout t b => inferInstanceAs (Decidable ((l.packets.lookup t).getD 0 + amount interfaces b < uintSize))
  | .removeMessageTimeout _ => isTrue trivial
  | .packetLostCalculator packetLostPeriod currentTime =>
    inferInstanceAs (Decidable (packetLostPeriod < ulongSize ∧ currentTime < ulongSize))

/-- Every token that came in is held, removed or lost, and is only one of the three. -/
structure Conserved (receiveCount : ℕ) (l : Ledger) : Prop where
  balance : l.added = l.packets.bag + l.removed + l.lost
  counted : l.receiveCount = (receiveCount + l.lost.card) % ulongSize
  positive : ∀ t v, l.packets.lookup t = some v → 1 ≤ v

variable {interfaces : List String} {l l' : Ledger} {c : Call} {t : TIME} {b : Bool}

/-! ## The calls on the table -/

theorem addMessageTimeout_eq (hi : 2 ≤ interfaces.length)
    (hfit : (l.packets.lookup t).getD 0 + amount interfaces b < uintSize) :
    addMessageTimeout interfaces l.packets t b = l.packets.addCount t (amount interfaces b) := by
  have hval : ((l.packets.lookup t).getD 0 + if b then interfaces.length + (uintSize - 1) else 1) % uintSize =
      (l.packets.lookup t).getD 0 + amount interfaces b := by
    cases b with
    | false => exact Nat.mod_eq_of_lt hfit
    | true =>
      have hpos : 0 < uintSize := by decide
      simp only [amount, if_true] at hfit ⊢
      rw [show (l.packets.lookup t).getD 0 + (interfaces.length + (uintSize - 1)) =
        (l.packets.lookup t).getD 0 + (interfaces.length - 1) + uintSize by omega, Nat.add_mod_right,
        Nat.mod_eq_of_lt hfit]
  rw [addMessageTimeout, OrdMap.addCount]
  exact congrArg _ hval

/-- A removal takes one token when there is an entry. -/
theorem removeMessageTimeout_eq (packets : OrdMap TIME ℕ) (t : TIME) :
    removeMessageTimeout packets t = ((packets.lookup t).isSome, packets.takeOne t) := by
  unfold removeMessageTimeout OrdMap.takeOne
  cases packets.lookup t <;> rfl

theorem amount_pos (hi : 2 ≤ interfaces.length) : 1 ≤ amount interfaces b := by
  unfold amount
  split
  · omega
  · exact Nat.le_refl 1

namespace Conserved

variable {receiveCount : ℕ}

theorem start (h : receiveCount < ulongSize) : Conserved receiveCount (start receiveCount) where
  balance := rfl
  counted := (Nat.mod_eq_of_lt h).symm
  positive := fun t v hv => by cases hv

/-- A removal is accepted exactly when a token of its time is held. -/
theorem removed_iff (h : Conserved receiveCount l) (t : TIME) :
    (removeMessageTimeout l.packets t).1 = true ↔ t ∈ l.packets.bag := by
  rw [removeMessageTimeout_eq, OrdMap.mem_bag]
  cases hl : l.packets.lookup t with
  | none => simp
  | some v => exact iff_of_true rfl (h.positive t v hl)

theorem positive_takeOne (h : Conserved receiveCount l) (t j : TIME) (v : ℕ)
    (hv : (l.packets.takeOne t).lookup j = some v) : 1 ≤ v := by
  unfold OrdMap.takeOne at hv
  split at hv
  · exact h.positive j v hv
  · next w hw =>
    split at hv
    · rw [OrdMap.lookup_erase] at hv
      split at hv
      · cases hv
      · exact h.positive j v hv
    · rw [OrdMap.lookup_insert] at hv
      split at hv
      · obtain rfl := Option.some.inj hv
        omega
      · exact h.positive j v hv

theorem addMessageTimeout (h : Conserved receiveCount l) (hi : 2 ≤ interfaces.length)
    (hfit : Fits interfaces l (.addMessageTimeout t b)) (hs : l.step interfaces (.addMessageTimeout t b) = .ok l') :
    Conserved receiveCount l' := by
  have hadd := addMessageTimeout_eq hi hfit
  obtain rfl := Except.ok.inj hs
  refine ⟨?_, h.counted, fun j v hv => ?_⟩
  · dsimp only
    rw [hadd, OrdMap.bag_addCount, h.balance]
    abel
  · dsimp only at hv
    rw [hadd, OrdMap.addCount, OrdMap.lookup_insert] at hv
    split at hv
    · obtain rfl := Option.some.inj hv
      have := amount_pos (b := b) hi
      omega
    · exact h.positive j v hv

/-- A removal that is refused finds no entry, and changes nothing. -/
theorem removeMessageTimeout (h : Conserved receiveCount l)
    (hs : l.step interfaces (.removeMessageTimeout t) = .ok l') : Conserved receiveCount l' := by
  have hrem := h.removed_iff t
  simp only [Ledger.step, removeMessageTimeout_eq] at hs hrem
  split at hs
  · next packets hr =>
    obtain ⟨hsome, rfl⟩ := Prod.mk.inj hr
    obtain rfl := Except.ok.inj hs
    have htake := OrdMap.bag_takeOne (hrem.mp hsome)
    refine ⟨?_, h.counted, h.positive_takeOne t⟩
    dsimp only
    rw [h.balance, ← htake]
    abel
  · next packets hr =>
    obtain ⟨hnone, rfl⟩ := Prod.mk.inj hr
    obtain rfl := Except.ok.inj hs
    have hsame : l.packets.takeOne t = l.packets := by
      rw [OrdMap.takeOne, Option.isSome_eq_false_iff.mp hnone |> Option.isNone_iff_eq_none.mp]
    rw [hsame]
    exact ⟨h.balance, h.counted, h.positive⟩

/-- What expires is counted as received. -/
theorem packetLostCalculator {packetLostPeriod currentTime : TIME} (h : Conserved receiveCount l)
    (hs : l.step interfaces (.packetLostCalculator packetLostPeriod currentTime) = .ok l') :
    Conserved receiveCount l' := by
  obtain rfl := Except.ok.inj hs
  refine ⟨?_, ?_, fun j v hv => ?_⟩
  · have hsplit := OrdMap.bag_filter (fun t => decide (t < graceTime currentTime packetLostPeriod)) l.packets
    dsimp only [CommunicationComManager.packetLostCalculator, CommunicationComManager.lost]
    rw [h.balance, ← hsplit]
    abel
  · dsimp only [CommunicationComManager.packetLostCalculator]
    rw [Multiset.card_add, OrdMap.card_bag, h.counted, Nat.mod_add_mod, Nat.add_assoc]
  · dsimp only [CommunicationComManager.packetLostCalculator] at hv
    rw [OrdMap.lookup_filter, Option.filter_eq_some_iff] at hv
    exact h.positive j v hv.1

/-- One call keeps the ledger. -/
theorem step (h : Conserved receiveCount l) (hi : 2 ≤ interfaces.length) (hfit : Fits interfaces l c)
    (hs : l.step interfaces c = .ok l') : Conserved receiveCount l' := by
  cases c with
  | addMessageTimeout t b => exact h.addMessageTimeout hi hfit hs
  | removeMessageTimeout t => exact h.removeMessageTimeout hs
  | packetLostCalculator packetLostPeriod currentTime => exact h.packetLostCalculator hs

end Conserved

/-- The ledger holds together, and what the next call would do is known. -/
structure Accounts (receiveCount : ℕ) (l : Ledger) : Prop where
  conserved : Conserved receiveCount l
  total : l.added.card = l.packets.total id + l.removed.card + l.lost.card
  removal : ∀ t, (removeMessageTimeout l.packets t).1 = true ↔ t ∈ l.packets.bag
  expiry : ∀ packetLostPeriod currentTime counters t, packetLostPeriod < ulongSize → currentTime < ulongSize →
    (packetLostCalculator packetLostPeriod currentTime counters l.packets).2.lookup t =
      if t < currentTime - packetLostPeriod then none else l.packets.lookup t

theorem Conserved.accounts {receiveCount : ℕ} (h : Conserved receiveCount l) : Accounts receiveCount l where
  conserved := h
  total := by rw [h.balance, Multiset.card_add, Multiset.card_add, OrdMap.card_bag]
  removal := h.removed_iff
  expiry := by
    intro packetLostPeriod currentTime counters t hp hc
    rw [CommunicationComManager.packetLostCalculator, graceTime_eq hc hp, OrdMap.lookup_filter]
    cases l.packets.lookup t <;> by_cases hlt : t < currentTime - packetLostPeriod <;> simp [hlt]

/-- In every state of every run of the ledger. -/
theorem ledger_conserves (interfaces : List String) (receiveCount : ℕ) (cs : List Call)
    (hi : 2 ≤ interfaces.length) (hr : receiveCount < ulongSize)
    (hg : Trace.Guarded (Ledger.step interfaces) (Fits interfaces) (start receiveCount) cs) :
    Trace.Always (Ledger.step interfaces) (Accounts receiveCount) (start receiveCount) cs :=
  (Trace.always_of_guarded (fun _ _ _ h hfit hs => h.step hi hfit hs) (Conserved.start hr) hg).imp fun _ h =>
    h.accounts

/-- A broadcast to two others and a message of the same time, of which two tokens leave and one is lost. -/
def sharedTime : List Call :=
  [.addMessageTimeout 5 true, .addMessageTimeout 5 false, .addMessageTimeout 9 false, .removeMessageTimeout 5,
    .removeMessageTimeout 7, .removeMessageTimeout 5, .packetLostCalculator 2 8]

theorem ledger_conserves_sharedTime :
    Trace.Always (Ledger.step ["a", "b", "c"]) (Accounts 4) (start 4) sharedTime :=
  ledger_conserves ["a", "b", "c"] 4 sharedTime (by decide) (by decide) (by decide +kernel)

end Ledger

end Fncs

/-
The network delay of a message (`setDeliveryTime`, `adjustNetworkDelay`): the
net sim writes it into the header when it forwards the message, the header
crosses the wire, and the receiver keeps the least one it has read. The clock
the net sim passes to `setDeliveryTime` is a framework time already.
-/
import Fncs.Lib.Trace
import Fncs.Sync.Traffic
import Fncs.Wire.Header

namespace Fncs

/-- `getCurSimTime` when the simulator's clock shows `t`. -/
def Integrator.getCurSimTime (g : Integrator) (t : TIME) : TIME := g.toFramework t

namespace Wire

/-- The time since the message was sent, for a `currentTime` in the unit of the simulator. -/
def Header.setDeliveryTime (h : Header) (g : Integrator) (currentTime : TIME) : Header :=
  { h with networkDeliverytime :=
      UInt64.ofNat (subTime (convertToFrameworkTime g.simTimeMetric currentTime) h.timeStamp.toNat) }

/-- The addressee is `DESTIONATION_BCAST`. -/
def Header.isBroadCast (h : Header) : Bool := h.msgTo.bytes == [42]

/-- What a manager measures with. A null `syncAlgoCallBackRecv` is one that returns true. -/
structure Receiver where
  interfaces : List Name
  packetLostPeriod : TIME
  syncAlgoCallBackRecv : Header → Bool
  minNetworkDelay : TIME

namespace Receiver

def adjustNetworkDelay (r : Receiver) (msgDeliveryTime : TIME) : Receiver :=
  if msgDeliveryTime < r.minNetworkDelay then { r with minNetworkDelay := msgDeliveryTime } else r

/-- `messageReceived`, with whether the message is accepted: not too old, and
not ignored by the synchronization algorithm. -/
def messageReceived (r : Receiver) (currentTime : TIME) (h : Header) : Except Fncs.Thrown (Bool × Receiver) :=
  if h.timeStamp.toNat < graceTime currentTime r.packetLostPeriod then .ok (false, r)
  else if h.isBroadCast then .error .interfaceError
  else if h.msgTo ∉ r.interfaces then .error .objectInterfaceRegistration
  else if r.syncAlgoCallBackRecv h = false then .ok (false, r)
  else .ok (true, r.adjustNetworkDelay h.networkDeliverytime.toNat)

/-- What `reduceNetworkDelay` gives to the reduction of the minimum. -/
def reduceNetworkDelay (r : Receiver) : TIME := r.minNetworkDelay

end Receiver

/-- A net sim that forwards to one receiver. With each envelope goes what it
should measure: the net sim's framework time less the time of the message. -/
structure Delaying where
  receiver : Receiver
  inFlight : List (List UInt8 × TIME)
  /-- The delivery period of each message forwarded, and what it should be. -/
  stored : List (TIME × TIME)
  /-- What the messages accepted should have measured. -/
  accepted : List TIME

namespace Delaying

inductive Event
  /-- The net sim forwards a message when its own clock shows `clock`. -/
  | sendAll (clock : TIME) (h : Header)
  /-- The `k`-th envelope reaches the receiver, at its framework time `currentTime`. -/
  | messageReceived (k : ℕ) (currentTime : TIME)

inductive Halt
  | notAllowed
  | threw (what : Fncs.Thrown)
  | unreadable (what : Thrown)

def start (r : Receiver) : Delaying := ⟨r, [], [], []⟩

def step (g : Integrator) (s : Delaying) : Event → Except Halt Delaying
  | .sendAll clock h =>
    if h.isBroadCast then .error (.threw .operationNotSupported)
    else
      let sent := h.setDeliveryTime g (g.getCurSimTime clock)
      let delay := subTime (g.getCurSimTime clock) h.timeStamp.toNat
      .ok { s with
        inFlight := s.inFlight ++ [(sent.envelope, delay)]
        stored := s.stored ++ [(sent.networkDeliverytime.toNat, delay)] }
  | .messageReceived k currentTime =>
    match s.inFlight[k]? with
    | none => .error .notAllowed
    | some (envelope, delay) =>
      match deserializeHeader envelope (UInt32.ofNat envelope.length) with
      | .error e => .error (.unreadable e)
      | .ok h =>
        match s.receiver.messageReceived currentTime h with
        | .error e => .error (.threw e)
        | .ok (taken, receiver) => .ok { s with
            receiver := receiver
            inFlight := s.inFlight.eraseIdx k
            accepted := if taken then s.accepted ++ [delay] else s.accepted }

/-- Every delivery period is right, and the receiver has the least of those it has accepted. -/
structure Exact (s : Delaying) : Prop where
  stored : ∀ p ∈ s.stored, p.1 = p.2
  least : s.receiver.reduceNetworkDelay = s.accepted.foldl min Infinity

/-- A message is forwarded by a net sim that counts in nanoseconds, or at framework time 0. -/
def Converted (g : Integrator) (_ : Delaying) : Event → Prop
  | .sendAll clock _ => g.simTimeMetric = .nanoseconds ∨ g.getCurSimTime clock = 0
  | _ => True

/-- What is in flight is an envelope with the delivery period that was stored. -/
def Sent (s : Delaying) : Prop :=
  ∀ x ∈ s.inFlight, ∃ h : Header, x.1 = h.envelope ∧ (h.networkDeliverytime.toNat, x.2) ∈ s.stored

variable {g : Integrator} {s s' : Delaying} {e : Event}

theorem mul_mod_eq_self_iff {n s t : ℕ} (hs : 1 ≤ s) (hc : n.Coprime (s - 1)) (ht : t < n) :
    t * s % n = t ↔ t = 0 := by
  constructor
  · intro h
    have hmod : t ≡ t * s [MOD n] := by rw [Nat.ModEq, h, Nat.mod_eq_of_lt ht]
    have hdvd := (Nat.modEq_iff_dvd' (Nat.le_mul_of_pos_right t hs)).mp hmod
    rw [← Nat.mul_sub_one] at hdvd
    exact Nat.eq_zero_of_dvd_of_lt (hc.dvd_of_dvd_mul_right hdvd) ht
  · rintro rfl
    rw [Nat.zero_mul, Nat.zero_mod]

/-- Converting a framework time once more changes it, unless the unit is the nanosecond: a scale less one is odd. -/
theorem convertToFrameworkTime_eq_iff {m : TimeMetric} {t : TIME} (ht : t < ulongSize) :
    convertToFrameworkTime m t = t ↔ m = .nanoseconds ∨ t = 0 := by
  cases m with
  | seconds =>
    have hodd : Nat.Coprime ulongSize (1000000000 - 1) := by norm_num [ulongSize]
    exact (mul_mod_eq_self_iff (by norm_num) hodd ht).trans (by simp)
  | milliseconds =>
    have hodd : Nat.Coprime ulongSize (1000000 - 1) := by norm_num [ulongSize]
    exact (mul_mod_eq_self_iff (by norm_num) hodd ht).trans (by simp)
  | nanoseconds =>
    rw [convertToFrameworkTime, TimeMetric.scale, Nat.mul_one, Nat.mod_eq_of_lt ht]
    simp

/-- Differences to one time are the same for the same times only. -/
theorem subTime_left_inj {a a' b : TIME} (ha : a < ulongSize) (ha' : a' < ulongSize) :
    subTime a b = subTime a' b ↔ a = a' := by
  constructor
  · intro h
    have hmod : a ≡ a' [MOD ulongSize] := (Nat.ModEq.add_right_cancel' _ h)
    rwa [Nat.ModEq, Nat.mod_eq_of_lt ha, Nat.mod_eq_of_lt ha'] at hmod
  · rintro rfl
    rfl

theorem getCurSimTime_lt (g : Integrator) (clock : TIME) : g.getCurSimTime clock < ulongSize :=
  Nat.mod_lt _ (by decide)

/-- The delivery period `sendAll` stores is right exactly when the second conversion changes nothing. -/
theorem setDeliveryTime_iff (g : Integrator) (h : Header) (clock : TIME) :
    (h.setDeliveryTime g (g.getCurSimTime clock)).networkDeliverytime.toNat =
        subTime (g.getCurSimTime clock) h.timeStamp.toNat ↔
      g.simTimeMetric = .nanoseconds ∨ g.getCurSimTime clock = 0 := by
  have hlt := getCurSimTime_lt g clock
  have hconv : convertToFrameworkTime g.simTimeMetric (g.getCurSimTime clock) < ulongSize := Nat.mod_lt _ (by decide)
  have hsub (a b : TIME) : subTime a b % 2 ^ 64 = subTime a b := Nat.mod_mod _ _
  rw [Header.setDeliveryTime, UInt64.toNat_ofNat', hsub, subTime_left_inj hconv hlt, convertToFrameworkTime_eq_iff hlt]

/-! ## One call -/

theorem Sent.step (h : Sent s) (hs : s.step g e = .ok s') : Sent s' := by
  cases e with
  | sendAll clock m =>
    simp only [Delaying.step] at hs
    split at hs
    · cases hs
    · obtain rfl := Except.ok.inj hs
      intro x hx
      rcases List.mem_append.mp hx with hx | hx
      · obtain ⟨m', henv, hstored⟩ := h x hx
        exact ⟨m', henv, List.mem_append_left _ hstored⟩
      · rw [List.mem_singleton.mp hx]
        exact ⟨_, rfl, List.mem_append_right _ List.mem_cons_self⟩
  | messageReceived k currentTime =>
    simp only [Delaying.step] at hs
    split at hs
    · cases hs
    · split at hs
      · cases hs
      · split at hs
        · cases hs
        · obtain rfl := Except.ok.inj hs
          exact fun x hx => h x (List.mem_of_mem_eraseIdx hx)

/-- A message that is accepted lowers the least delay to its own. -/
theorem Receiver.messageReceived_ok {r r' : Receiver} {currentTime : TIME} {m : Header} {taken : Bool}
    (hr : r.messageReceived currentTime m = .ok (taken, r')) :
    r'.reduceNetworkDelay =
      if taken then min r.reduceNetworkDelay m.networkDeliverytime.toNat else r.reduceNetworkDelay := by
  unfold Receiver.messageReceived at hr
  split at hr
  · obtain ⟨rfl, rfl⟩ := Prod.mk.inj (Except.ok.inj hr)
    rfl
  · split at hr
    · cases hr
    · split at hr
      · cases hr
      · split at hr
        · obtain ⟨rfl, rfl⟩ := Prod.mk.inj (Except.ok.inj hr)
          rfl
        · obtain ⟨rfl, rfl⟩ := Prod.mk.inj (Except.ok.inj hr)
          rw [if_pos rfl, Receiver.adjustNetworkDelay]
          split
          · next h => exact (Nat.min_eq_right (Nat.le_of_lt h)).symm
          · next h => exact (Nat.min_eq_left (Nat.not_lt.mp h)).symm

theorem Exact.sendAll_iff {clock : TIME} {m : Header} (h : Exact s) (hs : s.step g (.sendAll clock m) = .ok s') :
    Exact s' ↔ Converted g s (.sendAll clock m) := by
  simp only [Delaying.step] at hs
  split at hs
  · cases hs
  · obtain rfl := Except.ok.inj hs
    rw [Converted, ← setDeliveryTime_iff g m clock]
    constructor
    · intro h'
      exact h'.stored (_, _) (List.mem_append_right _ List.mem_cons_self)
    · intro hright
      refine ⟨fun p hp => ?_, h.least⟩
      rcases List.mem_append.mp hp with hp | hp
      · exact h.stored p hp
      · rw [List.mem_singleton.mp hp]
        exact hright

/-- The receiver reads back the delivery period that was stored. -/
theorem Exact.messageReceived {k : ℕ} {currentTime : TIME} (h : Exact s) (hsent : Sent s)
    (hs : s.step g (.messageReceived k currentTime) = .ok s') : Exact s' := by
  simp only [Delaying.step] at hs
  split at hs
  · cases hs
  · next envelope delay hk =>
    split at hs
    · cases hs
    · next m hm =>
      split at hs
      · cases hs
      · next taken r hr =>
        obtain rfl := Except.ok.inj hs
        obtain ⟨sent, henv, hstored⟩ : ∃ sent : Header, envelope = sent.envelope ∧
            (sent.networkDeliverytime.toNat, delay) ∈ s.stored := hsent _ (List.mem_of_getElem? hk)
        have hlen : (UInt32.ofNat envelope.length).toNat = sent.envelope.length := by
          rw [henv, UInt32.toNat_ofNat', length_envelope, Nat.mod_mod]
        have hread : m = sent := deserializeHeader_envelope hlen (henv ▸ hm)
        have hdelay : m.networkDeliverytime.toNat = delay := by
          rw [hread]
          exact h.stored _ hstored
        refine ⟨h.stored, ?_⟩
        have hmin := Receiver.messageReceived_ok hr
        dsimp only
        rw [hmin, hdelay, h.least]
        split
        · rw [List.foldl_append]
          rfl
        · rfl

/-- A call keeps the measurement exact exactly when what it forwards is converted right. -/
theorem Exact.step_iff (h : Exact s) (hsent : Sent s) (hs : s.step g e = .ok s') : Exact s' ↔ Converted g s e := by
  cases e with
  | sendAll clock m => exact h.sendAll_iff hs
  | messageReceived k currentTime => exact iff_of_true (h.messageReceived hsent hs) trivial

/-- In a run the delivery periods and the least delay are right all along exactly when every message is forwarded by a
net sim that counts in nanoseconds, or at framework time 0. -/
theorem network_delay_exact_iff (g : Integrator) (interfaces : List Name) (packetLostPeriod : TIME)
    (syncAlgoCallBackRecv : Header → Bool) (es : List Event) :
    Trace.Always (step g) Exact (start ⟨interfaces, packetLostPeriod, syncAlgoCallBackRecv, Infinity⟩) es ↔
      Trace.Guarded (step g) (Converted g) (start ⟨interfaces, packetLostPeriod, syncAlgoCallBackRecv, Infinity⟩) es :=
  Trace.always_iff_guarded (fun _ _ _ hsent hs => hsent.step hs) (fun _ _ _ hsent h hs => h.step_iff hsent hs)
    (fun _ hx => absurd hx List.not_mem_nil) ⟨fun _ hp => absurd hp List.not_mem_nil, rfl⟩

/-- A message from "x" to "y" at time 0. -/
def timeZero : Header := ⟨⟨[120], by decide⟩, ⟨[121], by decide⟩, 0, 18446744073709551615, 0, 0, true⟩

/-- A net sim that counts in seconds forwards it after 1 s. -/
def afterSecond : List Event := [.sendAll 1 timeZero, .messageReceived 0 1000000000]

/-- The delay is measured as 10⁹ s. -/
theorem delay_converted_twice :
    (∃ s, Trace.run (step (.init .seconds 0 1))
        (start ⟨[⟨[121], by decide⟩], 5000000000, fun _ => true, Infinity⟩) afterSecond = .ok s ∧
      s.stored = [(1000000000000000000, 1000000000)] ∧ s.accepted = [1000000000] ∧
      s.receiver.reduceNetworkDelay = 1000000000000000000) ∧
    ¬ ∀ (g : Integrator) (interfaces : List Name) (packetLostPeriod : TIME) (syncAlgoCallBackRecv : Header → Bool)
      (es : List Event),
      Trace.Always (step g) Exact (start ⟨interfaces, packetLostPeriod, syncAlgoCallBackRecv, Infinity⟩) es := by
  have hrun : ∃ s, Trace.run (step (.init .seconds 0 1))
        (start ⟨[⟨[121], by decide⟩], 5000000000, fun _ => true, Infinity⟩) afterSecond = .ok s ∧
      s.stored = [(1000000000000000000, 1000000000)] ∧ s.accepted = [1000000000] ∧
      s.receiver.reduceNetworkDelay = 1000000000000000000 := ⟨_, rfl, rfl, rfl, rfl⟩
  refine ⟨hrun, fun hall => ?_⟩
  obtain ⟨s, hs, hstored, -, -⟩ := hrun
  have hright := ((hall _ _ _ _ _).last hs).stored
  rw [hstored] at hright
  exact absurd (hright (1000000000000000000, 1000000000) List.mem_cons_self) (by decide)

end Delaying

end Wire

end Fncs

/-
Routing across forks, over the wire: what becomes of a ROUTE request in the
broker that an initial group, its registrations and any number of forks lead to.

The broker's tables lead to the right process for every object
(`Broker.FamilyInv.routeHandler`). Whether a message gets there is a matter of
its envelope, which `route_handler` receives into 256 bytes, and of the length
of its payload (`routed_iff`).
-/
import Fncs.Broker.Routing
import Fncs.Wire.Zmq

namespace Fncs.Wire

open Broker (HelloGroup Family Fork FamilyInv RoutingCorrect registerFrame fourMembers twoForks)

variable {ι : Type} [LinearOrder ι]

/-- The sender routes the message: the net sim always does, a simulator unless the message is to be delayed. -/
def IsRoute (iAmNetSim : Bool) (m : Message) : Prop := iAmNetSim = true ∨ m.delayThroughComm = false

/-- What the broker makes of the frames that simulator `i` of context `k` writes. -/
def request (b : Broker ι) (i : ι) (k : ℕ) (iAmNetSim : Bool) (m : Message) : Except Fault (Forwarded ι) := do
  let frames ← send iAmNetSim k m
  forward b (.identity i :: frames)

/-- The message is forwarded to `owner` as a ROUTE, whole, and all its frames are read. -/
def Routed (b : Broker ι) (i : ι) (k : ℕ) (iAmNetSim : Bool) (m : Message) (owner : ι) : Prop :=
  request b i k iAmNetSim m = .ok (owner, .control .route :: parts m, [])

/-- The names leave room for the rest of the header in 256 bytes, and the payload's length is an `int`. -/
def Fits (m : Message) : Prop := m.msgFrom.bytes.length + m.msgTo.bytes.length ≤ 227 ∧ m.data.length < 2 ^ 31

instance (m : Message) : Decidable (Fits m) := inferInstanceAs (Decidable (_ ∧ _))

/-- The entry of an object under its name as REGISTER_OBJECT receives it. -/
def recorded (e : ι × Name) : ι × String := (e.1, e.2.received.key)

theorem Fits.length_le {m : Message} (h : Fits m) : m.length ≤ 256 := by
  show m.msgFrom.bytes.length + m.msgTo.bytes.length + 29 ≤ 256
  have := h.1
  omega

/-! ## One message -/

section OneMessage

variable {b : Broker ι} {k : ℕ} {m : Message} {owner : ι}

omit [LinearOrder ι] in
theorem zmqxRecv_eq_ok {bufSize : ℕ} {frames rest : List (Frame ι)} {bytes : List UInt8}
    (h : zmqxRecv bufSize frames = .ok (bytes, rest)) : frames = .bytes bytes :: rest := by
  rw [zmqxRecv.eq_def] at h
  split at h
  · split at h
    · simp only [Except.ok.injEq, Prod.mk.injEq] at h
      obtain ⟨rfl, rfl⟩ := h
      rfl
    · cases h
  · cases h

omit [LinearOrder ι] in
/-- The envelope is sent on as it came. -/
theorem forwardParts_ok {envelope data : List UInt8} {n : ℕ} {out : List (Frame ι)}
    (h : forwardParts envelope data n = .ok out) : out.head? = some (.bytes envelope) := by
  rw [forwardParts] at h
  split at h
  · split at h
    · cases h
    · obtain ⟨payload, -, h⟩ := Trace.seq_eq_ok.mp h
      obtain rfl := Except.ok.inj h
      rfl
  · obtain ⟨last, hl, h⟩ := Trace.seq_eq_ok.mp h
    obtain rfl := Except.ok.inj h
    rw [zmqxSend] at hl
    split at hl
    · rw [← Except.ok.inj hl]
      rfl
    · cases hl

/-- What is forwarded begins with the envelope, which was received into 256 bytes. -/
theorem routeHandler_ok {frames out left : List (Frame ι)}
    (h : routeHandler b k frames = .ok (owner, .control .route :: out, left)) :
    ∃ envelope, frames.head? = some (.bytes envelope) ∧ out.head? = some (.bytes envelope) ∧
      envelope.length % 2 ^ 32 ≤ 256 := by
  obtain ⟨⟨envelope, rest⟩, henv, h⟩ := Trace.seq_eq_ok.mp h
  obtain ⟨header, -, h⟩ := Trace.seq_eq_ok.mp h
  obtain ⟨⟨data, rest'⟩, -, h⟩ := Trace.seq_eq_ok.mp h
  obtain ⟨objectOwner, -, h⟩ := Trace.seq_eq_ok.mp h
  obtain ⟨sent, hsent, h⟩ := Trace.seq_eq_ok.mp h
  simp only [Except.ok.injEq, Prod.mk.injEq, List.cons.injEq, true_and] at h
  obtain ⟨-, rfl, -⟩ := h
  exact ⟨envelope, by rw [zmqxRecv_eq_ok henv]; rfl, forwardParts_ok hsent, zmqxRecv_ok henv⟩

omit [LinearOrder ι] in
/-- The frames of a ROUTE begin with the context, the control word and the envelope. -/
theorem send_ok {iAmNetSim : Bool} {frames : List (Frame ι)} (hr : IsRoute iAmNetSim m)
    (h : send iAmNetSim k m = .ok frames) :
    ∃ rest, frames = .context k :: .control .route :: .bytes m.envelope :: rest := by
  have hc : (if iAmNetSim then Control.route else if m.delayThroughComm then .delay else .route) = .route := by
    rcases hr with hn | hd
    · simp [hn]
    · simp [hd]
  unfold send at h
  rw [hc] at h
  dsimp only at h
  split at h
  · obtain ⟨payload, -, h⟩ := Trace.seq_eq_ok.mp h
    exact ⟨[payload], (Except.ok.inj h).symm⟩
  · obtain ⟨last, hl, h⟩ := Trace.seq_eq_ok.mp h
    rw [zmqxSend] at hl
    split at hl
    · rw [← Except.ok.inj hl] at h
      exact ⟨[], (Except.ok.inj h).symm⟩
    · cases hl

theorem forward_route (hk : k < b.ctxs.length) (i : ι) (frames : List (Frame ι)) :
    forward b (.identity i :: .context k :: .control .route :: frames) = routeHandler b k frames := by
  rw [forward, if_neg fun h => absurd hk (not_lt.mpr h.1)]

/-- A ROUTE to an object in the tables goes through exactly when it fits. -/
theorem routed_iff (hb : b.routeHandler k m.msgTo.received.key = .ok owner) (hk : k < b.ctxs.length) (i : ι)
    {iAmNetSim : Bool} (hr : IsRoute iAmNetSim m) : Routed b i k iAmNetSim m owner ↔ Fits m := by
  constructor
  · intro h
    obtain ⟨frames, hsend, h⟩ := Trace.seq_eq_ok.mp h
    obtain ⟨rest, rfl⟩ := send_ok hr hsend
    rw [forward_route hk] at h
    obtain ⟨envelope, hin, hout, hle⟩ := routeHandler_ok h
    obtain rfl : m.envelope = envelope := by simpa using hin
    have henv : (serializeHeader m.toHeader).1 = m.envelope := by simpa [parts] using hout
    have hlen : m.length = m.length % 2 ^ 32 := by
      rw [← length_envelope, ← henv, length_serializeHeader]
    rw [length_envelope, Nat.mod_mod, ← hlen] at hle
    have hsum : m.msgFrom.bytes.length + m.msgTo.bytes.length + 29 ≤ 256 := hle
    exact ⟨by omega, data_lt_of_send hsend⟩
  · intro h
    have hto : m.msgTo.received = m.msgTo := Name.received_of_le (by have := h.1; omega)
    have hc : (if iAmNetSim then Control.route else if m.delayThroughComm then .delay else .route) = .route := by
      rcases hr with hn | hd
      · simp [hn]
      · simp [hd]
    rw [Routed, request, send_fits h.length_le h.2, hc, ok_bind, forward_route hk]
    exact routeHandler_fits h.length_le h.2 (hto ▸ hb)

end OneMessage

/-! ## Any number of forks -/

/-- The logical ids and net sims of every context, and its further forks, are
right; and every ROUTE of a message of `M` to an object reaches the one member of
the context that descends from the object's owner. -/
structure RoutingSurvives (g : HelloGroup ι) (objs : List (ι × Name)) (s : Family ι) (M : Message → Prop) : Prop where
  tables : RoutingCorrect g s
  route : ∀ k c, s.broker.ctxs[k]? = some c → ∀ e ∈ objs, e.1 ≠ g.netSim →
    ∃ owner, (∀ j, j ∈ c.contexts.dom ∧ s.ancestor j = e.1 ↔ j = owner) ∧
      ∀ m, M m → m.msgTo = e.2 → ∀ i iAmNetSim, IsRoute iAmNetSim m → Routed s.broker i k iAmNetSim m owner

section Runs

variable {g : HelloGroup ι} {objs : List (ι × Name)} {s : Family ι}

/-- Where an object's messages go in a context. -/
theorem exists_owner (h : FamilyInv g (objs.map recorded) s) {k : ℕ} {c : Broker.Context ι}
    (hc : s.broker.ctxs[k]? = some c) {e : ι × Name} (he : e ∈ objs) (hne : e.1 ≠ g.netSim) :
    ∃ owner, (∀ j, j ∈ c.contexts.dom ∧ s.ancestor j = e.1 ↔ j = owner) ∧
      ∀ m, m.msgTo = e.2 → ∀ i iAmNetSim, IsRoute iAmNetSim m →
        (Routed s.broker i k iAmNetSim m owner ↔ Fits m) := by
  obtain ⟨owner, howner, huniq⟩ := h.routeHandler hc (List.mem_map_of_mem (f := recorded) he) hne
  exact ⟨owner, huniq, fun m hm i _ hr => routed_iff (by rw [hm]; exact howner) (List.getElem?_eq_some_iff.mp hc).1 i hr⟩

/-- Routing survives any number of forks exactly for the messages that fit. -/
theorem routing_survives_forks_iff (g : HelloGroup ι) {objs : List (ι × Name)} {b : Broker ι} {Fs : List (Fork ι)}
    {s : Family ι} (M : Message → Prop)
    (hstart : Trace.run Broker.advance (Broker.init g.size)
      (g.frames ++ (objs.map recorded).map registerFrame) = .ok b)
    (hrun : Trace.run Family.step (Family.start g b) Fs = .ok s) :
    RoutingSurvives g objs s M ↔ ∀ m, M m → ∀ e ∈ objs, e.1 ≠ g.netSim → m.msgTo = e.2 → Fits m := by
  have h := Broker.familyInv_of_run hstart hrun
  constructor
  · intro hs m hm e he hne hto
    obtain ⟨c, hc⟩ := List.exists_mem_of_ne_nil _ (Broker.ctxs_ne_nil_of_run hstart hrun)
    obtain ⟨k, hk⟩ := List.mem_iff_getElem?.mp hc
    obtain ⟨owner, huniq, hroute⟩ := hs.route k c hk e he hne
    obtain ⟨owner', huniq', hiff⟩ := exists_owner h hk he hne
    obtain rfl : owner = owner' := (huniq' owner).mp ((huniq owner).mpr rfl)
    exact (hiff m hto g.netSim true (.inl rfl)).mp (hroute m hm hto g.netSim true (.inl rfl))
  · intro hfits
    refine ⟨h.routing, fun k c hc e he hne => ?_⟩
    obtain ⟨owner, huniq, hiff⟩ := exists_owner h hc he hne
    exact ⟨owner, huniq, fun m hm hto i _ hr => (hiff m hto i _ hr).mpr (hfits m hm e he hne hto)⟩

end Runs

/-! ## Two forks -/

/-- Simulator 0 registers an object whose name has `n` letters, and the net sim one of its own. -/
def lettersOf (n : ℕ) : List (ℕ × Name) := [(0, letters n), (3, ⟨[110], by simp⟩)]

/-- The family after both forks, when both work out. -/
theorem exists_twoForks (objs : List (ℕ × Name)) (p : Family ℕ → Bool)
    (h : Trace.endsIn (fun b => Trace.endsIn p (Trace.run Family.step (Family.start fourMembers b) twoForks))
      (Trace.run Broker.advance (Broker.init 4) (fourMembers.frames ++ (objs.map recorded).map registerFrame)) = true) :
    ∃ b s, Trace.run Broker.advance (Broker.init 4) (fourMembers.frames ++ (objs.map recorded).map registerFrame) = .ok b ∧
      Trace.run Family.step (Family.start fourMembers b) twoForks = .ok s ∧ p s = true := by
  obtain ⟨b, hb, hp⟩ := Trace.exists_run_of_check _ _ _ _ h
  obtain ⟨s, hs, hp⟩ := Trace.exists_run_of_check _ _ _ _ hp
  exact ⟨b, s, hb, hs, hp⟩

theorem routing_survives_two_forks : ∃ b s,
    Trace.run Broker.advance (Broker.init 4)
      (fourMembers.frames ++ ((lettersOf 5).map recorded).map registerFrame) = .ok b ∧
    Trace.run Family.step (Family.start fourMembers b) twoForks = .ok s ∧ s.broker.ctxs.length = 3 ∧
    RoutingSurvives fourMembers (lettersOf 5) s fun m => m = sampleMessage (letters 222) (letters 5) := by
  obtain ⟨b, s, hb, hs, hp⟩ := exists_twoForks (lettersOf 5) (fun s => s.broker.ctxs.length == 3) (by decide +kernel)
  refine ⟨b, s, hb, hs, by simpa using hp, (routing_survives_forks_iff fourMembers _ hb hs).mpr ?_⟩
  rintro m rfl e - - -
  simp only [Fits, sampleMessage, letters, List.length_replicate]
  norm_num

/-- After both forks, the ROUTE of a message between names of 114 letters fails an assertion of the broker. -/
theorem long_names_not_routed : ∃ b s,
    Trace.run Broker.advance (Broker.init 4)
      (fourMembers.frames ++ ((lettersOf 114).map recorded).map registerFrame) = .ok b ∧
    Trace.run Family.step (Family.start fourMembers b) twoForks = .ok s ∧
    request s.broker 23 0 true (sampleMessage (letters 114) (letters 114)) = .error .assertion ∧
    ¬ RoutingSurvives fourMembers (lettersOf 114) s fun m => m = sampleMessage (letters 114) (letters 114) := by
  obtain ⟨b, s, hb, hs, hp⟩ := exists_twoForks (lettersOf 114)
    (fun s => assertionFails (request s.broker 23 0 true (sampleMessage (letters 114) (letters 114)))) (by decide +kernel)
  have hf := eq_of_assertionFails hp
  refine ⟨b, s, hb, hs, hf, fun h => ?_⟩
  obtain ⟨c, hc⟩ : ∃ c, s.broker.ctxs[0]? = some c := by
    have := Broker.ctxs_ne_nil_of_run hb hs
    exact ⟨_, List.getElem?_eq_getElem (List.length_pos_of_ne_nil this)⟩
  obtain ⟨owner, -, hroute⟩ := h.route 0 c hc (0, letters 114) (by simp [lettersOf]) (by decide)
  have := hroute _ rfl rfl 23 true (.inl rfl)
  rw [Routed, hf] at this
  cases this

end Fncs.Wire

/-
A message on its way over ZMQ: the frames `ZmqNetworkInterface::send` writes,
what the broker's `route_handler` and `delay_handler` make of them, and
`ZmqNetworkInterface::processAsyncMessage` at the receiver.

Identities, context numbers and control words arrive as they were sent: they
are short. The envelope and the payload are received into buffers of a given
size, and the lengths the socket calls return are C `int`s.
-/
import Fncs.Broker.Registration
import Fncs.Wire.Header

namespace Fncs.Wire

variable {ι : Type} [LinearOrder ι]

inductive Control
  | route
  | delay
  deriving DecidableEq, Repr

/-- A frame of a multipart message. -/
inductive Frame (ι : Type)
  | identity (i : ι)
  | context (k : ℕ)
  | control (c : Control)
  | bytes (b : List UInt8)
  deriving DecidableEq, Repr

/-- Why a message does not get through. -/
inductive Fault
  | assertion
  | thrown (why : Thrown)
  | stopped (why : Broker.Stop)
  /-- The next frame is missing or of another kind. -/
  | unexpectedFrame
  /-- A buffer is sent, or taken for a payload, beyond what was received into it. -/
  | uninitialised
  deriving DecidableEq, Repr

/-! ## The socket calls -/

/-- `zmqx_send` of a buffer. -/
def zmqxSend (bytes : List UInt8) : Except Fault (Frame ι) :=
  if 0 ≤ intOfLength bytes.length then .ok (.bytes bytes) else .error .assertion

/-- `zmqx_sendmore` of a buffer: the size returned is compared as an unsigned number. -/
def zmqxSendmore (bytes : List UInt8) : Frame ι := .bytes bytes

/-- `zmqx_recv` into a buffer: what was received, and the frames left. -/
def zmqxRecv (bufSize : ℕ) : List (Frame ι) → Except Fault (List UInt8 × List (Frame ι))
  | .bytes b :: rest =>
    if 0 ≤ intOfLength b.length ∧ intOfLength b.length ≤ bufSize then .ok (b, rest) else .error .assertion
  | _ => .error .unexpectedFrame

/-- `new Message(envelope, envelopeSize)`. -/
def newMessage (envelope : List UInt8) : Except Fault Header :=
  match deserializeHeader envelope (UInt32.ofNat envelope.length) with
  | .error e => .error (.thrown e)
  | .ok h => .ok h

/-- The payload frame, when the header announces one. -/
def recvPayload (message : Header) (frames : List (Frame ι)) : Except Fault (List UInt8 × List (Frame ι)) :=
  if message.size > 0 then zmqxRecv message.size.toNat frames else .ok ([], frames)

/-! ## The sender -/

def send (iAmNetSim : Bool) (context : ℕ) (m : Message) : Except Fault (List (Frame ι)) :=
  let envelope := m.envelope
  let control := if iAmNetSim then .route else if m.delayThroughComm then .delay else .route
  if m.size > 0 then do
    let payload ← zmqxSend m.data
    .ok [.context context, .control control, zmqxSendmore envelope, payload]
  else do
    let last ← zmqxSend envelope
    .ok [.context context, .control control, last]

/-! ## The broker -/

/-- An object's name as the key of the broker's table. -/
def Name.key (n : Name) : String := String.ofList (n.bytes.map fun b => Char.ofNat b.toNat)

/-- The name REGISTER_OBJECT receives: at most 255 bytes of it. -/
def Name.received (n : Name) : Name := ⟨n.bytes.take 255, fun h => n.noNul (List.mem_of_mem_take h)⟩

/-- The addressee, the frames forwarded, and the frames of the request that were not read. -/
abbrev Forwarded (ι : Type) := ι × List (Frame ι) × List (Frame ι)

/-- Running a handler of the broker's tables. -/
def ofBroker {α : Type} : Except Broker.Stop α → Except Fault α
  | .error e => .error (.stopped e)
  | .ok a => .ok a

/-- What both handlers send on: a payload frame follows when there is a payload. -/
def forwardParts (envelope data : List UInt8) (dataSize : ℕ) : Except Fault (List (Frame ι)) :=
  if dataSize > 0 then
    if data.length < dataSize then .error .uninitialised
    else do
      let payload ← zmqxSend (data.take dataSize)
      .ok [zmqxSendmore envelope, payload]
  else do
    let last ← zmqxSend envelope
    .ok [last]

def routeHandler (b : Broker ι) (context : ℕ) (frames : List (Frame ι)) : Except Fault (Forwarded ι) := do
  let (envelope, frames) ← zmqxRecv 256 frames
  let message ← newMessage envelope
  let (data, frames) ← recvPayload message frames
  let objectOwner ← ofBroker (b.routeHandler context message.msgTo.key)
  let parts ← forwardParts envelope data message.size.toNat
  .ok (objectOwner, .control .route :: parts, frames)

/-- Here the size of the payload is the received one. -/
def delayHandler (b : Broker ι) (context : ℕ) (frames : List (Frame ι)) : Except Fault (Forwarded ι) := do
  let (envelope, frames) ← zmqxRecv 256 frames
  let message ← newMessage envelope
  let (data, frames) ← recvPayload message frames
  match ← ofBroker (b.delayHandler context) with
  | none => .error .assertion
  | some netSim =>
    let parts ← forwardParts envelope data data.length
    .ok (netSim, .control .delay :: parts, frames)

/-- The asynchronous half of the main loop. -/
def forward (b : Broker ι) : List (Frame ι) → Except Fault (Forwarded ι)
  | .identity _ :: .context k :: .control control :: frames =>
    if b.ctxs.length ≤ k ∧ b.ctxs ≠ [] then .error (.stopped (.gracefulDeath .invalidContext))
    else
      match control with
      | .route => routeHandler b k frames
      | .delay => delayHandler b k frames
  | _ => .error .unexpectedFrame

/-! ## The receiver -/

/-- The message built, whether DIE was sent for a wrong control word, and the frames not read. -/
structure Received (ι : Type) where
  message : Message
  die : Bool
  left : List (Frame ι)
  deriving DecidableEq, Repr

/-- `setData` with what was received. -/
def setData (h : Header) (data : List UInt8) : Except Fault Message :=
  if hd : data.length = h.size.toNat then .ok { h with data := data, size_data := hd }
  else .error .uninitialised

def processAsyncMessage (iAmNetSim : Bool) : List (Frame ι) → Except Fault (Received ι)
  | .control control :: frames => do
    let die := if iAmNetSim then control != .delay else control != .route
    let (envelope, frames) ← zmqxRecv 256 frames
    let message ← newMessage envelope
    let (data, frames) ← recvPayload message frames
    let message ← setData message data
    .ok ⟨message, die, frames⟩
  | _ => .error .unexpectedFrame

/-! ## End to end -/

/-- Who gets the message, what it gets, and the frames the broker has left unread. -/
structure Delivery (ι : Type) where
  receiver : ι
  received : Received ι
  left : List (Frame ι)
  deriving DecidableEq, Repr

/-- One message from simulator `i` of context `k` to the simulator the broker forwards it to. -/
def transmit (b : Broker ι) (i : ι) (k : ℕ) (iAmNetSim : Bool) (m : Message) : Except Fault (Delivery ι) := do
  let frames ← send iAmNetSim k m
  let (receiver, out, left) ← forward b (.identity i :: frames)
  let netSim ← ofBroker (b.delayHandler k)
  let received ← processAsyncMessage (netSim == some receiver) out
  .ok ⟨receiver, received, left⟩

/-- The context has a net sim, and the name is that of a registered object of another member. -/
structure Deliverable (b : Broker ι) (k : ℕ) (name : Name) (netSim owner : ι) : Prop where
  netSimID : b.delayHandler k = .ok (some netSim)
  registered : b.routeHandler k name.received.key = .ok owner
  owner_ne : owner ≠ netSim

/-- Who a message is for: the net sim, when it is to be delayed. -/
def addressee (iAmNetSim : Bool) (m : Message) (netSim owner : ι) : ι :=
  if iAmNetSim = false ∧ m.delayThroughComm = true then netSim else owner

/-- The message arrives as it was sent, all its frames are read, and nothing fails on the way. -/
def Faithful (b : Broker ι) (i : ι) (k : ℕ) (iAmNetSim : Bool) (m : Message) (receiver : ι) : Prop :=
  transmit b i k iAmNetSim m = .ok ⟨receiver, ⟨m, false, []⟩, []⟩

/-! ## Lengths -/

section Calls

variable {b : List UInt8} {frames rest : List (Frame ι)} {bufSize : ℕ}

omit [LinearOrder ι] in
theorem zmqxSend_of_lt (h : b.length < 2 ^ 31) : (zmqxSend b : Except Fault (Frame ι)) = .ok (.bytes b) := by
  rw [zmqxSend, intOfLength_of_lt h, if_pos (Int.natCast_nonneg _)]

omit [LinearOrder ι] in
theorem zmqxSend_ok {f : Frame ι} (h : zmqxSend b = .ok f) : b.length % 2 ^ 32 < 2 ^ 31 := by
  rw [zmqxSend] at h
  split at h
  · next h0 => exact (mod_le_of_intOfLength h0 (Int.self_le_toNat _)).2
  · cases h

omit [LinearOrder ι] in
theorem zmqxRecv_of_le (h : b.length ≤ bufSize) (h' : b.length < 2 ^ 31) :
    zmqxRecv bufSize (.bytes b :: rest) = .ok (b, rest) := by
  rw [zmqxRecv, intOfLength_of_lt h', if_pos ⟨Int.natCast_nonneg _, Int.ofNat_le.mpr h⟩]

omit [LinearOrder ι] in
theorem zmqxRecv_ok (h : zmqxRecv bufSize frames = .ok (b, rest)) : b.length % 2 ^ 32 ≤ bufSize := by
  rw [zmqxRecv.eq_def] at h
  split at h
  · split at h
    · next h0 =>
      simp only [Except.ok.injEq, Prod.mk.injEq] at h
      obtain ⟨rfl, -⟩ := h
      exact (mod_le_of_intOfLength h0.1 h0.2).1
    · cases h
  · cases h

/-- A header that is built is as long as its envelope. -/
theorem newMessage_ok {h : Header} (hn : newMessage b = .ok h) : h.length = b.length % 2 ^ 32 := by
  rw [newMessage] at hn
  split at hn
  · cases hn
  · next hd =>
    obtain rfl := Except.ok.inj hn
    have hl := length_of_deserializeHeader hd
    have hu : (UInt32.ofNat b.length).toNat = b.length % 2 ^ 32 := UInt32.toNat_ofNat'
    rw [hu, List.length_take] at hl
    have := Nat.mod_le b.length (2 ^ 32)
    omega

end Calls

theorem newMessage_serializeHeader {h : Header} (hlen : h.length < 2 ^ 32) :
    newMessage (serializeHeader h).1 = .ok h := by
  have hu : (UInt32.ofNat (serializeHeader h).1.length).toNat = (serializeHeader h).1.length := by
    rw [UInt32.toNat_ofNat', length_serializeHeader, Nat.mod_eq_of_lt hlen]
  rw [newMessage, deserializeHeader_whole hu]

/-! ## A message that fits -/

theorem ok_bind {ε α β : Type} (a : α) (f : α → Except ε β) : (Except.ok a >>= f) = f a := rfl

section Fits

variable {m : Message}

/-- The frames that carry a message. -/
def parts (m : Message) : List (Frame ι) :=
  .bytes (serializeHeader m.toHeader).1 :: if m.size > 0 then [.bytes m.data] else []

theorem data_of_size_not_pos (hs : ¬ m.size > 0) : m.data = [] := by
  have h0 : m.size.toNat = 0 := by
    rw [gt_iff_lt, UInt32.lt_iff_toNat_lt] at hs
    exact Nat.eq_zero_of_not_pos hs
  exact List.length_eq_zero_iff.mp (m.size_data.trans h0)

theorem toNat_size_pos (hs : m.size > 0) : 0 < m.size.toNat := UInt32.lt_iff_toNat_lt.mp hs

variable (hlen : m.length ≤ 256) (hdata : m.data.length < 2 ^ 31)

include hlen

theorem envelope_length : (serializeHeader m.toHeader).1.length < 2 ^ 31 := by
  rw [length_serializeHeader]
  omega

omit [LinearOrder ι] in
theorem zmqxRecv_envelope (rest : List (Frame ι)) :
    zmqxRecv 256 (.bytes (serializeHeader m.toHeader).1 :: rest) = .ok ((serializeHeader m.toHeader).1, rest) :=
  zmqxRecv_of_le ((length_serializeHeader _).trans_le hlen) (envelope_length hlen)

theorem newMessage_envelope : newMessage (serializeHeader m.toHeader).1 = .ok m.toHeader :=
  newMessage_serializeHeader (hlen.trans_lt (by norm_num))

include hdata

omit [LinearOrder ι] in
theorem send_fits (iAmNetSim : Bool) (k : ℕ) : (send iAmNetSim k m : Except Fault (List (Frame ι))) =
    .ok (.context k :: .control (if iAmNetSim then .route else if m.delayThroughComm then .delay else .route) ::
      parts m) := by
  rw [send]
  simp only [envelope_of_lt (h := m.toHeader) (hlen.trans_lt (by norm_num))]
  by_cases hs : m.size > 0
  · rw [if_pos hs, zmqxSend_of_lt hdata, parts, if_pos hs]
    rfl
  · rw [if_neg hs, zmqxSend_of_lt (envelope_length hlen), parts, if_neg hs]
    rfl

omit [LinearOrder ι] in
theorem forwardParts_fits : (forwardParts (serializeHeader m.toHeader).1 m.data m.size.toNat :
    Except Fault (List (Frame ι))) = .ok (parts m) := by
  rw [forwardParts]
  by_cases hs : m.size > 0
  · rw [if_pos (toNat_size_pos hs), if_neg (by rw [m.size_data]; exact lt_irrefl _),
      List.take_of_length_le m.size_data.le]
    rw [zmqxSend_of_lt hdata, ok_bind, parts, if_pos hs, zmqxSendmore]
  · have h0 : ¬ m.size.toNat > 0 := fun h => hs (UInt32.lt_iff_toNat_lt.mpr h)
    rw [if_neg h0, zmqxSend_of_lt (envelope_length hlen), ok_bind, parts, if_neg hs]

omit hlen [LinearOrder ι] in
theorem recvPayload_fits :
    recvPayload m.toHeader (if m.size > 0 then [.bytes m.data] else []) = .ok (m.data, ([] : List (Frame ι))) := by
  rw [recvPayload]
  by_cases hs : m.size > 0
  · rw [if_pos hs, if_pos hs, zmqxRecv_of_le m.size_data.le hdata]
  · rw [if_neg hs, if_neg hs, data_of_size_not_pos hs]

theorem routeHandler_fits {b : Broker ι} {k : ℕ} {owner : ι} (h : b.routeHandler k m.msgTo.key = .ok owner) :
    routeHandler b k (parts m) = .ok (owner, .control .route :: parts m, []) := by
  have hb : ofBroker (b.routeHandler k m.msgTo.key) = .ok owner := by rw [h, ofBroker]
  rw [routeHandler, parts, zmqxRecv_envelope hlen, ok_bind]
  dsimp only
  rw [newMessage_envelope hlen, ok_bind, recvPayload_fits hdata, ok_bind]
  dsimp only
  rw [hb, ok_bind, forwardParts_fits hlen hdata, ok_bind, parts]

theorem delayHandler_fits {b : Broker ι} {k : ℕ} {netSim : ι} (h : b.delayHandler k = .ok (some netSim)) :
    delayHandler b k (parts m) = .ok (netSim, .control .delay :: parts m, []) := by
  have hb : ofBroker (b.delayHandler k) = .ok (some netSim) := by rw [h, ofBroker]
  rw [delayHandler, parts, zmqxRecv_envelope hlen, ok_bind]
  dsimp only
  rw [newMessage_envelope hlen, ok_bind, recvPayload_fits hdata, ok_bind]
  dsimp only
  rw [hb, ok_bind]
  dsimp only
  rw [m.size_data, forwardParts_fits hlen hdata, ok_bind, parts]

omit [LinearOrder ι] in
theorem processAsyncMessage_fits (iAmNetSim : Bool) (control : Control)
    (hc : control = if iAmNetSim then .delay else .route) :
    processAsyncMessage iAmNetSim (.control control :: parts (ι := ι) m) = .ok ⟨m, false, []⟩ := by
  have hdie : (if iAmNetSim then control != .delay else control != .route) = false := by
    subst hc
    cases iAmNetSim <;> rfl
  have hset : setData m.toHeader m.data = .ok m := dif_pos m.size_data
  rw [processAsyncMessage, parts, zmqxRecv_envelope hlen, ok_bind]
  dsimp only
  rw [newMessage_envelope hlen, ok_bind, recvPayload_fits hdata, ok_bind]
  dsimp only
  rw [hset, ok_bind, hdie]

end Fits

/-! ## Exactly the messages that fit -/

theorem Name.received_of_le {n : Name} (h : n.bytes.length ≤ 255) : n.received = n := by
  cases n
  simp only [Name.received, Name.mk.injEq]
  exact List.take_of_length_le h

/-- The broker forwards a message that fits to its addressee. -/
theorem forward_fits {b : Broker ι} {i : ι} {k : ℕ} {m : Message} {netSim owner : ι} {control : Control}
    (hd : Deliverable b k m.msgTo netSim owner) (hlen : m.length ≤ 256) (hdata : m.data.length < 2 ^ 31) :
    forward b (.identity i :: .context k :: .control control :: parts m) =
      .ok (if control = .delay then netSim else owner, .control control :: parts m, []) := by
  have hk : ¬ (b.ctxs.length ≤ k ∧ b.ctxs ≠ []) := by
    obtain ⟨c, hc, -⟩ := Trace.seq_eq_ok.mp hd.netSimID
    exact fun h => absurd (List.getElem?_eq_some_iff.mp (Broker.context_ok.mp hc)).1 (not_lt.mpr h.1)
  have hto : m.msgTo.received = m.msgTo := by
    refine Name.received_of_le ?_
    have hl : m.msgFrom.bytes.length + m.msgTo.bytes.length + 29 ≤ 256 := hlen
    omega
  simp only [forward, if_neg hk]
  cases control with
  | route => exact routeHandler_fits hlen hdata (hto ▸ hd.registered)
  | delay => exact delayHandler_fits hlen hdata hd.netSimID

theorem faithful_of_fits {b : Broker ι} {k : ℕ} {m : Message} {netSim owner : ι}
    (hd : Deliverable b k m.msgTo netSim owner) (i : ι) (iAmNetSim : Bool) (hlen : m.length ≤ 256)
    (hdata : m.data.length < 2 ^ 31) : Faithful b i k iAmNetSim m (addressee iAmNetSim m netSim owner) := by
  have hnet : ofBroker (b.delayHandler k) = .ok (some netSim) := by rw [hd.netSimID, ofBroker]
  rw [Faithful, transmit, send_fits hlen hdata, ok_bind, forward_fits hd hlen hdata, ok_bind]
  dsimp only
  rw [hnet, ok_bind]
  by_cases hv : iAmNetSim = false ∧ m.delayThroughComm = true
  · rw [processAsyncMessage_fits hlen hdata _ _ (by simp [hv.1, hv.2]), ok_bind, addressee, if_pos hv]
    simp [hv.1, hv.2]
  · have hc : (if iAmNetSim then Control.route else if m.delayThroughComm then .delay else .route) = .route := by
      cases iAmNetSim <;> cases hm : m.delayThroughComm <;> simp_all
    rw [hc, if_neg (by decide), processAsyncMessage_fits hlen hdata _ _ (by simp [Ne.symm hd.owner_ne]), ok_bind,
      addressee, if_neg hv]

omit [LinearOrder ι] in
theorem length_le_of_received {iAmNetSim : Bool} {frames : List (Frame ι)} {r : Received ι}
    (h : processAsyncMessage iAmNetSim frames = .ok r) : r.message.length ≤ 256 := by
  rw [processAsyncMessage.eq_def] at h
  split at h
  · obtain ⟨⟨env, rest⟩, henv, h⟩ := Trace.seq_eq_ok.mp h
    obtain ⟨hdr, hhdr, h⟩ := Trace.seq_eq_ok.mp h
    obtain ⟨⟨data, rest'⟩, -, h⟩ := Trace.seq_eq_ok.mp h
    obtain ⟨msg, hmsg, h⟩ := Trace.seq_eq_ok.mp h
    obtain rfl := Except.ok.inj h
    have hle := zmqxRecv_ok henv
    rw [setData] at hmsg
    split at hmsg
    · obtain rfl := Except.ok.inj hmsg
      exact (newMessage_ok hhdr).trans_le hle
    · cases hmsg
  · cases h

omit [LinearOrder ι] in
/-- The sender checks the length of the payload it has written. -/
theorem data_lt_of_send {iAmNetSim : Bool} {k : ℕ} {m : Message} {frames : List (Frame ι)}
    (h : send iAmNetSim k m = .ok frames) : m.data.length < 2 ^ 31 := by
  by_cases hs : m.size > 0
  · rw [send] at h
    simp only [if_pos hs] at h
    obtain ⟨payload, hp, -⟩ := Trace.seq_eq_ok.mp h
    have hlt : m.data.length < 2 ^ 32 := m.size_data ▸ m.size.toNat_lt
    rw [← Nat.mod_eq_of_lt hlt]
    exact zmqxSend_ok hp
  · rw [data_of_size_not_pos hs]
    norm_num

/-- A registered object gets a message unharmed exactly when the names leave room for the rest of
the header in the 256 bytes that the broker and the receiver read, and the payload's length is an
`int`. -/
theorem message_fidelity_iff {b : Broker ι} {k : ℕ} {m : Message} {netSim owner : ι}
    (hd : Deliverable b k m.msgTo netSim owner) (i : ι) (iAmNetSim : Bool) :
    Faithful b i k iAmNetSim m (addressee iAmNetSim m netSim owner) ↔
      m.msgFrom.bytes.length + m.msgTo.bytes.length ≤ 227 ∧ m.data.length < 2 ^ 31 := by
  constructor
  · intro h
    obtain ⟨frames, hsend, h⟩ := Trace.seq_eq_ok.mp h
    obtain ⟨⟨receiver, out, left⟩, -, h⟩ := Trace.seq_eq_ok.mp h
    obtain ⟨net, -, h⟩ := Trace.seq_eq_ok.mp h
    obtain ⟨received, hrecv, h⟩ := Trace.seq_eq_ok.mp h
    simp only [Except.ok.injEq, Delivery.mk.injEq] at h
    obtain ⟨-, rfl, -⟩ := h
    have hl : m.msgFrom.bytes.length + m.msgTo.bytes.length + 29 ≤ 256 := length_le_of_received hrecv
    exact ⟨by omega, data_lt_of_send hsend⟩
  · rintro ⟨hnames, hdata⟩
    refine faithful_of_fits hd i iAmNetSim ?_ hdata
    show m.msgFrom.bytes.length + m.msgTo.bytes.length + 29 ≤ 256
    omega

/-! ## Registered objects -/

open Broker (HelloGroup Registered registerFrame registered_of_run advance fourMembers)

/-- Registration makes an object of a member that is not the net sim reachable. -/
theorem deliverable_of_registered {g : HelloGroup ι} {objs : List (ι × String)} {b : Broker ι}
    (h : Registered g objs b) {owner : ι} {name : Name} (hmem : (owner, name.received.key) ∈ objs)
    (hne : owner ≠ g.netSim) : Deliverable b 0 name g.netSim owner := by
  have hctx : b.ctxs[0]? = some { g.context with netSimObjCount := (Broker.objectsOf objs g.netSim).length } := by
    rw [h.broker]
    rfl
  obtain ⟨l, hl, hlook⟩ := h.owner _ hmem hne
  refine ⟨?_, ?_, hne⟩
  · simp only [Broker.delayHandler, Broker.context_ok.mpr hctx, bind, Except.bind]
    rfl
  · simp only [Broker.routeHandler, Broker.context_ok.mpr hctx, bind, Except.bind, hl, hlook]

/-- A message between objects with the given names, of 3 bytes. -/
def sampleMessage (msgFrom msgTo : Name) : Message where
  msgFrom := msgFrom
  msgTo := msgTo
  timeStamp := 7
  networkDeliverytime := 18446744073709551615
  size := 3
  tag := 0
  delayThroughComm := true
  data := [0, 255, 7]
  size_data := rfl

/-- A name of `n` letters. -/
def letters (n : ℕ) : Name := ⟨List.replicate n 97, by simp⟩

/-- Simulator 0 of the group registers an object of that name. -/
def registerLetters (n : ℕ) : List (Broker.Frame ℕ) :=
  fourMembers.frames ++ [(0, (letters n).received.key)].map registerFrame

/-- The transfer ends with a failed assertion. -/
def assertionFails {α : Type} (x : Except Fault α) : Bool :=
  match x with
  | .error .assertion => true
  | _ => false

theorem eq_of_assertionFails {α : Type} {x : Except Fault α} (h : assertionFails x = true) :
    x = .error .assertion := by
  unfold assertionFails at h
  split at h
  · rfl
  · cases h

/-- Names of 114 letters each fill the envelope up to 257 bytes. -/
theorem long_names_lost : ∃ b, Trace.run advance (Broker.init 4) (registerLetters 114) = .ok b ∧
    Deliverable b 0 (letters 114) 3 0 ∧
    transmit b 1 0 false (sampleMessage (letters 114) (letters 114)) = .error .assertion ∧
    ¬ Faithful b 1 0 false (sampleMessage (letters 114) (letters 114)) 3 := by
  obtain ⟨b, hb, hp⟩ := Trace.exists_run_of_check advance (Broker.init 4) (registerLetters 114)
    (fun b => assertionFails (transmit b 1 0 false (sampleMessage (letters 114) (letters 114)))) (by decide +kernel)
  have hf := eq_of_assertionFails hp
  refine ⟨b, hb, deliverable_of_registered (g := fourMembers) (registered_of_run hb) (by simp) (by decide), hf, ?_⟩
  rw [Faithful, hf]
  exact nofun

theorem message_fidelity_five_letters : ∃ b, Trace.run advance (Broker.init 4) (registerLetters 5) = .ok b ∧
    Deliverable b 0 (letters 5) 3 0 ∧ Faithful b 1 0 false (sampleMessage (letters 222) (letters 5)) 3 := by
  obtain ⟨b, hb, -⟩ := Trace.exists_run_of_check advance (Broker.init 4) (registerLetters 5) (fun _ => true)
    (by decide +kernel)
  have hd : Deliverable b 0 (letters 5) 3 0 :=
    deliverable_of_registered (g := fourMembers) (registered_of_run hb) (by simp) (by decide)
  have hfits : (sampleMessage (letters 222) (letters 5)).msgFrom.bytes.length +
      (sampleMessage (letters 222) (letters 5)).msgTo.bytes.length ≤ 227 := by
    simp only [sampleMessage, letters, List.length_replicate]
    norm_num
  have hdata : (sampleMessage (letters 222) (letters 5)).data.length < 2 ^ 31 := by
    show 3 < 2 ^ 31
    norm_num
  exact ⟨b, hb, hd, (message_fidelity_iff (m := sampleMessage (letters 222) (letters 5)) hd 1 false).mpr
    ⟨hfits, hdata⟩⟩

end Fncs.Wire

/-
The time of a message at its sender and at its receiver (`Message::Message`,
`Message::getAdjustedTime`, `Integrator::setOffset`). A message is stamped in
framework time and read in the reader's unit from the reader's initial time.
-/
import Fncs.Wire.Memory

namespace Fncs

namespace Integrator

def setOffset (otime : TIME) (g : Integrator) : Integrator :=
  { g with offset := convertToFrameworkTime g.simTimeMetric otime }

/-- In framework time. -/
def getOffset (g : Integrator) : TIME := g.offset

/-- In the simulator's time. -/
def getAdjustedOffset (g : Integrator) : TIME := convertToMyTime g.simTimeMetric g.offset

/-- Starting a simulator sets its offset. -/
theorem init_setOffset (metric : TimeMetric) (t otime onetimestep : TIME) :
    (init metric t onetimestep).setOffset otime = init metric otime onetimestep := rfl

end Integrator

def Memory.Message.getAdjustedTime (g : Integrator) (m : Message) : TIME :=
  addTime (convertToMyTime g.simTimeMetric m.timeStamp.toNat) g.getAdjustedOffset

namespace Stamps

open Memory

/-- What the simulator `reader` reads as the time of a message that `sender` made at its time `t`. -/
def reading (sender reader : Integrator) (msgFrom msgTo : List UInt8) (p : Payload) (tag : UInt8) (t : TIME) : TIME :=
  (Message.create sender msgFrom msgTo t p tag).getAdjustedTime reader

/-- The laws of the conversions, between a sender that started at `i` and a receiver that started at `j`. -/
structure UnitLaws (sender receiver : Integrator) (i j : TIME) : Prop where
  /-- There and back is down to a whole unit, and nothing wraps. -/
  realigned : ∀ f < ulongSize,
    IsGreatest {n | sender.simTimeMetric.scale ∣ n ∧ n ≤ f}
      (convertToFrameworkTime sender.simTimeMetric (convertToMyTime sender.simTimeMetric f)) ∧
    convertToMyTime sender.simTimeMetric f * sender.simTimeMetric.scale < ulongSize
  stamped : ∀ msgFrom msgTo p tag t, i ≤ t → t * sender.simTimeMetric.scale < ulongSize →
    (Message.create (sender.setOffset i) msgFrom msgTo t p tag).timeStamp.toNat =
      sender.simTimeMetric.scale * (t - i)
  /-- Who shares the sender's metric and initial time reads what the sender wrote. -/
  own : ∀ reader : Integrator, reader.simTimeMetric = sender.simTimeMetric → ∀ msgFrom msgTo p tag t,
    i ≤ t → t * sender.simTimeMetric.scale < ulongSize →
    reading (sender.setOffset i) (reader.setOffset i) msgFrom msgTo p tag t = t
  /-- The receiver reads whole units of its own from its initial time on, in 64 bits. -/
  received : j * receiver.simTimeMetric.scale < ulongSize → ∀ msgFrom msgTo p tag t,
    i ≤ t → t * sender.simTimeMetric.scale < ulongSize →
    reading (sender.setOffset i) (receiver.setOffset j) msgFrom msgTo p tag t =
      (j + sender.simTimeMetric.scale * (t - i) / receiver.simTimeMetric.scale) % ulongSize
  /-- Only nanoseconds can run out of 64 bits. -/
  fits : j * receiver.simTimeMetric.scale < ulongSize → receiver.simTimeMetric ≠ .nanoseconds →
    ∀ t, i ≤ t → t * sender.simTimeMetric.scale < ulongSize →
    j + sender.simTimeMetric.scale * (t - i) / receiver.simTimeMetric.scale < ulongSize
  monotone : j * receiver.simTimeMetric.scale < ulongSize → ∀ msgFrom msgTo p tag t u,
    i ≤ t → t ≤ u → u * sender.simTimeMetric.scale < ulongSize →
    j + sender.simTimeMetric.scale * (u - i) / receiver.simTimeMetric.scale < ulongSize →
    reading (sender.setOffset i) (receiver.setOffset j) msgFrom msgTo p tag t ≤
      reading (sender.setOffset i) (receiver.setOffset j) msgFrom msgTo p tag u

variable {sender receiver : Integrator} {i j t : TIME}

/-- The time since the sender started, in framework time, is no more than its clock. -/
theorem scale_mul_sub_le (m : TimeMetric) (t i : TIME) : m.scale * (t - i) ≤ t * m.scale := by
  rw [Nat.mul_comm]
  exact Nat.mul_le_mul_right _ (Nat.sub_le t i)

/-- A message is stamped with the time since its sender started. -/
theorem toNat_timeStamp (msgFrom msgTo : List UInt8) (p : Payload) (tag : UInt8) (hi : i ≤ t)
    (ht : t * sender.simTimeMetric.scale < ulongSize) :
    (Message.create (sender.setOffset i) msgFrom msgTo t p tag).timeStamp.toNat =
      sender.simTimeMetric.scale * (t - i) := by
  have hle : i * sender.simTimeMetric.scale ≤ t * sender.simTimeMetric.scale := Nat.mul_le_mul_right _ hi
  have hoffset : (sender.setOffset i).offset = i * sender.simTimeMetric.scale :=
    convertToFrameworkTime_of_lt (hle.trans_lt ht)
  have hstamp : (sender.setOffset i).toFramework t = t * sender.simTimeMetric.scale - i * sender.simTimeMetric.scale := by
    rw [Integrator.toFramework_of_lt (g := sender.setOffset i) ht (hoffset.trans_le hle), hoffset]
    rfl
  show (UInt64.ofNat ((sender.setOffset i).toFramework t)).toNat = _
  rw [hstamp, ← Nat.sub_mul, Nat.mul_comm]
  exact Nat.mod_eq_of_lt ((scale_mul_sub_le _ t i).trans_lt ht)

/-- The offset comes back as the initial time. -/
theorem getAdjustedOffset_setOffset {g : Integrator} (hj : j * g.simTimeMetric.scale < ulongSize) :
    (g.setOffset j).getAdjustedOffset = j := by
  show convertToFrameworkTime g.simTimeMetric j / g.simTimeMetric.scale = j
  rw [convertToFrameworkTime_of_lt hj, Nat.mul_div_cancel _ g.simTimeMetric.scale_pos]

/-- What a receiver reads. -/
theorem reading_eq (msgFrom msgTo : List UInt8) (p : Payload) (tag : UInt8)
    (hj : j * receiver.simTimeMetric.scale < ulongSize) (hi : i ≤ t)
    (ht : t * sender.simTimeMetric.scale < ulongSize) :
    reading (sender.setOffset i) (receiver.setOffset j) msgFrom msgTo p tag t =
      (j + sender.simTimeMetric.scale * (t - i) / receiver.simTimeMetric.scale) % ulongSize := by
  rw [reading, Message.getAdjustedTime, toNat_timeStamp msgFrom msgTo p tag hi ht, getAdjustedOffset_setOffset hj,
    addTime, Nat.add_comm]
  rfl

/-- The sender's own reading of its message. -/
theorem reading_own (msgFrom msgTo : List UInt8) (p : Payload) (tag : UInt8)
    (hm : receiver.simTimeMetric = sender.simTimeMetric) (hi : i ≤ t)
    (ht : t * sender.simTimeMetric.scale < ulongSize) :
    reading (sender.setOffset i) (receiver.setOffset i) msgFrom msgTo p tag t = t := by
  have hle : i * sender.simTimeMetric.scale ≤ t * sender.simTimeMetric.scale := Nat.mul_le_mul_right _ hi
  have hlt : t < ulongSize := (Nat.le_mul_of_pos_right _ sender.simTimeMetric.scale_pos).trans_lt ht
  rw [reading_eq msgFrom msgTo p tag (hm ▸ hle.trans_lt ht) hi ht, hm,
    Nat.mul_div_cancel_left _ sender.simTimeMetric.scale_pos, Nat.add_sub_cancel' hi]
  exact Nat.mod_eq_of_lt hlt

/-- Counted in seconds or milliseconds, two times that fit in framework time have a sum that fits. -/
theorem add_div_lt {m : TimeMetric} {n : ℕ} (hm : m ≠ .nanoseconds) (hj : j * m.scale < ulongSize)
    (hn : n < ulongSize) : j + n / m.scale < ulongSize := by
  have htwo : 2 ≤ m.scale := by
    cases m with
    | nanoseconds => exact absurd rfl hm
    | _ => decide
  have hhalf : n / m.scale ≤ n / 2 := Nat.div_le_div_left htwo (by decide)
  have hdouble : j * 2 ≤ j * m.scale := Nat.mul_le_mul_left j htwo
  unfold TIME at *
  omega

theorem isGreatest_realign (m : TimeMetric) {f : TIME} (hf : f < ulongSize) :
    IsGreatest {n | m.scale ∣ n ∧ n ≤ f} (convertToFrameworkTime m (convertToMyTime m f)) := by
  have hle : f / m.scale * m.scale ≤ f := Nat.div_mul_le_self f m.scale
  rw [convertToMyTime, convertToFrameworkTime_of_lt (hle.trans_lt hf)]
  refine ⟨⟨Nat.dvd_mul_left _ _, hle⟩, fun n hn => ?_⟩
  obtain ⟨hdvd, hnf⟩ := hn
  calc n = n / m.scale * m.scale := (Nat.div_mul_cancel hdvd).symm
    _ ≤ f / m.scale * m.scale := Nat.mul_le_mul_right _ (Nat.div_le_div_right hnf)

/-- The laws hold between any two simulators. -/
theorem unitLaws (sender receiver : Integrator) (i j : TIME) : UnitLaws sender receiver i j where
  realigned f hf := ⟨isGreatest_realign _ hf, (Nat.div_mul_le_self _ _).trans_lt hf⟩
  stamped msgFrom msgTo p tag _ hi ht := toNat_timeStamp msgFrom msgTo p tag hi ht
  own _ hm msgFrom msgTo p tag _ hi ht := reading_own msgFrom msgTo p tag hm hi ht
  received hj msgFrom msgTo p tag _ hi ht := reading_eq msgFrom msgTo p tag hj hi ht
  fits hj hm t _ ht := add_div_lt hm hj ((scale_mul_sub_le _ t i).trans_lt ht)
  monotone hj msgFrom msgTo p tag t u hi htu hu hfit := by
    have ht : t * sender.simTimeMetric.scale < ulongSize := (Nat.mul_le_mul_right _ htu).trans_lt hu
    have hle : sender.simTimeMetric.scale * (t - i) / receiver.simTimeMetric.scale ≤
        sender.simTimeMetric.scale * (u - i) / receiver.simTimeMetric.scale :=
      Nat.div_le_div_right (Nat.mul_le_mul_left _ (Nat.sub_le_sub_right htu i))
    rw [reading_eq msgFrom msgTo p tag hj hi ht, reading_eq msgFrom msgTo p tag hj (hi.trans htu) hu,
      Nat.mod_eq_of_lt hfit]
    exact (Nat.mod_le _ _).trans (Nat.add_le_add_left hle j)

/-- The last instant of 64 bits, read by a simulator that started 1 ns in, is 0. -/
theorem reading_wraps :
    reading (.init .nanoseconds 0 1) (.init .nanoseconds 1 1) [] [] ⟨[], by decide⟩ 0 (2 ^ 64 - 1) = 0 ∧
    ¬ ∀ (sender receiver : Integrator) (i j : TIME), j * receiver.simTimeMetric.scale < ulongSize →
      ∀ msgFrom msgTo p tag t, i ≤ t → t * sender.simTimeMetric.scale < ulongSize →
      reading (sender.setOffset i) (receiver.setOffset j) msgFrom msgTo p tag t =
        j + sender.simTimeMetric.scale * (t - i) / receiver.simTimeMetric.scale := by
  have hwrap : reading (.init .nanoseconds 0 1) (.init .nanoseconds 1 1) [] [] ⟨[], by decide⟩ 0 (2 ^ 64 - 1) = 0 := by
    decide
  refine ⟨hwrap, fun hall => ?_⟩
  have hread := hall (.init .nanoseconds 0 1) (.init .nanoseconds 1 1) 0 1 (by decide) [] [] ⟨[], by decide⟩ 0
    (2 ^ 64 - 1) (by decide) (by decide)
  exact absurd (hwrap.symm.trans hread) (by decide)

end Stamps

end Fncs

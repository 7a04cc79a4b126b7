/-
Decoders of byte strings. A decoder reads a value off the front of its input;
`Reads` says what it reads and leaves, `Spends` how much input a value costs.
Both compose along a sequence of decoders, so that a format is verified
section by section.
-/
import Mathlib

namespace Codec

variable {ε α β : Type}

/-- The value read and the input left. -/
abbrev Decoder (ε α : Type) := StateT (List UInt8) (Except ε) α

/-- In front of any input, `bytes` is read as `v`. -/
def Reads (d : Decoder ε α) (bytes : List UInt8) (v : α) : Prop := ∀ rest, d (bytes ++ rest) = .ok (v, rest)

/-- Reading `v` takes `cost v` bytes. -/
def Spends (d : Decoder ε α) (cost : α → ℕ) : Prop :=
  ∀ input v rest, d input = .ok (v, rest) → input.length = cost v + rest.length

theorem bind_ok {d : Decoder ε α} {f : α → Decoder ε β} {input : List UInt8} {x : β × List UInt8} :
    (d >>= f) input = .ok x ↔ ∃ v rest, d input = .ok (v, rest) ∧ f v rest = .ok x := by
  show (d input >>= fun y => f y.1 y.2) = .ok x ↔ _
  cases hd : d input with
  | error e => simp [bind, Except.bind]
  | ok y => simp [bind, Except.bind, Prod.ext_iff]

theorem Reads.bind {d : Decoder ε α} {f : α → Decoder ε β} {bytes bytes' : List UInt8} {v : α} {w : β}
    (hd : Reads d bytes v) (hf : Reads (f v) bytes' w) : Reads (d >>= f) (bytes ++ bytes') w := by
  intro rest
  rw [bind_ok]
  exact ⟨v, bytes' ++ rest, by rw [List.append_assoc]; exact hd _, hf rest⟩

theorem Reads.pure (v : α) : Reads (ε := ε) (pure v) [] v := fun _ => rfl

theorem Reads.eq_ok {d : Decoder ε α} {bytes : List UInt8} {v : α} (h : Reads d bytes v) :
    d bytes = .ok (v, []) := by
  simpa using h []

/-! ## Little-endian numbers -/

/-- The `n` low bytes of a number, least significant first. -/
def leBytes : ℕ → ℕ → List UInt8
  | 0, _ => []
  | n + 1, x => UInt8.ofNat (x % 256) :: leBytes n (x / 256)

/-- The number that little-endian bytes spell. -/
def leValue : List UInt8 → ℕ
  | [] => 0
  | b :: bytes => b.toNat + 256 * leValue bytes

@[simp] theorem length_leBytes (n x : ℕ) : (leBytes n x).length = n := by
  induction n generalizing x with
  | zero => rfl
  | succ n ih => simp [leBytes, ih]

theorem leValue_leBytes (n x : ℕ) : leValue (leBytes n x) = x % 256 ^ n := by
  induction n generalizing x with
  | zero => simp [leBytes, leValue, Nat.mod_one]
  | succ n ih =>
    have hb : (UInt8.ofNat (x % 256)).toNat = x % 256 := by simp
    rw [leBytes, leValue, ih, hb, Nat.pow_succ, Nat.mul_comm (256 ^ n) 256, Nat.mod_mul]

/-- A number of at most `n` bytes is spelled by them. -/
theorem leValue_leBytes_of_lt {n x : ℕ} (h : x < 256 ^ n) : leValue (leBytes n x) = x := by
  rw [leValue_leBytes, Nat.mod_eq_of_lt h]

theorem leValue_lt (bytes : List UInt8) : leValue bytes < 256 ^ bytes.length := by
  induction bytes with
  | nil => simp [leValue]
  | cons b bytes ih =>
    have := b.toNat_lt
    rw [leValue, List.length_cons, Nat.pow_succ]
    omega

/-- The number is spelled by its own bytes. -/
theorem leBytes_leValue (bytes : List UInt8) : leBytes bytes.length (leValue bytes) = bytes := by
  induction bytes with
  | nil => rfl
  | cons b bytes ih =>
    have := b.toNat_lt
    rw [List.length_cons, leBytes, leValue, Nat.add_mul_mod_self_left, Nat.mod_eq_of_lt this,
      show (b.toNat + 256 * leValue bytes) / 256 = leValue bytes by omega, ih]
    simp

end Codec

/-
Scanners of byte buffers: programs that walk a buffer with an unsigned cursor,
one element access at a time. A scanner keeps a log of its accesses, so that it
can be said whether they stay inside the buffer; past the end it reads what
lies there.

`FollowsAt` relates a scanner to a decoder of the bytes from the cursor on: it
reads the same value and leaves the same input, or throws what the decoder
throws, and stays inside the buffer. A blind error of the decoder stands for an
access past the end: there the scanner leaves the buffer, and throws something.
-/
import Fncs.Lib.Codec

namespace Scanner

open Codec

variable {ε α β : Type} {w : ℕ}

/-- A buffer in memory, whose size fits a cursor of `w` values. -/
structure Buffer (w : ℕ) where
  /-- The memory from the buffer's start on, past its end too. -/
  memory : ℕ → UInt8
  size : ℕ
  size_lt : size < w

namespace Buffer

variable (b : Buffer w)

/-- The bytes from `it` on. -/
def rest (it : ℕ) : List UInt8 := (List.range' it (b.size - it)).map b.memory

/-- The bytes of the buffer. -/
def bytes : List UInt8 := b.rest 0

/-- Accesses that stay inside the buffer. -/
def Inside (reads : List ℕ) : Prop := ∀ i ∈ reads, i < b.size

instance (reads : List ℕ) : Decidable (b.Inside reads) := inferInstanceAs (Decidable (∀ i ∈ reads, i < b.size))

variable {b}

theorem inside_append {reads reads' : List ℕ} : b.Inside (reads ++ reads') ↔ b.Inside reads ∧ b.Inside reads' :=
  List.forall_mem_append

theorem length_rest (it : ℕ) : (b.rest it).length = b.size - it := by simp [rest]

theorem rest_of_lt {it : ℕ} (h : it < b.size) : b.rest it = b.memory it :: b.rest (it + 1) := by
  rw [rest, show b.size - it = (b.size - (it + 1)) + 1 by omega, List.range'_succ, List.map_cons]
  rfl

theorem rest_of_le {it : ℕ} (h : b.size ≤ it) : b.rest it = [] := by
  rw [rest, Nat.sub_eq_zero_of_le h]
  rfl

theorem drop_rest (it n : ℕ) : (b.rest it).drop n = b.rest (it + n) := by
  induction n generalizing it with
  | zero => rfl
  | succ n ih =>
    by_cases h : it < b.size
    · rw [rest_of_lt h, List.drop_succ_cons, ih, Nat.add_assoc, Nat.add_comm 1]
    · rw [rest_of_le (by omega), rest_of_le (by omega), List.drop_nil]

end Buffer

/-- The cursor, and the accesses so far. -/
structure Position where
  it : ℕ
  accesses : List ℕ
  deriving DecidableEq, Repr

abbrev Scan (ε α : Type) := ExceptT ε (StateM Position) α

namespace Scan

/-- What a scanner returns or throws, and where it ends. -/
def run (s : Scan ε α) (p : Position) : Except ε α × Position := StateT.run (ExceptT.run s) p

/-- The cursor. -/
def it : Scan ε ℕ := do
  let p ← get
  pure p.it

/-- The element at the cursor. -/
def access (b : Buffer w) : Scan ε UInt8 := do
  let p ← get
  set { p with accesses := p.accesses ++ [p.it] }
  pure (b.memory p.it)

/-- `++it`. -/
def advance (w : ℕ) : Scan ε Unit := modify fun p => { p with it := (p.it + 1) % w }

variable {p : Position}

@[simp] theorem run_pure (v : α) : (pure v : Scan ε α).run p = (.ok v, p) := rfl

@[simp] theorem run_throw (e : ε) : (throw e : Scan ε α).run p = (.error e, p) := rfl

theorem run_bind (s : Scan ε α) (f : α → Scan ε β) : (s >>= f).run p =
    match s.run p with
    | (.ok v, q) => (f v).run q
    | (.error e, q) => (.error e, q) := by
  show (StateT.run (ExceptT.run (s >>= f)) p) = _
  rw [ExceptT.run_bind, StateT.run_bind]
  show ((StateT.run (ExceptT.run s) p) >>= _) = _
  unfold run
  rcases StateT.run (ExceptT.run s) p with ⟨r, q⟩
  cases r <;> rfl

theorem run_bind_ok {s : Scan ε α} {f : α → Scan ε β} {v : α} {q : Position} (h : s.run p = (.ok v, q)) :
    (s >>= f).run p = (f v).run q := by
  rw [run_bind, h]

theorem run_bind_error {s : Scan ε α} {f : α → Scan ε β} {e : ε} {q : Position} (h : s.run p = (.error e, q)) :
    (s >>= f).run p = (.error e, q) := by
  rw [run_bind, h]

@[simp] theorem run_it : (it : Scan ε ℕ).run p = (.ok p.it, p) := rfl

@[simp] theorem run_access (b : Buffer w) :
    (access b : Scan ε UInt8).run p = (.ok (b.memory p.it), ⟨p.it, p.accesses ++ [p.it]⟩) := rfl

@[simp] theorem run_advance : (advance w : Scan ε Unit).run p = (.ok (), ⟨(p.it + 1) % w, p.accesses⟩) := rfl

end Scan

/-! ## Following a decoder -/

section Follows

variable {b : Buffer w} {blind : ε → Prop} {p : Position} {s : Scan ε α} {d : Decoder ε α}

/-- From `p` on, `s` does what `d` does on the bytes from the cursor on. -/
def FollowsAt (b : Buffer w) (blind : ε → Prop) (p : Position) (s : Scan ε α) (d : Decoder ε α) : Prop :=
  ∃ r it' reads, s.run p = (r, ⟨it', p.accesses ++ reads⟩) ∧
    match d (b.rest p.it) with
    | .ok (v, rest) => r = .ok v ∧ it' ≤ b.size ∧ b.rest it' = rest ∧ b.Inside reads
    | .error e => (∃ e', r = .error e') ∧ (blind e → ¬ b.Inside reads) ∧
      (¬ blind e → r = .error e ∧ b.Inside reads)

/-- `s` does what `d` does wherever it starts inside the buffer. -/
def Follows (b : Buffer w) (blind : ε → Prop) (s : Scan ε α) (d : Decoder ε α) : Prop :=
  ∀ p : Position, p.it ≤ b.size → FollowsAt b blind p s d

theorem FollowsAt.of_ok {v : α} {rest : List UInt8} {it' : ℕ} {reads : List ℕ}
    (hs : s.run p = (.ok v, ⟨it', p.accesses ++ reads⟩)) (hd : d (b.rest p.it) = .ok (v, rest)) (hit : it' ≤ b.size)
    (hrest : b.rest it' = rest) (hin : b.Inside reads) : FollowsAt b blind p s d :=
  ⟨_, it', reads, hs, by rw [hd]; exact ⟨rfl, hit, hrest, hin⟩⟩

theorem FollowsAt.of_error {e : ε} {it' : ℕ} {reads : List ℕ}
    (hs : s.run p = (.error e, ⟨it', p.accesses ++ reads⟩)) (hd : d (b.rest p.it) = .error e) (he : ¬ blind e)
    (hin : b.Inside reads) : FollowsAt b blind p s d :=
  ⟨_, it', reads, hs, by rw [hd]; exact ⟨⟨e, rfl⟩, fun h => absurd h he, fun _ => ⟨rfl, hin⟩⟩⟩

theorem FollowsAt.pure (v : α) (hp : p.it ≤ b.size) : FollowsAt b blind p (pure v) (pure v) :=
  ⟨_, p.it, [], by simp, rfl, hp, rfl, List.forall_mem_nil _⟩

theorem FollowsAt.bind {f : α → Scan ε β} {g : α → Decoder ε β} (hs : FollowsAt b blind p s d)
    (hf : ∀ v, Follows b blind (f v) (g v)) : FollowsAt b blind p (s >>= f) (d >>= g) := by
  obtain ⟨r, it', reads, hrun, hm⟩ := hs
  cases hd : d (b.rest p.it) with
  | error e =>
    simp only [hd] at hm
    obtain ⟨⟨e', rfl⟩, hblind, hclear⟩ := hm
    have hd' : (d >>= g) (b.rest p.it) = .error e := by
      show (d (b.rest p.it) >>= fun y => g y.1 y.2) = _
      rw [hd]
      rfl
    refine ⟨_, it', reads, Scan.run_bind_error hrun, ?_⟩
    rw [hd']
    refine ⟨⟨e', rfl⟩, hblind, fun he => ?_⟩
    obtain ⟨h, hin⟩ := hclear he
    exact ⟨by rw [Except.error.inj h], hin⟩
  | ok y =>
    obtain ⟨v, rest⟩ := y
    simp only [hd] at hm
    obtain ⟨rfl, hle, rfl, hin⟩ := hm
    have hd' : (d >>= g) (b.rest p.it) = g v (b.rest it') := by
      show (d (b.rest p.it) >>= fun y => g y.1 y.2) = _
      rw [hd]
      rfl
    obtain ⟨r, it'', reads', hrun', hm'⟩ := hf v ⟨it', p.accesses ++ reads⟩ hle
    refine ⟨r, it'', reads ++ reads', ?_, ?_⟩
    · rw [Scan.run_bind_ok hrun, hrun', List.append_assoc]
    · rw [hd']
      simp only [Buffer.inside_append]
      cases hg : g v (b.rest it') with
      | error e =>
        simp only [hg] at hm'
        obtain ⟨he, hblind, hclear⟩ := hm'
        exact ⟨he, fun hb hin' => hblind hb hin'.2, fun hb => ⟨(hclear hb).1, hin, (hclear hb).2⟩⟩
      | ok y =>
        simp only [hg] at hm'
        obtain ⟨h1, h2, h3, h4⟩ := hm'
        exact ⟨h1, h2, h3, hin, h4⟩

theorem Follows.bind {f : α → Scan ε β} {g : α → Decoder ε β} (hs : Follows b blind s d)
    (hf : ∀ v, Follows b blind (f v) (g v)) : Follows b blind (s >>= f) (d >>= g) :=
  fun p hp => (hs p hp).bind hf

theorem Follows.pure (v : α) : Follows b blind (pure v : Scan ε α) (pure v) := fun _ hp => .pure v hp

end Follows

end Scanner

/-
The next-event schedule of actors that are served one time at a time: each
actor's next event is a function of the times it has been served at, and a
round serves those whose next event is the earliest. However the rounds come
about, there is one schedule (`Schedule.unique`), and one is the beginning of
any other that is not shorter (`Schedule.isPrefix`).
-/
import Mathlib

namespace NextEvent

variable {ι τ : Type*}

/-- A round: its time, and the actors it serves. -/
@[ext] structure Round (ι τ : Type*) where
  time : τ
  served : Finset ι

/-- The next event of each actor. -/
def due (next : ι → List τ → τ) (history : ι → List τ) (i : ι) : τ := next i (history i)

/-- The times each actor has been served at, the latest first. -/
def serve [DecidableEq ι] (history : ι → List τ) (r : Round ι τ) (i : ι) : List τ :=
  if i ∈ r.served then r.time :: history i else history i

/-- The round that serves the earliest events. -/
structure IsNext [LinearOrder τ] (actors : Finset ι) (next : ι → List τ → τ) (history : ι → List τ) (r : Round ι τ) : Prop where
  least : IsLeast (due next history '' actors) r.time
  served : r.served = actors.filter fun i => due next history i = r.time

/-- The rounds so far, and the history they leave. -/
inductive Schedule [DecidableEq ι] [LinearOrder τ] (actors : Finset ι) (next : ι → List τ → τ) : List (Round ι τ) → (ι → List τ) → Prop
  | nil : Schedule actors next [] fun _ => []
  | snoc {rs : List (Round ι τ)} {history : ι → List τ} {r : Round ι τ} (hs : Schedule actors next rs history)
      (hr : IsNext actors next history r) : Schedule actors next (rs ++ [r]) (serve history r)

section

variable [LinearOrder τ] {actors : Finset ι} {next : ι → List τ → τ} {history history' : ι → List τ} {r r' : Round ι τ}

theorem IsNext.unique (h : IsNext actors next history r) (h' : IsNext actors next history r') : r = r' := by
  have ht : r.time = r'.time := h.least.unique h'.least
  refine Round.ext ht ?_
  rw [h.served, h'.served, ht]

/-- Somebody is served. -/
theorem IsNext.served_nonempty (h : IsNext actors next history r) : r.served.Nonempty := by
  obtain ⟨i, hi, ht⟩ := h.least.1
  exact ⟨i, h.served ▸ Finset.mem_filter.mpr ⟨hi, ht⟩⟩

/-- Nobody's next event is before the round. -/
theorem IsNext.time_le (h : IsNext actors next history r) {i : ι} (hi : i ∈ actors) :
    r.time ≤ due next history i := h.least.2 ⟨i, hi, rfl⟩

variable [DecidableEq ι] {rs rs' : List (Round ι τ)}

namespace Schedule

theorem unique (h : Schedule actors next rs history) (h' : Schedule actors next rs' history')
    (hlen : rs.length = rs'.length) : rs = rs' ∧ history = history' := by
  induction h generalizing rs' history' with
  | nil =>
    cases h' with
    | nil => exact ⟨rfl, rfl⟩
    | snoc => simp at hlen
  | snoc hs hr ih =>
    cases h' with
    | nil => simp at hlen
    | snoc hs' hr' =>
      obtain ⟨rfl, rfl⟩ := ih hs' (by simpa using hlen)
      rw [hr.unique hr']
      exact ⟨rfl, rfl⟩

/-- The schedule up to an earlier round. -/
theorem take (h : Schedule actors next rs history) {n : ℕ} (hn : n ≤ rs.length) :
    ∃ history', Schedule actors next (rs.take n) history' := by
  induction h with
  | nil => exact ⟨_, by simpa using Schedule.nil⟩
  | @snoc rs history r hs hr ih =>
    rcases Nat.lt_or_ge rs.length n with hlt | hle
    · rw [List.take_of_length_le (by simpa using hlt)]
      exact ⟨_, hs.snoc hr⟩
    · rw [List.take_append_of_le_length hle]
      exact ih hle

theorem isPrefix (h : Schedule actors next rs history) (h' : Schedule actors next rs' history')
    (hlen : rs.length ≤ rs'.length) : rs <+: rs' := by
  obtain ⟨_, hs⟩ := h'.take hlen
  rw [(h.unique hs (by simp [hlen])).1]
  exact List.take_prefix _ _

end Schedule

end

end NextEvent

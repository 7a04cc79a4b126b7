/-
Clients with at most one unanswered request each, and tables that hold a
part of what they wait for: of every client whose request `sel` selects, the
payload, and of no other (`Holds`). A request posted enters the tables that
select it; an answer to exactly the clients of one table empties that table
and leaves the others.
-/
import Fncs.Lib.OrdMap

namespace Pending

variable {ι ρ α : Type*} [LinearOrder ι]

/-- The unanswered requests once `i` has sent `r`. -/
def post (p : ι → Option ρ) (i : ι) (r : ρ) (j : ι) : Option ρ := if j = i then some r else p j

/-- The unanswered requests once the clients of `who` have been answered. -/
def answer (p : ι → Option ρ) (who : List ι) (i : ι) : Option ρ := if i ∈ who then none else p i

/-- `m` holds what `sel` selects of the unanswered requests. -/
def Holds (m : OrdMap ι α) (sel : ρ → Option α) (p : ι → Option ρ) : Prop :=
  ∀ i, m.lookup i = (p i).bind sel

/-- The clients whose request is of the form `req` are those of `who`, and each asks with its `val`. -/
def Participants (p : ι → Option ρ) (req : α → ρ) (who : Finset ι) (val : ι → α) : Prop :=
  ∀ i a, p i = some (req a) ↔ i ∈ who ∧ a = val i

variable {m : OrdMap ι α} {sel : ρ → Option α} {p : ι → Option ρ} {i : ι} {r : ρ} {a : α}
  {who : List ι}

@[simp] theorem answer_nil : answer p [] = p := by
  funext i
  simp [answer]

theorem answer_eq_some : answer p who i = some r ↔ i ∉ who ∧ p i = some r := by
  by_cases h : i ∈ who <;> simp [answer, h]

theorem post_eq_some {j : ι} {r' : ρ} : post p i r j = some r' ↔ (j = i ∧ r = r') ∨ (j ≠ i ∧ p j = some r') := by
  by_cases h : j = i <;> simp [post, h]

namespace Holds

theorem empty : Holds (∅ : OrdMap ι α) sel (fun _ => none) := fun _ => rfl

theorem mem_dom (h : Holds m sel p) : i ∈ m.dom ↔ ∃ r a, p i = some r ∧ sel r = some a := by
  rw [OrdMap.mem_dom, h i]
  cases p i <;> simp

/-- A client that waits for nothing is in no table. -/
theorem not_mem_dom (h : Holds m sel p) (hi : p i = none) : i ∉ m.dom := by
  rw [h.mem_dom, hi]
  nofun

/-- A table of fewer than `s` does not hold all of them. -/
theorem exists_absent {s : Finset ι} (h : Holds m sel p) (hsize : m.size < s.card) :
    ∃ i ∈ s, ∀ r a, p i = some r → sel r ≠ some a := by
  obtain ⟨i, hi, hn⟩ := Finset.exists_mem_notMem_of_card_lt_card (by rwa [OrdMap.card_dom] : m.dom.card < s.card)
  exact ⟨i, hi, fun r a hr hsel => hn (h.mem_dom.mpr ⟨r, a, hr, hsel⟩)⟩

theorem lookup_eq (h : Holds m sel p) : m.lookup i = some a ↔ ∃ r, p i = some r ∧ sel r = some a := by
  rw [h i, Option.bind_eq_some_iff]

/-- A request the table does not select. -/
theorem post_other (h : Holds m sel p) (hi : p i = none) (hr : sel r = none) : Holds m sel (post p i r) := by
  intro j
  by_cases hj : j = i
  · subst hj
    simp [post, hr, h j, hi]
  · simp [post, hj, h j]

/-- A request the table selects. -/
theorem post (h : Holds m sel p) (hr : sel r = some a) : Holds (m.insert i a) sel (post p i r) := by
  intro j
  by_cases hj : j = i
  · subst hj
    simp [Pending.post, hr]
  · simp [Pending.post, hj, h j]

/-- Answers to requests the table does not select. -/
theorem answer_other (h : Holds m sel p) (hwho : ∀ i ∈ who, ∃ r, p i = some r ∧ sel r = none) :
    Holds m sel (answer p who) := by
  intro i
  by_cases hi : i ∈ who
  · obtain ⟨r, hr, hs⟩ := hwho i hi
    simp [answer, hi, h i, hr, hs]
  · simp [answer, hi, h i]

/-- Answers to the participants of another kind of request. -/
theorem answer_participants {β : Type*} {req : β → ρ} {s : Finset ι} {val : ι → β} (h : Holds m sel p)
    (hp : Participants p req s val) (hwho : who.toFinset ⊆ s) (hsel : ∀ a, sel (req a) = none) :
    Holds m sel (Pending.answer p who) :=
  h.answer_other fun i hi => ⟨_, (hp i (val i)).mpr ⟨hwho (List.mem_toFinset.mpr hi), rfl⟩, hsel _⟩

/-- Answers to everyone in the table. -/
theorem answer (h : Holds m sel p) (hwho : ∀ i ∈ m.dom, i ∈ who) : Holds ∅ sel (answer p who) := by
  intro i
  by_cases hi : i ∈ who
  · simp [Pending.answer, hi]
  · have hn : m.lookup i = none := OrdMap.lookup_eq_none.mpr fun hm => hi (hwho i hm)
    simp [Pending.answer, hi, ← h i, hn]

/-- Who waits in the table, and with what. -/
theorem participants [Inhabited α] {req : α → ρ} {s : Finset ι} (h : Holds m sel p)
    (hsel : ∀ r a, sel r = some a ↔ r = req a) (hs : m.dom = s) :
    Participants p req s fun i => (m.lookup i).getD default := by
  intro i a
  subst hs
  have : p i = some (req a) ↔ m.lookup i = some a := by
    rw [h.lookup_eq]
    constructor
    · intro hp
      exact ⟨_, hp, (hsel _ _).mpr rfl⟩
    · rintro ⟨r, hp, hr⟩
      rw [hp, (hsel _ _).mp hr]
  rw [this]
  constructor
  · intro hl
    exact ⟨OrdMap.mem_dom_of_lookup hl, by simp [hl]⟩
  · rintro ⟨hd, rfl⟩
    obtain ⟨v, hv⟩ := OrdMap.mem_dom.mp hd
    simp [hv]

/-- The table of the participants' requests. -/
theorem lookup_participant {req : α → ρ} {s : Finset ι} {val : ι → α} (h : Holds m sel p)
    (hsel : ∀ r a, sel r = some a ↔ r = req a) (hp : Participants p req s val) :
    m.lookup i = some a ↔ i ∈ s ∧ a = val i := by
  rw [h.lookup_eq, ← hp]
  constructor
  · rintro ⟨r, hr, hs⟩
    rw [hr, (hsel r a).mp hs]
  · exact fun hi => ⟨_, hi, (hsel _ _).mpr rfl⟩

theorem dom_participants {req : α → ρ} {s : Finset ι} {val : ι → α} (h : Holds m sel p)
    (hsel : ∀ r a, sel r = some a ↔ r = req a) (hp : Participants p req s val) : m.dom = s := by
  ext i
  simp [OrdMap.mem_dom, h.lookup_participant hsel hp]

end Holds

end Pending

/-
The outboxes of a manager's interfaces (`objectcomminterface.cpp`), and the
loop of `sendAll` over them that both managers share
(`graceperiodcommmanager.cpp`, `communicationcommanager.cpp`).

`sendAll` takes the interfaces in the order of the map: it sends a copy of the
outbox and then clears the outbox. Sending first processes what has arrived,
and the notifier of an arrival may send in turn. What enters an outbox while
its copy is being sent is cleared unsent; whatever else is sent is passed on
once, in the order in which it was sent (`outboxes_accounted`).
-/
import Fncs.Lib.OrdMap
import Fncs.Lib.Trace

namespace Fncs

/-- The outboxes by the names of their objects. `flush` is where `sendAll` stands: the interface, and what is left of
the copy of its outbox. -/
structure Outboxes (μ : Type) where
  outbox : OrdMap String (List μ)
  flush : Option (String × List μ)
  deriving DecidableEq

namespace Outboxes

variable {μ : Type}

/-- The outboxes of new interfaces. -/
def create (names : List String) : Outboxes μ where
  outbox := (OrdSet.ofList names).map fun _ _ => []
  flush := none

/-- The outbox of an interface. -/
def getOutBox (s : Outboxes μ) (name : String) : List μ := (s.outbox.lookup name).getD []

/-- `ObjectCommInterface::send` of a message that the callback of the algorithm lets pass. -/
def send (s : Outboxes μ) (name : String) (given : μ) : Outboxes μ :=
  { s with outbox := s.outbox.insert name (s.getOutBox name ++ [given]) }

/-- The loop of `sendAll` at an interface: its outbox is copied. -/
def enter (s : Outboxes μ) (name : Option String) : Outboxes μ :=
  { s with flush := name.map fun name => (name, s.getOutBox name) }

/-- `sendAll`, up to its first interface. -/
def sendAll (s : Outboxes μ) : Outboxes μ := s.enter s.outbox.keys.head?

/-- `clear` of the interface `name`, and on to the one after it. -/
def clear (s : Outboxes μ) (name : String) : Outboxes μ :=
  { s with outbox := s.outbox.insert name [] }.enter (s.outbox.keys.find? fun other => name < other)

/-- What `sendAll` has still to come to of an interface, now or at its next call. -/
def willSend (s : Outboxes μ) (name : String) : List μ :=
  match s.flush with
  | none => s.getOutBox name
  | some (current, outmessges) => if name = current then outmessges else s.getOutBox name

/-- `name`'s outbox is being sent. -/
def sending (s : Outboxes μ) (name : String) : Bool := s.flush.any fun e => e.1 == name

section WillSend

variable {s : Outboxes μ} {name other : String} {given : μ} {rest : List μ}

@[simp] theorem getOutBox_send : (s.send name given).getOutBox other =
    if other = name then s.getOutBox name ++ [given] else s.getOutBox other := by
  by_cases h : other = name <;> simp [send, getOutBox, h]

theorem getOutBox_create {names : List String} : (create names : Outboxes μ).getOutBox name = [] := by
  cases h : (OrdSet.ofList names).lookup name <;> simp [create, getOutBox, h]

theorem willSend_create {names : List String} : (create names : Outboxes μ).willSend name = [] := getOutBox_create

/-- What is sent waits for `sendAll`, unless the outbox is being sent. -/
theorem willSend_send : (s.send name given).willSend other =
    s.willSend other ++ if other = name ∧ s.sending name = false then [given] else [] := by
  cases hf : s.flush with
  | none =>
    have hflush : (s.send name given).flush = none := hf
    by_cases h : other = name <;> simp [willSend, sending, hflush, hf, h]
  | some e =>
    obtain ⟨current, outmessges⟩ := e
    have hflush : (s.send name given).flush = some (current, outmessges) := hf
    by_cases h : other = current
    · subst h
      by_cases hn : other = name
      · subst hn
        simp [willSend, sending, hflush, hf]
      · simp [willSend, hflush, hf, hn]
    · by_cases hn : other = name
      · subst hn
        have hne : current ≠ other := Ne.symm h
        simp [willSend, sending, hflush, hf, h, hne]
      · simp [willSend, hflush, hf, h, hn]

theorem willSend_enter (h : s.flush = none) (name : Option String) : (s.enter name).willSend other = s.willSend other := by
  cases name with
  | none => simp [willSend, enter, h, getOutBox]
  | some name =>
    by_cases hn : other = name <;> simp [willSend, enter, h, hn, getOutBox]

theorem willSend_sendAll (h : s.flush = none) : s.sendAll.willSend other = s.willSend other := willSend_enter h _

/-- The next message of the copy is passed on. -/
theorem willSend_next (h : s.flush = some (name, given :: rest)) : s.willSend other =
    (if other = name then [given] else []) ++ { s with flush := some (name, rest) }.willSend other := by
  by_cases hn : other = name <;> simp [willSend, h, hn, getOutBox]

/-- Nothing of the copy is left when the outbox is cleared. -/
theorem willSend_clear (h : s.flush = some (name, [])) : (s.clear name).willSend other = s.willSend other := by
  have hrest : ({ outbox := s.outbox.insert name [], flush := none } : Outboxes μ).willSend other = s.willSend other := by
    by_cases hn : other = name <;> simp [willSend, h, hn, getOutBox]
  rw [← hrest]
  exact willSend_enter (s := { outbox := s.outbox.insert name [], flush := none }) rfl _

end WillSend

end Outboxes

/-! ## Runs -/

/-- The outboxes of a manager with what was sent through each interface, `true` for what was not sent while the
outbox was being sent, and what `sendAll` has come to. -/
structure Mailing (μ : Type) where
  boxes : Outboxes μ
  sent : String → List (μ × Bool)
  passed : List (String × μ)

namespace Mailing

variable {μ : Type}

/-- Calls of the simulation and of its notifiers, and the turns of `sendAll`. -/
inductive Call (μ : Type)
  | send (name : String) (given : μ)
  | sendAll
  | next
  | clear

def start (names : List String) : Mailing μ := ⟨.create names, fun _ => [], []⟩

def step (s : Mailing μ) : Call μ → Except Unit (Mailing μ)
  | .send name given =>
    if s.boxes.outbox.contains name then
      .ok { s with
        boxes := s.boxes.send name given
        sent := Function.update s.sent name (s.sent name ++ [(given, !s.boxes.sending name)]) }
    else .error ()
  | .sendAll => if s.boxes.flush.isNone then .ok { s with boxes := s.boxes.sendAll } else .error ()
  | .next =>
    match s.boxes.flush with
    | some (name, given :: rest) =>
      .ok { s with
        boxes := { s.boxes with flush := some (name, rest) }
        passed := s.passed ++ [(name, given)] }
    | _ => .error ()
  | .clear =>
    match s.boxes.flush with
    | some (name, []) => .ok { s with boxes := s.boxes.clear name }
    | _ => .error ()

/-- What was not sent while the outbox was being sent. -/
def onTime (l : List (μ × Bool)) : List μ := (l.filter fun e => e.2).map Prod.fst

/-- What has been passed on of interface `name`. -/
def passedOf (s : Mailing μ) (name : String) : List μ := (s.passed.filter fun e => e.1 = name).map Prod.snd

theorem onTime_append (l l' : List (μ × Bool)) : onTime (l ++ l') = onTime l ++ onTime l' := by simp [onTime]

/-- What was on time is passed on or waits for `sendAll`, in the order in which it was sent. -/
structure Accounted (s : Mailing μ) : Prop where
  equation : ∀ name, onTime (s.sent name) = s.passedOf name ++ s.boxes.willSend name
  current : ∀ name rest, s.boxes.flush = some (name, rest) → name ∈ s.boxes.outbox.dom
  interfaces : ∀ name, name ∉ s.boxes.outbox.dom → s.sent name = []

/-- What had been sent at `t` is passed on once `sendAll` is past its interface. -/
structure Covers (t s : Mailing μ) : Prop where
  sent : ∀ name, t.sent name <+: s.sent name
  passed : ∀ name, (∀ current rest, s.boxes.flush = some (current, rest) → name < current) →
    onTime (t.sent name) <+: s.passedOf name

section Steps

variable {s s' t : Mailing μ} {names : List String} {name other : String} {given : μ}

theorem send_ok : s.step (.send name given) = .ok s' ↔ name ∈ s.boxes.outbox.dom ∧ s' = { s with
    boxes := s.boxes.send name given
    sent := Function.update s.sent name (s.sent name ++ [(given, !s.boxes.sending name)]) } := by
  rw [← OrdMap.contains_iff]
  by_cases h : s.boxes.outbox.contains name <;> simp [step, h, eq_comm]

theorem sendAll_ok : s.step .sendAll = .ok s' ↔ s.boxes.flush = none ∧ s' = { s with boxes := s.boxes.sendAll } := by
  unfold step
  cases hf : s.boxes.flush with
  | none => exact ⟨fun h => ⟨rfl, (Except.ok.inj h).symm⟩, fun h => congrArg Except.ok h.2.symm⟩
  | some e => exact ⟨nofun, fun h => nomatch h.1⟩

theorem next_ok : s.step .next = .ok s' ↔ ∃ name given rest, s.boxes.flush = some (name, given :: rest) ∧ s' = { s with
    boxes := { s.boxes with flush := some (name, rest) }
    passed := s.passed ++ [(name, given)] } := by
  simp only [step]
  split
  · next name given rest h => simp [h, eq_comm]
  · next h => exact ⟨nofun, fun ⟨name, given, rest, hf, _⟩ => absurd hf (h name given rest)⟩

theorem clear_ok : s.step .clear = .ok s' ↔
    ∃ name, s.boxes.flush = some (name, []) ∧ s' = { s with boxes := s.boxes.clear name } := by
  simp only [step]
  split
  · next name h => simp [h, eq_comm]
  · next h => exact ⟨nofun, fun ⟨name, hf, _⟩ => absurd hf (h name)⟩

theorem Accounted.start : Accounted (start names : Mailing μ) where
  equation name := by simp [Mailing.start, onTime, passedOf, Outboxes.willSend_create]
  current name rest h := by cases h
  interfaces name _ := rfl

/-- The interfaces `sendAll` comes to are registered. -/
theorem current_enter (boxes : Outboxes μ) {first : Option String} (h : ∀ name ∈ first, name ∈ boxes.outbox.dom)
    (rest : List μ) (hf : (boxes.enter first).flush = some (name, rest)) : name ∈ boxes.outbox.dom := by
  cases first with
  | none => cases hf
  | some other =>
    obtain ⟨rfl, -⟩ := by simpa [Outboxes.enter] using hf
    exact h _ rfl

theorem Accounted.step (h : Accounted s) {c : Call μ} (hs : s.step c = .ok s') : Accounted s' := by
  obtain ⟨hequation, hcurrent, hinterfaces⟩ := h
  cases c with
  | send name given =>
    obtain ⟨hname, rfl⟩ := send_ok.mp hs
    have hdom : (s.boxes.send name given).outbox.dom = s.boxes.outbox.dom := by simpa [Outboxes.send] using hname
    refine ⟨fun other => ?_, fun other rest hf => hdom ▸ hcurrent other rest hf, fun other ho => ?_⟩
    · have hother := hequation other
      by_cases ho : other = name
      · subst ho
        show onTime (Function.update s.sent other _ other) = s.passedOf other ++ _
        rw [Outboxes.willSend_send, Function.update_self, onTime_append, hother, List.append_assoc]
        cases hb : s.boxes.sending other <;> simp [onTime]
      · show onTime (Function.update s.sent name _ other) = s.passedOf other ++ _
        rw [Outboxes.willSend_send, Function.update_of_ne ho, hother]
        simp [ho]
    · show Function.update s.sent name _ other = []
      have hne : other ≠ name := fun he => ho (hdom ▸ he ▸ hname)
      rw [Function.update_of_ne hne]
      exact hinterfaces other (hdom ▸ ho)
  | sendAll =>
    obtain ⟨hflush, rfl⟩ := sendAll_ok.mp hs
    refine ⟨fun other => ?_, fun other rest hf => current_enter _ ?_ rest hf, hinterfaces⟩
    · show _ = s.passedOf other ++ _
      rw [Outboxes.willSend_sendAll hflush]
      exact hequation other
    · intro first hfirst
      exact List.mem_toFinset.mpr (List.mem_of_head? hfirst)
  | next =>
    obtain ⟨name, given, rest, hflush, rfl⟩ := next_ok.mp hs
    refine ⟨fun other => ?_, fun other rest' hf => ?_, hinterfaces⟩
    · rw [hequation other, Outboxes.willSend_next hflush, ← List.append_assoc]
      by_cases ho : other = name
      · subst ho
        simp [passedOf]
      · simp [passedOf, ho, Ne.symm ho]
    · obtain ⟨rfl, -⟩ := by simpa using hf
      exact hcurrent name _ hflush
  | clear =>
    obtain ⟨name, hflush, rfl⟩ := clear_ok.mp hs
    have hname := hcurrent name _ hflush
    have hdom : (s.boxes.outbox.insert name []).dom = s.boxes.outbox.dom := by simpa using hname
    refine ⟨fun other => ?_, fun other rest hf => ?_, fun other ho => hinterfaces other (hdom ▸ ho)⟩
    · show _ = s.passedOf other ++ _
      rw [Outboxes.willSend_clear hflush]
      exact hequation other
    · refine current_enter { s.boxes with outbox := s.boxes.outbox.insert name [] } ?_ rest hf
      intro first hfirst
      rw [hdom]
      exact List.mem_toFinset.mpr (List.mem_of_find?_eq_some hfirst)

/-- Nothing is sent through what is not an interface, nor left of an interface `sendAll` has passed. -/
theorem Accounted.passed (h : Accounted s) (hwait : name ∈ s.boxes.outbox.dom → s.boxes.willSend name = []) :
    onTime (s.sent name) = s.passedOf name := by
  by_cases hn : name ∈ s.boxes.outbox.dom
  · rw [h.equation, hwait hn, List.append_nil]
  · have hsent := h.interfaces name hn
    have heq := h.equation name
    rw [hsent] at heq ⊢
    exact (List.append_eq_nil_iff.mp heq.symm).1.symm

theorem sent_grows {c : Call μ} (hs : s.step c = .ok s') : s.sent other <+: s'.sent other := by
  cases c with
  | send name given =>
    obtain ⟨-, rfl⟩ := send_ok.mp hs
    by_cases ho : other = name
    · subst ho
      simp
    · simp [ho]
  | sendAll =>
    obtain ⟨-, rfl⟩ := sendAll_ok.mp hs
    exact List.prefix_rfl
  | next =>
    obtain ⟨_, _, _, -, rfl⟩ := next_ok.mp hs
    exact List.prefix_rfl
  | clear =>
    obtain ⟨_, -, rfl⟩ := clear_ok.mp hs
    exact List.prefix_rfl

theorem passedOf_grows {c : Call μ} (hs : s.step c = .ok s') : s.passedOf other <+: s'.passedOf other := by
  cases c with
  | send name given =>
    obtain ⟨-, rfl⟩ := send_ok.mp hs
    exact List.prefix_rfl
  | sendAll =>
    obtain ⟨-, rfl⟩ := sendAll_ok.mp hs
    exact List.prefix_rfl
  | next =>
    obtain ⟨_, _, _, -, rfl⟩ := next_ok.mp hs
    simp [passedOf]
  | clear =>
    obtain ⟨_, -, rfl⟩ := clear_ok.mp hs
    exact List.prefix_rfl

theorem onTime_mono {l l' : List (μ × Bool)} (h : l <+: l') : onTime l <+: onTime l' := by
  obtain ⟨r, rfl⟩ := h
  rw [onTime_append]
  exact List.prefix_append _ _

/-- Of the keys that pass a test the first one found is the least. -/
theorem find?_keys_le {α : Type} {m : OrdMap String α} {p : String → Bool} (h : m.keys.find? p = some name)
    (ho : other ∈ m.dom) (hp : p other = true) : name ≤ other := by
  obtain ⟨-, l, r, hl, hno⟩ := List.find?_eq_some_iff_append.mp h
  have hsorted : m.keys.Pairwise (· < ·) := List.pairwise_map.mpr m.sorted
  rw [hl, List.pairwise_append] at hsorted
  have hmem : other ∈ l ++ name :: r := hl ▸ List.mem_toFinset.mp ho
  rcases List.mem_append.mp hmem with hmem | hmem
  · exact absurd hp (by simpa using hno other hmem)
  · rcases List.mem_cons.mp hmem with rfl | hmem
    · exact le_rfl
    · exact ((List.pairwise_cons.mp hsorted.2.1).1 other hmem).le

/-- `sendAll` at its first interface: nothing is passed, and there is no interface before. -/
theorem Covers.sendAll (h : Accounted t) (hs : t.step .sendAll = .ok s) : Covers t s := by
  obtain ⟨-, rfl⟩ := sendAll_ok.mp hs
  refine ⟨fun name => List.prefix_rfl, fun name hpast => ?_⟩
  have hn : name ∉ t.boxes.outbox.dom := by
    intro hn
    cases hk : t.boxes.outbox.keys with
    | nil =>
      have hmem : name ∈ t.boxes.outbox.keys := List.mem_toFinset.mp hn
      rw [hk] at hmem
      cases hmem
    | cons first keys =>
      have hfind : t.boxes.outbox.keys.find? (fun _ => true) = some first := by rw [hk]; rfl
      have hle := find?_keys_le hfind hn rfl
      have hflush : t.boxes.sendAll.flush = some (first, t.boxes.getOutBox first) := by
        simp only [Outboxes.sendAll, hk, List.head?_cons, Outboxes.enter, Option.map_some]
      exact absurd (hpast first _ hflush) (not_lt.mpr hle)
  rw [h.interfaces name hn]
  exact List.nil_prefix

theorem Covers.step (h : Covers t s) (ha : Accounted s) {c : Call μ} (hs : s.step c = .ok s') : Covers t s' := by
  refine ⟨fun name => (h.sent name).trans (sent_grows hs), fun name hpast => ?_⟩
  by_cases hbefore : ∀ current rest, s.boxes.flush = some (current, rest) → name < current
  · exact (h.passed name hbefore).trans (passedOf_grows hs)
  · -- the step takes `sendAll` past `name`
    push Not at hbefore
    obtain ⟨current, rest, hflush, hle⟩ := hbefore
    suffices hwait : name ∈ s.boxes.outbox.dom → s.boxes.willSend name = [] from
      (onTime_mono (h.sent name)).trans (ha.passed hwait ▸ passedOf_grows hs)
    intro hn
    cases c with
    | send other given =>
      obtain ⟨-, rfl⟩ := send_ok.mp hs
      exact absurd (hpast current rest hflush) (not_lt.mpr hle)
    | sendAll => cases hflush.symm.trans (sendAll_ok.mp hs).1
    | next =>
      obtain ⟨other, given, left, hnext, rfl⟩ := next_ok.mp hs
      obtain ⟨rfl, -⟩ := by simpa using hflush.symm.trans hnext
      exact absurd (hpast current left rfl) (not_lt.mpr hle)
    | clear =>
      obtain ⟨other, hclear, rfl⟩ := clear_ok.mp hs
      obtain ⟨rfl, rfl⟩ := by simpa using hflush.symm.trans hclear
      obtain rfl | hlt := hle.eq_or_lt
      · simp [Outboxes.willSend, hflush]
      · -- the interface after `current` does not come after `name`
        cases hfind : s.boxes.outbox.keys.find? fun other => current < other with
        | none => exact absurd (List.find?_eq_none.mp hfind name (List.mem_toFinset.mp hn)) (by simpa using hlt)
        | some after =>
          have hflush' : (s.boxes.clear current).flush.map Prod.fst = some after := by
            simp only [Outboxes.clear, hfind, Outboxes.enter, Option.map_some]
          obtain ⟨⟨_, copy⟩, hcopy, rfl⟩ := Option.map_eq_some_iff.mp hflush'
          exact absurd (hpast _ copy hcopy) (not_lt.mpr (find?_keys_le hfind hn (by simpa using hlt)))

/-- What `sendAll` comes to. Whatever is sent through an interface is passed on once, in order, or waits for
`sendAll`, unless it was sent while the outbox was being sent; and once a call of `sendAll` is over, everything
sent before the call is passed on. -/
theorem outboxes_accounted {cs : List (Call μ)} (hrun : Trace.run step (start names) cs = .ok s) :
    (∀ name, onTime (s.sent name) = s.passedOf name ++ s.boxes.willSend name) ∧
    ∀ before rest t, cs = before ++ .sendAll :: rest → Trace.run step (start names) before = .ok t →
      s.boxes.flush = none → ∀ name, onTime (t.sent name) <+: s.passedOf name := by
  have haccounted : ∀ {cs} {s : Mailing μ}, Trace.run step (start names) cs = .ok s → Accounted s := fun hrun =>
    Trace.run_invariant (fun _ _ _ h hs => h.step hs) .start hrun
  refine ⟨(haccounted hrun).equation, ?_⟩
  rintro before rest t rfl ht hflush name
  obtain ⟨t', ht', hrun⟩ := Trace.run_append.mp hrun
  obtain rfl := Except.ok.inj (ht.symm.trans ht')
  obtain ⟨u, hu, hrun⟩ := Trace.run_cons.mp hrun
  have hcover : Covers t s ∧ Accounted s := Trace.run_invariant (I := fun s => Covers t s ∧ Accounted s)
    (fun _ _ _ h hs => ⟨h.1.step h.2 hs, h.2.step hs⟩) ⟨.sendAll (haccounted ht) hu, (haccounted ht).step hu⟩ hrun
  exact hcover.1.passed name fun _ _ hf => nomatch hflush.symm.trans hf

end Steps

/-- Two messages wait when `sendAll` is called. While the first is being sent, a notifier sends a third through the
same interface, which is not passed on, and one through an interface that `sendAll` has yet to come to. -/
def notifierSends : List (Call ℕ) :=
  [.send "a" 1, .send "b" 2, .sendAll, .next, .send "a" 3, .send "b" 4, .clear, .next, .next, .clear]

theorem outboxes_accounted_notifier : ∃ s, Trace.run step (start ["a", "b"]) notifierSends = .ok s ∧
    s.passed = [("a", 1), ("b", 2), ("b", 4)] ∧ s.sent "a" = [(1, true), (3, false)] ∧
    (∀ name, onTime (s.sent name) = s.passedOf name ++ s.boxes.willSend name) ∧
    ∀ before rest t, notifierSends = before ++ .sendAll :: rest → Trace.run step (start ["a", "b"]) before = .ok t →
      s.boxes.flush = none → ∀ name, onTime (t.sent name) <+: s.passedOf name := by
  obtain ⟨s, hrun, hcheck⟩ := Trace.exists_run_of_check step (start ["a", "b"]) notifierSends
    (fun s => s.passed == [("a", 1), ("b", 2), ("b", 4)] && s.sent "a" == [(1, true), (3, false)]) (by decide)
  simp only [Bool.and_eq_true, beq_iff_eq] at hcheck
  exact ⟨s, hrun, hcheck.1, hcheck.2, outboxes_accounted hrun⟩

end Mailing

end Fncs

/-
Broadcasts through the net sim. The sender counts a broadcast by the number of
objects the broker answered, the net sim's ledger by its own interfaces, and the
net sim hands out one copy for each object but the sender. The copies are new
messages, whose constructor takes the net sim's own time.
-/
import Fncs.Broker.Finalize
import Fncs.Sync.Ledger

namespace Fncs

open Broker (HelloGroup Registration Interleaves UniqueNames handleAll counts)

/-- The constructor: `timeStamp` is a time of the simulator. -/
def Message.construct (g : Integrator) (msgFrom msgTo : String) (timeStamp : TIME) : Message where
  msgFrom := msgFrom
  msgTo := msgTo
  timeStamp := g.toFramework timeStamp
  delayThroughComm := true

/-- A name that is registered already is refused. -/
def AbsCommManager.addObjectInterface (interfaces : OrdSet String) (objectName : String) :
    Except Thrown (OrdSet String) :=
  if interfaces.contains objectName then .error .objectInterfaceRegistration else .ok (interfaces.add objectName)

/-- The interfaces of a manager once `names` are registered. -/
def AbsCommManager.addAll (interfaces : OrdSet String) : List String → Except Thrown (OrdSet String)
  | [] => .ok interfaces
  | name :: names => (addObjectInterface interfaces name).bind fun interfaces => addAll interfaces names

namespace CommunicationComManager

/-- `interfaces.size() - 1`, added to a `uint32_t`. -/
def broadcastTokens (interfaces : OrdSet String) : ℕ := (interfaces.keys.length + (uintSize - 1)) % uintSize

/-- The copies of a broadcast, for every object but the sender. -/
def copies (g : Integrator) (interfaces : OrdSet String) (m : Message) : List Message :=
  (interfaces.keys.filter fun name => name ≠ m.msgFrom).map fun name =>
    .construct g m.msgFrom name m.timeStamp

/-- What an arrival hands to the simulation. -/
def handedOut (g : Integrator) (interfaces : OrdSet String) (packetLostPeriod currentTime : TIME) (m : Message) :
    List Message :=
  if tooOld packetLostPeriod currentTime m then []
  else if m.isBroadCast then copies g interfaces m
  else [m]

theorem addMessageTimeout_broadcast (interfaces : OrdSet String) (packets : OrdMap TIME ℕ) (t : TIME) :
    addMessageTimeout interfaces.keys packets t true =
      packets.insert t (((packets.lookup t).getD 0 + broadcastTokens interfaces) % uintSize) := by
  rw [broadcastTokens, Nat.add_mod_mod]
  rfl

theorem length_copies (g : Integrator) {interfaces : OrdSet String} {m : Message} (h : m.msgFrom ∈ interfaces.dom) :
    (copies g interfaces m).length + 1 = interfaces.keys.length := by
  have hmem : m.msgFrom ∈ interfaces.keys := List.mem_toFinset.mp h
  have herase : (interfaces.keys.filter fun name => decide (name ≠ m.msgFrom)) = interfaces.keys.erase m.msgFrom := by
    rw [interfaces.nodup_keys.erase_eq_filter]
    refine List.filter_congr fun name _ => ?_
    by_cases hname : name = m.msgFrom <;> simp [hname]
  rw [copies, List.length_map, herase, List.length_erase_of_mem hmem, Nat.sub_add_cancel (List.length_pos_of_mem hmem)]

/-- The ledger's share and the copies, when the counter's type holds them. -/
theorem broadcastTokens_eq (g : Integrator) {interfaces : OrdSet String} {m : Message}
    (h : m.msgFrom ∈ interfaces.dom) : broadcastTokens interfaces = (copies g interfaces m).length % uintSize := by
  have hpos : 0 < uintSize := by decide
  rw [broadcastTokens, ← length_copies g h, Nat.add_assoc, Nat.add_sub_cancel' hpos, Nat.add_mod_right]

end CommunicationComManager

/-! ## Counting at both ends -/

namespace AbsCommManager

theorem addAll_eq {interfaces : OrdSet String} {names : List String} (hn : names.Nodup)
    (hd : ∀ name ∈ names, name ∉ interfaces.dom) : addAll interfaces names = .ok (names.foldl OrdSet.add interfaces) := by
  induction names generalizing interfaces with
  | nil => rfl
  | cons name names ih =>
    obtain ⟨hnew, hn⟩ := List.nodup_cons.mp hn
    have hfree : ¬ interfaces.contains name = true := by
      rw [OrdMap.contains_iff]
      exact hd name List.mem_cons_self
    have hrest : ∀ x ∈ names, x ∉ (interfaces.add name).dom := by
      intro x hx
      rw [OrdSet.dom_add, Finset.mem_insert, not_or]
      exact ⟨fun h => hnew (h ▸ hx), hd x (List.mem_cons_of_mem name hx)⟩
    rw [addAll, addObjectInterface, if_neg hfree]
    exact ih hn hrest

end AbsCommManager

/-- `scount` is the number it is cast from as long as an `int` holds it. -/
theorem GracePeriodCommManager.scount_eq_iff {n : ℕ} (hn : 1 ≤ n) :
    GracePeriodCommManager.scount n = ((n - 1 : ℕ) : ℤ) ↔ n ≤ 2 ^ 31 := by
  have hsize : uintSize = 4294967296 := by decide
  rw [scount, hsize, Int.bmod_def]
  omega

section Accounting

variable {ι : Type} [LinearOrder ι] {group : HelloGroup ι} {objs : ι → List String} {rs : List (Registration ι)}

theorem filter_counts (group : HelloGroup ι) (objs : ι → List String) {i : ι} (hi : i ∈ group.members) :
    (counts group objs).filter (fun x => x.1 = i) = [(i, .objectCount (objs group.netSim).length)] := by
  have hmem : i ∈ (OrdSet.ofList group.members).keys := by
    rw [← List.mem_toFinset, OrdMap.toFinset_keys, OrdSet.dom_ofList]
    exact List.mem_toFinset.mpr hi
  have hkeys : (OrdSet.ofList group.members).keys.filter (fun j => decide (j = i)) = [i] := by
    rw [List.filter_eq, List.count_eq_one_of_mem (OrdMap.nodup_keys _) hmem]
    rfl
  rw [counts, List.filter_map]
  exact congrArg (List.map _) hkeys

/-- For a net sim with the objects `names`: the three counts agree as long as an `int` holds the number of objects. -/
theorem counts_agree_iff (g : Integrator) {names : List String} {m : Message} (hn : names.Nodup)
    (hm : m.msgFrom ∈ names) :
    GracePeriodCommManager.scount names.length = CommunicationComManager.broadcastTokens (.ofList names) ∧
        CommunicationComManager.broadcastTokens (.ofList names) =
          (CommunicationComManager.copies g (.ofList names) m).length ↔
      names.length ≤ 2 ^ 31 := by
  have hkeys : (OrdSet.ofList names).keys.length = names.length := by
    rw [OrdMap.keys, List.length_map]
    exact HelloGroup.size_ofList hn
  have hdom : m.msgFrom ∈ (OrdSet.ofList names).dom := by
    rw [OrdSet.dom_ofList]
    exact List.mem_toFinset.mpr hm
  have hpos : 1 ≤ names.length := List.length_pos_of_mem hm
  have hlen := CommunicationComManager.length_copies g hdom
  have hcopies : (CommunicationComManager.copies g (OrdSet.ofList names) m).length = names.length - 1 := by omega
  have hsize : uintSize = 4294967296 := by decide
  rw [CommunicationComManager.broadcastTokens_eq g hdom, hcopies, ← GracePeriodCommManager.scount_eq_iff hpos]
  constructor
  · rintro ⟨hsent, htokens⟩
    rw [hsent, htokens]
  · intro hsent
    have hle := (GracePeriodCommManager.scount_eq_iff hpos).mp hsent
    have hmod : (names.length - 1) % uintSize = names.length - 1 := Nat.mod_eq_of_lt (by omega)
    rw [hmod]
    exact ⟨hsent, rfl⟩

theorem mem_counts {i : ι} {r : Broker.Reply} (h : (i, r) ∈ counts group objs) :
    r = .objectCount (objs group.netSim).length := by
  obtain ⟨j, -, hj⟩ := List.mem_map.mp h
  exact (Prod.mk.inj hj).2.symm

theorem addAll_netSim (hu : UniqueNames group objs) :
    AbsCommManager.addAll ∅ (objs group.netSim) = .ok (OrdSet.ofList (objs group.netSim)) :=
  AbsCommManager.addAll_eq (hu.nodup group.netSim group.netSim_mem) fun name _ => by simp

/-- Every simulator is answered the same count, once, and for every broadcast the sender's count, the net sim's tokens
and the copies are the same number exactly when an `int` holds the number of objects. -/
theorem broadcast_accounting (g : Integrator) (hl : Interleaves group objs rs) (hu : UniqueNames group objs) :
    ∃ b out interfaces, handleAll group.formed (rs.map Registration.frame) = .ok (b, out) ∧
      AbsCommManager.addAll ∅ (objs group.netSim) = .ok interfaces ∧
      (∀ i ∈ group.members,
        out.filter (fun x => x.1 = i) = [(i, .objectCount (objs group.netSim).length)]) ∧
      ∀ i ∈ group.members, i ≠ group.netSim → ∀ (count : ℕ) (m : Message), (i, .objectCount count) ∈ out →
        m.isBroadCast = true → m.msgFrom ∈ objs i → m.msgFrom ∈ objs group.netSim →
          (GracePeriodCommManager.scount count = CommunicationComManager.broadcastTokens interfaces ∧
              CommunicationComManager.broadcastTokens interfaces =
                (CommunicationComManager.copies g interfaces m).length ↔
            (objs group.netSim).length ≤ 2 ^ 31) := by
  obtain ⟨b, hrun⟩ := Broker.handleAll_registrations hl hu
  refine ⟨b, counts group objs, _, hrun, addAll_netSim hu, fun i hi => filter_counts group objs hi, ?_⟩
  intro i _ _ count m hcount _ _ hfrom
  have hcount : count = (objs group.netSim).length := by simpa using mem_counts hcount
  rw [hcount]
  exact counts_agree_iff g (hu.nodup group.netSim group.netSim_mem) hfrom

/-- Three objects, each registered by its simulator and on the net sim, 3. -/
def threeObjects : ℕ → List String
  | 0 => ["a"]
  | 1 => ["b"]
  | 2 => ["c"]
  | _ => ["b", "c", "a"]

/-- The net sim is in the middle of the others, and is not the last to finalize. -/
def threeInterleaved : List (Registration ℕ) :=
  [.object 3 "b", .object 1 "b", .done 1, .object 3 "c", .object 0 "a", .object 3 "a", .done 3, .object 2 "c", .done 2,
    .done 0]

theorem broadcast_accounting_three :
    ∃ b out interfaces, handleAll Broker.fourMembers.formed (threeInterleaved.map Registration.frame) = .ok (b, out) ∧
      AbsCommManager.addAll ∅ (threeObjects 3) = .ok interfaces ∧
      (∀ i ∈ Broker.fourMembers.members, out.filter (fun x => x.1 = i) = [(i, .objectCount 3)]) ∧
      ∀ i ∈ Broker.fourMembers.members, i ≠ 3 → ∀ (count : ℕ) (m : Message), (i, .objectCount count) ∈ out →
        m.isBroadCast = true → m.msgFrom ∈ threeObjects i → m.msgFrom ∈ threeObjects 3 →
          (GracePeriodCommManager.scount count = CommunicationComManager.broadcastTokens interfaces ∧
              CommunicationComManager.broadcastTokens interfaces =
                (CommunicationComManager.copies (.init .seconds 0 1) interfaces m).length ↔ 3 ≤ 2 ^ 31) :=
  broadcast_accounting (.init .seconds 0 1)
    (show Interleaves Broker.fourMembers threeObjects threeInterleaved from ⟨by decide, by decide⟩)
    ⟨by decide, by decide⟩

/-- One name for each number, its binary digits. -/
def tallyName (k : ℕ) : String := String.ofList ('n' :: k.bits.map fun d => if d then 'i' else 'o')

theorem tallyName_injective : Function.Injective tallyName := by
  intro k k' h
  have hletter : Function.Injective fun d : Bool => if d then 'i' else 'o' := by decide
  have hbits : k.bits = k'.bits := hletter.list_map (List.cons.inj (String.ofList_injective h)).2
  exact Nat.digits_inj_iff.mp ((Nat.digits_two_eq_bits k).trans (hbits ▸ (Nat.digits_two_eq_bits k').symm))

/-- A simulator with one object and a net sim with one more than an `int` counts. -/
def manyObjects : ℕ → List String
  | 0 => [tallyName 0]
  | _ => (List.range (2 ^ 31 + 1)).map tallyName

def twoMembers : HelloGroup ℕ := ⟨[0, 1], by decide, 1, by decide⟩

theorem uniqueNames_manyObjects : UniqueNames twoMembers manyObjects where
  nodup i _ := by
    cases i with
    | zero => exact List.nodup_singleton _
    | succ i => exact List.nodup_range.map tallyName_injective
  disjoint i hi j hj hne hne' hij := by
    have hcases : ∀ i ∈ twoMembers.members, i ≠ twoMembers.netSim → i = 0 := by decide
    rw [hcases i hi hne, hcases j hj hne'] at hij
    exact absurd rfl hij

/-- With 2³¹ + 1 objects the sender counts a negative number. -/
theorem broadcast_count_negative :
    ¬ ∀ (group : HelloGroup ℕ) (objs : ℕ → List String) (rs : List (Registration ℕ)) (g : Integrator),
      Interleaves group objs rs → UniqueNames group objs →
        ∃ b out interfaces, handleAll group.formed (rs.map Registration.frame) = .ok (b, out) ∧
          AbsCommManager.addAll ∅ (objs group.netSim) = .ok interfaces ∧
          (∀ i ∈ group.members,
            out.filter (fun x => x.1 = i) = [(i, .objectCount (objs group.netSim).length)]) ∧
          ∀ i ∈ group.members, i ≠ group.netSim → ∀ (count : ℕ) (m : Message), (i, .objectCount count) ∈ out →
            m.isBroadCast = true → m.msgFrom ∈ objs i → m.msgFrom ∈ objs group.netSim →
              GracePeriodCommManager.scount count = CommunicationComManager.broadcastTokens interfaces ∧
                CommunicationComManager.broadcastTokens interfaces =
                  (CommunicationComManager.copies g interfaces m).length := by
  intro hall
  have hu := uniqueNames_manyObjects
  have hl := Broker.interleaves_program twoMembers manyObjects
  obtain ⟨b, out, interfaces, hrun, htable, hans, hagree⟩ :=
    hall twoMembers manyObjects _ (.init .seconds 0 1) hl hu
  have h0 : (0 : ℕ) ∈ twoMembers.members := by decide
  have hcount : (0, .objectCount (manyObjects twoMembers.netSim).length) ∈ out := by
    have hin : (0, .objectCount (manyObjects twoMembers.netSim).length) ∈ out.filter fun x => x.1 = 0 := by
      rw [hans 0 h0]
      exact List.mem_cons_self
    exact List.mem_of_mem_filter hin
  have hfrom : tallyName 0 ∈ manyObjects twoMembers.netSim :=
    List.mem_map_of_mem (List.mem_range.mpr (Nat.succ_pos _))
  have hboth := hagree 0 h0 (by decide) _ ⟨tallyName 0, "*", 0, true⟩ hcount (by decide) List.mem_cons_self hfrom
  rw [addAll_netSim hu, Except.ok.injEq] at htable
  rw [← htable, counts_agree_iff _ (hu.nodup twoMembers.netSim twoMembers.netSim_mem) hfrom] at hboth
  have hlen : (manyObjects twoMembers.netSim).length = 2 ^ 31 + 1 := by
    rw [show manyObjects twoMembers.netSim = (List.range (2 ^ 31 + 1)).map tallyName from rfl, List.length_map,
      List.length_range]
  omega

end Accounting

end Fncs

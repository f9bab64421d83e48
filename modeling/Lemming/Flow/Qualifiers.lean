import Lemming.Flow.Standing

set_option autoImplicit false

namespace Lemming.Flow

open Packet Shared

variable {A : Type} {maxSize : FieldID → Nat} {sets : Sets}

-- Each qualifier field of the flow is in the packet, and its padded value is in the named set.
def Desc.Qualified (sets : Sets) (maxSize : FieldID → Nat) (packet : PacketFields) (fd : Desc) :
    Prop :=
  ∀ f s, fd.qualifiers.lookup f = some s →
    ∃ bytes members, packet f = some bytes ∧ sets s = some members ∧ pad maxSize f bytes ∈ members

def Enforced (fd : Desc) (q : EntryQualifier) : Prop :=
  ∀ f s, fd.qualifiers.lookup f = some s → q.values.lookup f = some s

section Fields

variable {l : FieldList}

theorem makePacketQualifier_lookup {packet : PacketFields} (f : FieldID) :
    (l.makePacketQualifier maxSize packet).lookup f =
      if f ∈ l.fields then (packet f).map (pad maxSize f) else none := by
  -- A field that the packet has not leaves what is in the qualifier so far.
  refine Eq.trans (b := Option.or _ (AList.lookup f (∅ : PacketQualifier))) ?_ Option.or_none
  rw [FieldList.makePacketQualifier]
  generalize (∅ : PacketQualifier) = q
  induction l.fields generalizing q with
  | nil => rfl
  | cons id rest ih =>
    rw [List.foldl_cons, ih]
    by_cases same : f = id
    · subst same
      by_cases listed : f ∈ rest <;> cases packet f <;> simp [listed]
    · cases packet id <;> simp [same]

theorem Enforced.qualified {fd : Desc} {q : EntryQualifier} (enforced : Enforced fd q) {packet : PacketFields}
    (passes : q.match sets (l.makePacketQualifier maxSize packet) = true) :
    fd.Qualified sets maxSize packet := by
  intro f s isSet
  have member : (⟨f, s⟩ : Sigma fun _ : FieldID => SetId) ∈ q.values.entries :=
    AList.mem_lookup_iff.mp (enforced f s isSet)
  have held := List.all_eq_true.mp passes ⟨f, s⟩ member
  dsimp only at held
  rw [makePacketQualifier_lookup] at held
  by_cases listed : f ∈ l.fields
  · cases isField : packet f with
    | none => simp [isField] at held
    | some bytes =>
      cases there : sets s with
      | none => simp [there, listed, isField] at held
      | some members => exact ⟨bytes, members, rfl, rfl, by simpa [listed, isField, there] using held⟩
  · simp [listed] at held

theorem makeEntryQualifier_enforced {fd : Desc} {q : EntryQualifier}
    (made : l.makeEntryQualifier sets fd = .ok q) (covers : ∀ f ∈ fd.qualifiers, f ∈ l.fields) :
    Enforced fd q := by
  intro f s isSet
  have member : f ∈ fd.qualifiers := AList.lookup_isSome.mp (by rw [isSet]; rfl)
  rw [makeEntryQualifier_lookup made f, if_pos (covers f member)]
  exact isSet

end Fields

def Map.Covers (m : Map A) (fd : Desc) : Prop :=
  ∀ f ∈ fd.qualifiers, f ∈ m.qualifierFields.fields

def FlowBank.Covers (b : FlowBank A) (p : UInt32) (fd : Desc) : Prop :=
  ∀ id level, b.levels.lookup p = some id → b.nodes id = some level → level.flows.Covers fd

theorem FlowBank.Standing.matchLoop_qualified {b : FlowBank A} {keys quals : FieldList}
    (standing : b.Standing maxSize keys quals Enforced) {l : FieldList} {packet : PacketFields}
    {key : PacketKey} :
    (b.matchLoop sets key (l.makePacketQualifier maxSize packet) b.allocated b.head).Whenever
      fun found => ∀ flow ∈ found, flow.1.Qualified sets maxSize packet := by
  obtain ⟨ids, arranged⟩ := standing
  intro found matched flow isFlow
  rw [arranged.matchLoop fun m facts => facts.match_eq sets key _] at matched
  cases matched
  obtain ⟨id, member, hit⟩ := List.exists_of_findSome?_eq_some isFlow
  obtain ⟨level, present, facts⟩ := arranged.present id member
  rw [present] at hit
  obtain ⟨entry, isEntry, rfl⟩ := Option.map_eq_some_iff.mp hit
  obtain ⟨n, found, isEntry⟩ := Option.bind_eq_some_iff.mp isEntry
  have passes := List.find?_some found
  rw [Map.admits, isEntry, Bool.and_eq_true] at passes
  exact (facts.known (List.mem_of_find?_eq_some found) isEntry).2.2.qualified passes.2

namespace Table

variable {t t' : Table A} {fd : Desc}

-- A flow is added to a level that makes a qualifier of each of its qualifier fields, or to a new level.
def Covers (t : Table A) : Op A → Prop
  | .addEntry _ (some flow) (.ok _) => ∀ fd bank, newDesc flow.fields flow.qualifiers = .ok fd →
    t.banks[flow.bank.toNat]? = some bank → bank.Covers flow.priority fd
  | _ => True

theorem Covers.suits {op : Op A} (covers : t.Covers op) (sets : Sets) : t.Suits sets Enforced op := by
  unfold Suits
  split
  · intro fd l q built takes made
    refine makeEntryQualifier_enforced made fun f member => ?_
    rw [Takes] at takes
    split at takes
    · next flow _ level isLevel =>
      obtain ⟨bank, present, inBank⟩ := Option.bind_eq_some_iff.mp isLevel
      obtain ⟨id, found, node⟩ := Option.bind_eq_some_iff.mp inBank
      rw [takes]
      exact covers fd bank built present id level found node f member
    · exact takes f member
  · exact trivial

def AllCovered (sets : Sets) (maxSize : FieldID → Nat) (t : Table A) (ops : List (Op A)) : Prop :=
  ∀ before op, before ++ [op] <+: ops →
    (t.run sets maxSize before).Whenever fun reached => reached.Covers op

theorem Standing.run_enforced (standing : t.Standing maxSize Enforced) {ops : List (Op A)}
    (covered : AllCovered sets maxSize t ops) :
    (t.run sets maxSize ops).Whenever (Table.Standing maxSize Enforced) := by
  induction ops generalizing t with
  | nil =>
    intro t' ran
    cases ran
    exact standing
  | cons op rest ih =>
    intro t' ran
    obtain ⟨t₁, stepped, ran⟩ := Outcome.bind_eq_ok.mp ran
    have first : t.Covers op := covered [] op (by simp) t rfl
    obtain ⟨next, run, facts⟩ := standing.step sets (first.suits sets)
    cases run.symm.trans stepped
    refine ih facts (fun before op' isPrefix reached ran' => ?_) t' ran
    apply covered (op :: before) op' (by simpa using isPrefix) reached
    rw [Table.run, stepped, Outcome.ok_bind, ran']

section Matches

def matchesLoop (sets : Sets) (key : PacketKey) (qualifier : PacketQualifier) :
    List (FlowBank A) → Outcome (List (Desc × List A))
  | [] => .ok []
  | bank :: rest => do
    match ← bank.matchLoop sets key qualifier bank.allocated bank.head with
    | some flow => return flow :: (← matchesLoop sets key qualifier rest)
    | none => matchesLoop sets key qualifier rest

def contributors (sets : Sets) (maxSize : FieldID → Nat) (t : Table A) (packet : PacketFields) :
    Outcome (List (Desc × List A)) :=
  matchesLoop sets (t.keyDesc.list.makePacketKey maxSize packet)
    (t.qualifierDesc.list.makePacketQualifier maxSize packet) t.banks

theorem processLoop_eq (key : PacketKey) (qualifier : PacketQualifier) (banks : List (FlowBank A))
    (actions : List A) (found : Bool) :
    processLoop sets key qualifier banks (actions, found) = do
      let flows ← matchesLoop sets key qualifier banks
      return (actions ++ flows.flatMap Prod.snd, found || !flows.isEmpty) := by
  induction banks generalizing actions found with
  | nil => simp [processLoop, matchesLoop]
  | cons bank rest ih =>
    rw [processLoop, matchesLoop]
    cases bank.matchLoop sets key qualifier bank.allocated bank.head with
    | ok first =>
      cases first with
      | none => exact ih actions found
      | some flow =>
        simp only [Outcome.ok_bind, ih]
        cases matchesLoop sets key qualifier rest <;> simp
    | error message => rfl
    | panic => rfl
    | diverge => rfl

theorem process_eq (packet : PacketFields) :
    t.process sets maxSize packet = do
      let flows ← t.contributors sets maxSize packet
      return if flows.isEmpty then t.actions else flows.flatMap Prod.snd := by
  rw [process]
  dsimp only
  rw [processLoop_eq, contributors]
  cases matchesLoop sets (t.keyDesc.list.makePacketKey maxSize packet)
    (t.qualifierDesc.list.makePacketQualifier maxSize packet) t.banks with
  | ok flows => cases flows <;> simp
  | error message => rfl
  | panic => rfl
  | diverge => rfl

theorem matchesLoop_qualified {l : FieldList} {packet : PacketFields} {key : PacketKey}
    {keys quals : FieldList} {banks : List (FlowBank A)}
    (standing : ∀ b ∈ banks, b.Standing maxSize keys quals Enforced) :
    (matchesLoop sets key (l.makePacketQualifier maxSize packet) banks).Whenever fun flows =>
      ∀ flow ∈ flows, flow.1.Qualified sets maxSize packet := by
  induction banks with
  | nil =>
    intro flows matched
    cases matched
    simp
  | cons bank rest ih =>
    obtain ⟨first, others⟩ := List.forall_mem_cons.mp standing
    intro flows matched
    rw [matchesLoop] at matched
    obtain ⟨hit, searched, matched⟩ := Outcome.bind_eq_ok.mp matched
    have own := first.matchLoop_qualified hit searched
    cases hit with
    | none => exact ih others flows matched
    | some flow =>
      obtain ⟨more, found, matched⟩ := Outcome.bind_eq_ok.mp matched
      cases matched
      exact List.forall_mem_cons.mpr ⟨own flow rfl, ih others more found⟩

theorem qualifiers_enforced (sets : Sets) (maxSize : FieldID → Nat) (count : Nat)
    (default : List A) (ops : List (Op A))
    (covered : AllCovered sets maxSize (build count default) ops) :
    ((build count default).run sets maxSize ops).Whenever fun t => ∀ packet result,
      t.process sets maxSize packet = .ok result →
        ∃ flows, t.contributors sets maxSize packet = .ok flows ∧
          result = (if flows.isEmpty then t.actions else flows.flatMap Prod.snd) ∧
          ∀ flow ∈ flows, flow.1.Qualified sets maxSize packet := by
  intro t ran packet result processed
  have standing := (build_standing count default).run_enforced covered t ran
  rw [process_eq] at processed
  obtain ⟨flows, found, processed⟩ := Outcome.bind_eq_ok.mp processed
  cases processed
  exact ⟨flows, found, rfl, matchesLoop_qualified standing.banks flows found⟩

end Matches

section Cases

def oneByte : FieldID → Nat := fun _ => 1

def someSets : Sets := fun id => if id = "ports" then some [[7]] else none

def anyOrders : Orders := ⟨Shuffle.id, Shuffle.id⟩

def flowWith (priority : UInt32) (qualifiers : List PacketFieldSet) : FlowEntryDesc where
  bank := 0
  priority
  fields := []
  qualifiers

def inPorts : PacketFieldSet where
  fieldId := { field := some ⟨14, 0⟩ }
  setId := "ports"

def spreadOps : List (Op Nat) :=
  [.addEntry anyOrders (some (flowWith 5 [])) (.ok [1]),
    .addEntry anyOrders (some (flowWith 3 [inPorts])) (.ok [2])]

theorem qualifiers_enforced_spread :
    ((build 1 [0]).run someSets oneByte spreadOps).Whenever fun t => ∀ packet result,
      t.process someSets oneByte packet = .ok result →
        ∃ flows, t.contributors someSets oneByte packet = .ok flows ∧
          result = (if flows.isEmpty then t.actions else flows.flatMap Prod.snd) ∧
          ∀ flow ∈ flows, flow.1.Qualified someSets oneByte packet := by
  apply qualifiers_enforced someSets oneByte 1 [0] spreadOps
  rintro before op ⟨rest, isPrefix⟩ reached ran
  -- At either request the bank has no level of that priority.
  rcases before with _ | ⟨first, _ | ⟨second, before⟩⟩
  · cases isPrefix
    cases ran
    intro fd bank _ present id level found
    cases present
    cases found
  · cases isPrefix
    cases ran
    intro fd bank _ present id level found
    cases present
    cases found
  · have long := congrArg List.length isPrefix
    simp [spreadOps] at long

-- A flow that is added to a level made before its qualifier field was known applies to packets without
-- that field.
theorem qualifier_not_enforced :
    ∃ t flows, (build 1 [0]).run someSets oneByte
        [.addEntry anyOrders (some (flowWith 5 [])) (.ok [1]),
          .addEntry anyOrders (some (flowWith 5 [inPorts])) (.ok [2])] = .ok t ∧
      t.process someSets oneByte (fun _ => none) = .ok [2] ∧
      t.contributors someSets oneByte (fun _ => none) = .ok flows ∧
      ∃ flow ∈ flows, ¬ flow.1.Qualified someSets oneByte fun _ => none := by
  refine ⟨_, _, rfl, rfl, rfl, _, List.mem_cons_self, fun qualified => ?_⟩
  obtain ⟨bytes, members, absent, -⟩ := qualified (newFieldIDFromNum 14 0) "ports" rfl
  cases absent

end Cases

end Table

end Lemming.Flow

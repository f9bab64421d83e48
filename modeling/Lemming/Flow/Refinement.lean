import Lemming.Shared.StableSort
import Lemming.Flow.Standing

set_option autoImplicit false

namespace Lemming.Flow

open Packet Shared

section

variable {A : Type}

abbrev Pattern := Finmap fun _ : FieldID => FieldKey

def Desc.pattern (fd : Desc) : Pattern :=
  fd.keys.toFinmap

structure Rule (A : Type) where
  priority : UInt32
  pattern : Pattern
  actions : List A

namespace Rule

def Matches (maxSize : FieldID → Nat) (packet : PacketFields) (rule : Rule A) : Prop :=
  ∀ id field, rule.pattern.lookup id = some field → field.Admits maxSize packet id

def isFor (p : UInt32) (pattern : Pattern) (rule : Rule A) : Bool :=
  decide (rule.priority = p ∧ rule.pattern = pattern)

def add (p : UInt32) (pattern : Pattern) (actions : List A) (rules : List (Rule A)) :
    List (Rule A) :=
  if rules.any (isFor p pattern) then
    rules.replaceF fun rule => if rule.isFor p pattern then some { rule with actions } else none
  else { priority := p, pattern, actions } :: rules

def remove (p : UInt32) (pattern : Pattern) (rules : List (Rule A)) : List (Rule A) :=
  rules.eraseP (isFor p pattern)

def searchOrder (rules : List (Rule A)) : List (Rule A) :=
  sortByKey (fun rule => rule.priority.toNat) rules

open Classical in
noncomputable def firstMatch (maxSize : FieldID → Nat) (packet : PacketFields)
    (rules : List (Rule A)) : Option (Rule A) :=
  (searchOrder rules).find? fun rule => rule.Matches maxSize packet

end Rule

structure Tcam (A : Type) where
  count : Nat
  banks : Nat → List (Rule A)
  actions : List A

namespace Tcam

noncomputable def hits (maxSize : FieldID → Nat) (packet : PacketFields) (t : Tcam A) :
    List (Rule A) :=
  (List.range t.count).filterMap fun bank => Rule.firstMatch maxSize packet (t.banks bank)

noncomputable def lookup (maxSize : FieldID → Nat) (packet : PacketFields) (t : Tcam A) : List A :=
  if (t.hits maxSize packet).isEmpty then t.actions
  else (t.hits maxSize packet).flatMap Rule.actions

end Tcam

namespace Rule

def ofFlows (p : UInt32) (flows : List (Desc × List A)) : List (Rule A) :=
  flows.map fun flow => { priority := p, pattern := flow.1.pattern, actions := flow.2 }

def Agree (contents : UInt32 → List (Desc × List A)) (rules : List (Rule A)) : Prop :=
  ∀ p, ofFlows p (contents p) = rules.filter fun rule => rule.priority = p

variable {α : Type}

theorem filter_replaceF {f : α → Option α} {test : α → Bool}
    (inside : ∀ x y, f x = some y → test x = true ∧ test y = true) (xs : List α) :
    (xs.replaceF f).filter test = (xs.filter test).replaceF f := by
  induction xs with
  | nil => rfl
  | cons x xs ih =>
    cases replaced : f x with
    | some y =>
      obtain ⟨old, new⟩ := inside x y replaced
      simp [replaced, old, new]
    | none => cases tested : test x <;> simp [replaced, tested, ih]

theorem filter_replaceF_outside {f : α → Option α} {test : α → Bool}
    (outside : ∀ x y, f x = some y → test x = false ∧ test y = false) (xs : List α) :
    (xs.replaceF f).filter test = xs.filter test := by
  induction xs with
  | nil => rfl
  | cons x xs ih =>
    cases replaced : f x with
    | some y =>
      obtain ⟨old, new⟩ := outside x y replaced
      simp [replaced, old, new]
    | none => cases tested : test x <;> simp [replaced, tested, ih]

theorem filter_eraseP_outside {erase test : α → Bool}
    (outside : ∀ x, erase x = true → test x = false) (xs : List α) :
    (xs.eraseP erase).filter test = xs.filter test := by
  induction xs with
  | nil => rfl
  | cons x xs ih =>
    cases erased : erase x with
    | true => simp [erased, outside x erased]
    | false => cases tested : test x <;> simp [erased, tested, ih]

variable {p : UInt32}

theorem isFor_priority {pattern : Pattern} {rule : Rule A}
    (found : rule.isFor p pattern = true) : rule.priority = p :=
  (of_decide_eq_true found).1

theorem any_filter (p : UInt32) (pattern : Pattern) (rules : List (Rule A)) :
    (rules.filter fun rule => rule.priority = p).any (isFor p pattern) =
      rules.any (isFor p pattern) := by
  rw [List.any_filter]
  congr 1
  funext rule
  cases found : rule.isFor p pattern with
  | false => simp
  | true => simp [isFor_priority found]

variable {fd : Desc}

theorem ofFlows_isFor (keysOnly : fd.qualifiers = ∅) {flow : Desc × List A}
    (flowKeysOnly : flow.1.qualifiers = ∅) (p : UInt32) :
    (Rule.mk p flow.1.pattern flow.2).isFor p fd.pattern = fd.equal flow.1 := by
  rw [Bool.eq_iff_iff, Desc.equal_iff, keysOnly, flowKeysOnly]
  simp [isFor, Desc.pattern, eq_comm]

variable {flows : List (Desc × List A)}

theorem ofFlows_add (keysOnly : fd.qualifiers = ∅)
    (flowsKeysOnly : ∀ flow ∈ flows, flow.1.qualifiers = ∅) (p : UInt32) (actions : List A) :
    ofFlows p (Map.addFlow fd actions flows) = add p fd.pattern actions (ofFlows p flows) := by
  have any : (ofFlows p flows).any (isFor p fd.pattern) =
      flows.any fun flow => fd.equal flow.1 := by
    rw [ofFlows, List.any_map, Bool.eq_iff_iff, List.any_eq_true, List.any_eq_true]
    refine exists_congr fun flow => and_congr_right fun member => ?_
    rw [Function.comp, ofFlows_isFor keysOnly (flowsKeysOnly flow member)]
  rw [Map.addFlow, add, any]
  split
  · clear any
    induction flows with
    | nil => rfl
    | cons flow rest ih =>
      have same := ofFlows_isFor keysOnly (flowsKeysOnly flow List.mem_cons_self) p
      have below := ih fun other member => flowsKeysOnly other (List.mem_cons_of_mem flow member)
      rw [ofFlows] at below ⊢
      cases equal : fd.equal flow.1 <;> simp_all [ofFlows]
  · rfl

theorem ofFlows_remove (keysOnly : fd.qualifiers = ∅)
    (flowsKeysOnly : ∀ flow ∈ flows, flow.1.qualifiers = ∅) (p : UInt32) :
    ofFlows p (Map.removeFlow fd flows) = remove p fd.pattern (ofFlows p flows) := by
  induction flows with
  | nil => rfl
  | cons flow rest ih =>
    have same := ofFlows_isFor keysOnly (flowsKeysOnly flow List.mem_cons_self) p
    have below := ih fun other member => flowsKeysOnly other (List.mem_cons_of_mem flow member)
    simp only [remove, ofFlows, Map.removeFlow, List.map_cons, List.eraseP_cons, same] at below ⊢
    cases equal : fd.equal flow.1 with
    | true => rfl
    | false => simpa using below

variable {contents : UInt32 → List (Desc × List A)} {rules : List (Rule A)}

theorem Agree.add (agree : Agree contents rules) (keysOnly : fd.qualifiers = ∅)
    (flowsKeysOnly : ∀ flow ∈ contents p, flow.1.qualifiers = ∅) (actions : List A) :
    Agree (Function.update contents p (Map.addFlow fd actions (contents p)))
      (Rule.add p fd.pattern actions rules) := by
  intro q
  have changed {rule after : Rule A}
      (replaced : (if rule.isFor p fd.pattern then some { rule with actions } else none) = some after) :
      rule.priority = p ∧ after.priority = p := by
    split at replaced <;> cases replaced
    next found => exact ⟨isFor_priority found, isFor_priority found⟩
  by_cases same : q = p
  · subst same
    rw [Function.update_self, ofFlows_add keysOnly flowsKeysOnly, agree, Rule.add, Rule.add, any_filter]
    split
    · rw [filter_replaceF]
      exact fun rule after replaced => by simpa using changed replaced
    · simp
  · rw [Function.update_of_ne same, agree, Rule.add]
    split
    · rw [filter_replaceF_outside]
      intro rule after replaced
      simp [changed replaced, Ne.symm same]
    · simp [Ne.symm same]

theorem Agree.remove (agree : Agree contents rules) (keysOnly : fd.qualifiers = ∅)
    (flowsKeysOnly : ∀ flow ∈ contents p, flow.1.qualifiers = ∅) :
    Agree (Function.update contents p (Map.removeFlow fd (contents p)))
      (Rule.remove p fd.pattern rules) := by
  intro q
  by_cases same : q = p
  · subst same
    rw [Function.update_self, ofFlows_remove keysOnly flowsKeysOnly, agree, Rule.remove, Rule.remove,
      List.eraseP_filter]
    congr 2
    funext rule
    cases found : rule.isFor q fd.pattern with
    | false => simp
    | true => simp [isFor_priority found]
  · rw [Function.update_of_ne same, agree, Rule.remove, filter_eraseP_outside]
    intro rule found
    simp [isFor_priority found, Ne.symm same]

theorem mem_ofFlows {rule : Rule A} (member : rule ∈ ofFlows p flows) : rule.priority = p := by
  obtain ⟨flow, -, rfl⟩ := List.mem_map.mp member
  rfl

theorem flatMap_single {β : Type} [DecidableEq α] {f : α → List β} {xs : List α} (x : α)
    (distinct : xs.Nodup) (others : ∀ y, y ≠ x → f y = []) :
    xs.flatMap f = if x ∈ xs then f x else [] := by
  induction xs with
  | nil => rfl
  | cons y ys ih =>
    obtain ⟨fresh, distinct⟩ := List.nodup_cons.mp distinct
    rw [List.flatMap_cons, ih distinct]
    by_cases same : y = x
    · subst same
      simp [fresh]
    · simp [others y same, Ne.symm same]

theorem Agree.searchOrder (agree : Agree contents rules) {priorities : List UInt32}
    (sorted : priorities.Pairwise (· < ·)) (all : ∀ p, p ∉ priorities → contents p = []) :
    (priorities.flatMap fun p => ofFlows p (contents p)) = searchOrder rules := by
  refine eq_of_sorted (fun rule => rule.priority.toNat) ?_ (sortByKey_sorted _ rules) fun n => ?_
  · rw [List.pairwise_flatMap]
    constructor
    · intro p _
      refine List.pairwise_of_forall_mem_list fun first inFirst second inSecond => ?_
      rw [mem_ofFlows inFirst, mem_ofFlows inSecond]
    · refine sorted.imp fun {p q} below first inFirst second inSecond => ?_
      rw [mem_ofFlows inFirst, mem_ofFlows inSecond]
      exact Nat.le_of_lt (UInt32.lt_iff_toNat_lt.mp below)
  · rw [Rule.searchOrder, sortByKey_filter]
    by_cases number : ∃ p : UInt32, p.toNat = n
    · obtain ⟨p, rfl⟩ := number
      simp only [UInt32.toNat_inj]
      have distinct : priorities.Nodup := sorted.imp fun below same => by
        rw [same] at below
        exact UInt32.lt_irrefl _ below
      rw [← agree p, List.filter_flatMap, flatMap_single p distinct]
      · have own : (ofFlows p (contents p)).filter (fun rule => rule.priority = p) =
            ofFlows p (contents p) := by
          rw [List.filter_eq_self]
          intro rule member
          simp [mem_ofFlows member]
        split
        · exact own
        · next missing => simp [all p missing, ofFlows]
      · intro q different
        rw [List.filter_eq_nil_iff]
        intro rule member
        simp [mem_ofFlows member, different]
    · have nothing (list : List (Rule A)) :
          list.filter (fun rule => rule.priority.toNat = n) = [] := by
        rw [List.filter_eq_nil_iff]
        intro rule _
        simpa using fun same => number ⟨rule.priority, same⟩
      rw [nothing, nothing]

end Rule

end

variable {A : Type}

namespace FlowEntryDesc

def pattern? (flow : FlowEntryDesc) : Option Pattern :=
  match listing flow.fields with
  | .ok listed => some (listed.foldl (fun pattern (id, field) => pattern.insert id field) ∅)
  | _ => none

end FlowEntryDesc

def Op.flow? : Op A → Option FlowEntryDesc
  | .addEntry _ entry _ => entry
  | .removeEntry entry => entry
  | .clear => none

namespace Tcam

def build (count : Nat) (actions : List A) : Tcam A where
  count
  banks := fun _ => []
  actions

def grow (t : Tcam A) (count : Nat) : Tcam A :=
  { t with count := max t.count count }

def update (t : Tcam A) (bank : Nat) (change : List (Rule A) → List (Rule A)) : Tcam A :=
  { t with banks := Function.update t.banks bank (change (t.banks bank)) }

def step (t : Tcam A) : Op A → Tcam A
  | .addEntry _ none _ => t
  | .addEntry _ (some flow) actions =>
    let t := t.grow (flow.bank.toNat + 1)
    match flow.pattern? with
    | none => t
    | some pattern =>
      match actions with
      | .error _ => t
      | .ok actions => t.update flow.bank.toNat (Rule.add flow.priority pattern actions)
  | .removeEntry none => t
  | .removeEntry (some flow) =>
    match flow.pattern? with
    | some pattern => t.update flow.bank.toNat (Rule.remove flow.priority pattern)
    | none => t
  | .clear => { t with banks := fun _ => [] }

end Tcam

theorem describe_pattern (listed : List (FieldID × FieldKey)) (keys : GoMap FieldID FieldKey)
    (hash : UInt32) :
    (describe listed (keys, hash)).1.toFinmap =
      listed.foldl (fun pattern (id, field) => pattern.insert id field) keys.toFinmap := by
  induction listed generalizing keys hash with
  | nil => rfl
  | cons item rest ih =>
    obtain ⟨id, field⟩ := item
    have next := ih (keys.insert id field) (fnvWrite (fnvWrite hash field.value) field.mask)
    rw [← Finmap.insert_toFinmap] at next
    exact next

theorem newDesc_pattern {flow : FlowEntryDesc} {fd : Desc}
    (built : newDesc flow.fields flow.qualifiers = .ok fd) : flow.pattern? = some fd.pattern := by
  obtain ⟨listed, run, keys, -⟩ := newDesc_ok built
  rw [FlowEntryDesc.pattern?, run, Desc.pattern, keys, describe_pattern]
  rfl

theorem newDesc_cases (flow : FlowEntryDesc) :
    (∃ fd, newDesc flow.fields flow.qualifiers = .ok fd ∧ flow.pattern? = some fd.pattern) ∨
      (∃ message, newDesc flow.fields flow.qualifiers = .error message) ∧ flow.pattern? = none := by
  rcases newDesc_returns flow with ⟨fd, built⟩ | ⟨message, failed⟩
  · exact Or.inl ⟨fd, built, newDesc_pattern built⟩
  · refine Or.inr ⟨⟨message, failed⟩, ?_⟩
    rw [newDesc, newDescKeys_eq] at failed
    rcases listing_returns flow.fields with ⟨listed, run⟩ | ⟨other, run⟩
    · rw [run] at failed
      cases failed
    · rw [FlowEntryDesc.pattern?, run]

-- The requests of a run: they have keys only, their values have room in the key, and those for one flow
-- list its fields in the same order.
structure Regular (maxSize : FieldID → Nat) (ops : List (Op A)) : Prop where
  keysOnly : ∀ op ∈ ops, ∀ flow, op.flow? = some flow → flow.qualifiers = []
  fits : ∀ op ∈ ops, ∀ flow, op.flow? = some flow →
    ∀ d ∈ flow.fields, d.bytes.length ≤ maxSize (newFieldID d.fieldId)
  sameOrder : ∀ op ∈ ops, ∀ other ∈ ops, ∀ flow again, op.flow? = some flow →
    other.flow? = some again → ∀ pattern, flow.pattern? = some pattern →
      again.pattern? = some pattern → listing again.fields = listing flow.fields

def Known (ops : List (Op A)) (fd : Desc) : Prop :=
  ∃ op ∈ ops, ∃ flow, op.flow? = some flow ∧ newDesc flow.fields flow.qualifiers = .ok fd

namespace Known

variable {maxSize : FieldID → Nat} {ops : List (Op A)} {fd : Desc}

theorem keysOnly (known : Known ops fd) (regular : Regular maxSize ops) : fd.qualifiers = ∅ := by
  obtain ⟨op, member, flow, request, built⟩ := known
  exact Table.newDesc_keysOnly (regular.keysOnly op member flow request) built

theorem hash_eq (known : Known ops fd) (regular : Regular maxSize ops) {other : Desc}
    (otherKnown : Known ops other) (same : fd.equal other = true) : other.hash = fd.hash := by
  obtain ⟨op, member, flow, request, built⟩ := known
  obtain ⟨op', member', flow', request', built'⟩ := otherKnown
  have patterns : fd.pattern = other.pattern := ((Desc.equal_iff fd other).mp same).1
  have listed := regular.sameOrder op member op' member' flow flow' request request' fd.pattern
    (newDesc_pattern built) (patterns ▸ newDesc_pattern built')
  obtain ⟨fields, run, -, hash⟩ := newDesc_ok built
  obtain ⟨fields', run', -, hash'⟩ := newDesc_ok built'
  rw [listed, run] at run'
  cases run'
  rw [hash', hash]

theorem fits (known : Known ops fd) (regular : Regular maxSize ops) : fd.Fits maxSize := by
  obtain ⟨op, member, flow, request, built⟩ := known
  obtain ⟨listed, run, keys, -⟩ := newDesc_ok built
  have each := listing_fits run (regular.fits op member flow request)
  intro id field found
  rw [keys] at found
  rcases describe_lookup found with none | listed
  · simp at none
  · exact each (id, field) listed

end Known

def Plain (ops : List (Op A)) (fd : Desc) (q : EntryQualifier) : Prop :=
  Known ops fd ∧ q.values = ∅

structure Table.Refines (maxSize : FieldID → Nat) (ops : List (Op A)) (t : Table A)
    (tcam : Tcam A) : Prop where
  count : t.banks.length = tcam.count
  actions : t.actions = tcam.actions
  standing : t.Standing maxSize (Plain ops)
  agree : ∀ i, Rule.Agree (t.contents i) (tcam.banks i)

theorem makeEntryQualifier_empty (sets : Sets) {fd : Desc} (keysOnly : fd.qualifiers = ∅)
    (l : FieldList) : l.makeEntryQualifier sets fd = .ok { values := ∅ } := by
  have loop (fields : List FieldID) (values : GoMap FieldID SetId) :
      FieldList.makeEntryQualifierLoop sets fd fields values = .ok { values } := by
    induction fields with
    | nil => rfl
    | cons id rest ih => simp [FieldList.makeEntryQualifierLoop, keysOnly, ih]
  exact loop l.fields ∅

namespace Table

variable {maxSize : FieldID → Nat} {ops : List (Op A)} {t : Table A} {tcam : Tcam A}

theorem build_refines (count : Nat) (actions : List A) :
    (build count actions).Refines maxSize ops (Tcam.build count actions) where
  count := by simp [build, Tcam.build]
  actions := rfl
  standing := build_standing count actions
  agree := by
    intro i p
    rw [contents]
    cases present : (build count actions).banks[i]? with
    | none => rfl
    | some b =>
      rw [List.eq_of_mem_replicate (List.mem_of_getElem? present)]
      rfl

theorem Refines.clear (refines : t.Refines maxSize ops tcam) :
    t.clear.Refines maxSize ops (tcam.step .clear) where
  count := by simpa [Table.clear, Tcam.step] using refines.count
  actions := refines.actions
  standing := refines.standing.clear
  agree := by
    intro i p
    rw [contents, Table.clear, List.getElem?_map]
    cases t.banks[i]? <;> rfl

theorem grown_count (same : t.banks.length = tcam.count) (bankID : Nat) :
    (t.grown bankID).banks.length = (tcam.grow (bankID + 1)).count := by
  simp only [grown, List.length_append, List.length_replicate, Tcam.grow, ← same]
  omega

section Requests

variable (refines : t.Refines maxSize ops tcam) (regular : Flow.Regular maxSize ops)
  {flow : FlowEntryDesc} {fd : Desc}

include refines

theorem Refines.agree_update {bank : Nat} {changed : UInt32 → List (Desc × List A)}
    {change : List (Rule A) → List (Rule A)}
    (here : Rule.Agree changed (change (tcam.banks bank))) (i : Nat) :
    Rule.Agree (Function.update t.contents bank changed i) ((tcam.update bank change).banks i) := by
  by_cases same : i = bank
  · subst same
    simpa [Tcam.update] using here
  · simpa [Tcam.update, same] using refines.agree i

include regular

theorem Refines.alike (known : Known ops fd) (i : Nat) (p : UInt32) :
    Map.HashesAlike fd (t.contents i p) := by
  intro flow stored same
  obtain ⟨-, q, plain⟩ := refines.standing.of_contents stored
  exact known.hash_eq regular plain.1 same

theorem Refines.keysOnly (i : Nat) (p : UInt32) :
    ∀ flow ∈ t.contents i p, flow.1.qualifiers = ∅ := by
  intro flow stored
  obtain ⟨-, q, plain⟩ := refines.standing.of_contents stored
  exact plain.1.keysOnly regular

theorem Refines.addEntry (sets : Sets) (orders : Orders) (entry : Option FlowEntryDesc)
    (actions : Except String (List A)) (requested : Op.addEntry orders entry actions ∈ ops) :
    ∃ after message, t.addEntry sets maxSize orders entry actions = .ok (after, message) ∧
      after.Refines maxSize ops (tcam.step (.addEntry orders entry actions)) := by
  have standing := refines.standing
  cases entry with
  | none => exact ⟨t, _, rfl, refines⟩
  | some flow =>
    have count := grown_count refines.count flow.bank.toNat
    rw [Tcam.step]
    rcases newDesc_cases flow with ⟨fd, made, pattern⟩ | ⟨⟨message, failed⟩, nothing⟩
    · have known : Known ops fd := ⟨_, requested, flow, rfl, made⟩
      have bare := known.keysOnly regular
      simp only [pattern]
      cases actions with
      | error message =>
        obtain ⟨after, run, facts, learned⟩ := standing.addEntry_refused sets orders made message
        refine ⟨after, _, run, learned.banks.length_eq.symm.trans count,
          learned.actions.trans refines.actions, facts, fun i => ?_⟩
        rw [learned.contents, contents_grown]
        exact refines.agree i
      | ok actions =>
        have accepts := accepts_keysOnly bare sets t flow.bank.toNat flow.priority
        obtain ⟨after, run, facts, -, same, size, contents⟩ := standing.addEntry_done sets orders made
          (fun l q _ isMade => ⟨known, by
            cases (makeEntryQualifier_empty sets bare l).symm.trans isMade
            rfl⟩) actions
        refine ⟨after, _, run, size.trans count, same.trans refines.actions, facts, ?_⟩
        rw [contents accepts (refines.alike regular known _ _)]
        exact refines.agree_update ((refines.agree _).add bare (refines.keysOnly regular _ _) actions)
    · refine ⟨t.grown flow.bank.toNat, some message, by simp only [Table.addEntry, failed]; rfl, ?_⟩
      simp only [nothing]
      exact ⟨count, refines.actions, standing.grown _, fun i => t.contents_grown _ ▸ refines.agree i⟩

theorem Refines.removeEntry (entry : Option FlowEntryDesc) (requested : Op.removeEntry entry ∈ ops) :
    ∃ after, (t.removeEntry entry).ignoreError t = .ok after ∧
      after.Refines maxSize ops (tcam.step (.removeEntry entry)) := by
  cases entry with
  | none => exact ⟨t, rfl, refines⟩
  | some flow =>
    rw [Tcam.step]
    have agree {fd : Desc} (made : newDesc flow.fields flow.qualifiers = .ok fd) :=
      have known : Known ops fd := ⟨_, requested, flow, rfl, made⟩
      And.intro (refines.alike regular known flow.bank.toNat flow.priority) <|
        refines.agree_update ((refines.agree flow.bank.toNat).remove
          (known.keysOnly regular) (refines.keysOnly regular _ flow.priority))
    rcases refines.standing.removeEntry_cases flow with
      ⟨message, failed, same⟩ | ⟨fd, after, made, removed, facts, actions, size, contents⟩
    · refine ⟨t, by rw [failed]; rfl, ?_⟩
      rcases newDesc_cases flow with ⟨fd, made, pattern⟩ | ⟨-, nothing⟩
      · obtain ⟨alike, agree⟩ := agree made
        rw [same fd made alike, Function.update_eq_self, Function.update_eq_self] at agree
        simp only [pattern]
        exact ⟨refines.count, refines.actions, refines.standing, agree⟩
      · simp only [nothing]
        exact refines
    · obtain ⟨alike, agree⟩ := agree made
      refine ⟨after, by rw [removed]; rfl, ?_⟩
      simp only [newDesc_pattern made]
      exact ⟨size.trans refines.count, actions.trans refines.actions, facts, contents alike ▸ agree⟩

theorem Refines.step (sets : Sets) {op : Op A} (requested : op ∈ ops) :
    ∃ after, t.step sets maxSize op = .ok after ∧ after.Refines maxSize ops (tcam.step op) := by
  cases op with
  | addEntry orders entry actions =>
    obtain ⟨after, message, run, next⟩ :=
      refines.addEntry regular sets orders entry actions requested
    exact ⟨after, by simp [Table.step, run], next⟩
  | removeEntry entry => exact refines.removeEntry regular entry requested
  | clear => exact ⟨t.clear, rfl, refines.clear⟩

end Requests

theorem Refines.run (regular : Flow.Regular maxSize ops) (sets : Sets) (rest : List (Op A))
    (within : rest ⊆ ops) (refines : t.Refines maxSize ops tcam) :
    ∃ after, t.run sets maxSize rest = .ok after ∧
      after.Refines maxSize ops (rest.foldl Tcam.step tcam) := by
  induction rest generalizing t tcam with
  | nil => exact ⟨t, rfl, refines⟩
  | cons op rest ih =>
    obtain ⟨next, stepped, nextRefines⟩ := refines.step regular sets (within List.mem_cons_self)
    obtain ⟨after, run, afterRefines⟩ :=
      ih (fun other member => within (List.mem_cons_of_mem op member)) nextRefines
    exact ⟨after, by simp [Table.run, stepped, run], afterRefines⟩

theorem picked_eq {m : Map A} {keys quals : FieldList}
    (standing : m.Standing maxSize keys quals (Plain ops)) (sets : Sets) (key : PacketKey)
    (qualifier : PacketQualifier) : m.picked sets key qualifier =
      m.contents.find? fun flow => (keys.makeEntryKey maxSize flow.1).match key := by
  have first : m.ids.find? (m.admits sets key qualifier) = m.ids.find? fun id =>
      (m.flow? id).any fun flow => (keys.makeEntryKey maxSize flow.1).match key := by
    refine List.find?_congr fun id member => ?_
    obtain ⟨entry, present, made, -, -, -, plain⟩ := standing.keyed.present id member
    rw [standing.keyFields] at made
    simp [Map.admits, Map.flow?, present, made, EntryQualifier.match, plain]
  rw [Map.picked, first, Map.contents, Map.flows, List.find?_filterMap]
  cases m.ids.find? _ <;> rfl

theorem Refines.firstMatch (refines : t.Refines maxSize ops tcam) (regular : Flow.Regular maxSize ops)
    (sets : Sets) {packet : PacketFields} (fits : PacketFits maxSize packet) {i : Nat}
    {b : FlowBank A} (present : t.banks[i]? = some b) (qualifier : PacketQualifier) :
    ∃ found, b.matchLoop sets (t.keyDesc.list.makePacketKey maxSize packet) qualifier b.allocated
        b.head = .ok found ∧
      found.map Prod.snd = (Rule.firstMatch maxSize packet (tcam.banks i)).map Rule.actions := by
  obtain ⟨ids, arranged⟩ := refines.standing.banks b (List.mem_of_getElem? present)
  have held : t.contents i = b.contents := by
    funext p
    simp [contents, present]
  have agree := refines.agree i
  rw [held] at agree
  refine ⟨_, arranged.matchLoop fun m facts => (facts.match_eq sets _ qualifier).trans
    (congrArg _ (picked_eq facts sets _ qualifier)), ?_⟩
  have complete : ∀ p, p ∉ ids.map b.priority → b.contents p = [] := by
    intro p missing
    refine FlowBank.contents_none (Option.eq_none_iff_forall_not_mem.mpr fun id found => missing ?_)
    obtain ⟨member, priority⟩ := (arranged.levels p id).mp found
    exact List.mem_map.mpr ⟨id, member, priority⟩
  have each (p : UInt32) : ((b.contents p).find? fun flow =>
        (t.keyDesc.list.makeEntryKey maxSize flow.1).match
          (t.keyDesc.list.makePacketKey maxSize packet)).map Prod.snd =
      ((Rule.ofFlows p (b.contents p)).find? fun rule =>
        @decide (rule.Matches maxSize packet) (Classical.propDecidable _)).map Rule.actions := by
    rw [Rule.ofFlows, List.find?_map, Option.map_map]
    congr 1
    refine List.find?_congr fun flow stored => ?_
    rw [← held] at stored
    obtain ⟨covers, q, known, -⟩ := refines.standing.of_contents stored
    rw [Bool.eq_iff_iff, makeEntryKey_match (known.fits regular) fits covers]
    simp only [Function.comp, Rule.Matches, Desc.pattern, Finmap.lookup_toFinmap]
    exact (@decide_eq_true_iff _ (Classical.propDecidable _)).symm
  rw [Rule.firstMatch, ← agree.searchOrder arranged.sorted complete, List.find?_flatMap,
    List.findSome?_map, List.map_findSome?, List.map_findSome?]
  refine FlowBank.findSome?_congr fun id member => ?_
  obtain ⟨level, node, -, -, own⟩ := arranged.level ((arranged.levels _ id).mpr ⟨member, rfl⟩)
  rw [Function.comp, node, Option.bind_some, ← own]
  exact each (b.priority id)

theorem processLoop_correct (sets : Sets) (key : PacketKey) (qualifier : PacketQualifier)
    {banks : List (FlowBank A)} {hits : List (Option (Rule A))}
    (each : List.Forall₂ (fun b hit => ∃ found,
      b.matchLoop sets key qualifier b.allocated b.head = .ok found ∧
        found.map Prod.snd = hit.map Rule.actions) banks hits) (actions : List A) (matched : Bool) :
    processLoop sets key qualifier banks (actions, matched) =
      .ok (actions ++ (hits.filterMap id).flatMap Rule.actions,
        matched || !(hits.filterMap id).isEmpty) := by
  induction each generalizing actions matched with
  | nil => simp [processLoop]
  | cons head _ ih =>
    obtain ⟨found, run, same⟩ := head
    rw [processLoop, run, Outcome.ok_bind]
    cases found with
    | none =>
      have missed := Option.map_eq_none_iff.mp same.symm
      simp [missed, ih]
    | some flow =>
      obtain ⟨rule, hit, own⟩ := Option.map_eq_some_iff.mp same.symm
      simp [hit, ih, own]

theorem Refines.process (refines : t.Refines maxSize ops tcam) (regular : Flow.Regular maxSize ops)
    (sets : Sets) {packet : PacketFields} (fits : PacketFits maxSize packet) :
    t.process sets maxSize packet = .ok (tcam.lookup maxSize packet) := by
  have each : List.Forall₂ (fun (b : FlowBank A) hit => ∃ found,
      b.matchLoop sets (t.keyDesc.list.makePacketKey maxSize packet)
        (t.qualifierDesc.list.makePacketQualifier maxSize packet) b.allocated b.head = .ok found ∧
      found.map Prod.snd = hit.map Rule.actions) t.banks
      ((List.range tcam.count).map fun i => Rule.firstMatch maxSize packet (tcam.banks i)) := by
    refine List.forall₂_iff_get.mpr ⟨by simp [refines.count], fun i inside _ => ?_⟩
    have present := List.getElem?_eq_getElem inside
    simpa using refines.firstMatch regular sets fits present _
  have looped := processLoop_correct sets _ _ each [] false
  have hits : ((List.range tcam.count).map fun i =>
      Rule.firstMatch maxSize packet (tcam.banks i)).filterMap id = tcam.hits maxSize packet := by
    rw [List.filterMap_map]
    rfl
  rw [hits] at looped
  rw [Table.process, looped, Tcam.lookup, refines.actions]
  cases (tcam.hits maxSize packet).isEmpty <;> simp

theorem process_run_tcam (sets : Sets) (bankCount : Nat) (actions : List A) (ops : List (Op A))
    (regular : Flow.Regular maxSize ops) (packet : PacketFields) (fits : PacketFits maxSize packet) :
    ∃ t, (build bankCount actions).run sets maxSize ops = .ok t ∧
      t.process sets maxSize packet =
        .ok ((ops.foldl Tcam.step (Tcam.build bankCount actions)).lookup maxSize packet) := by
  obtain ⟨t, run, refines⟩ :=
    Refines.run regular sets ops (List.Subset.refl ops) (build_refines bankCount actions)
  exact ⟨t, run, refines.process regular sets fits⟩

def firstByteFlow : FlowEntryDesc where
  bank := 0
  priority := 5
  fields := [{ fieldId := { field := some { fieldNum := 1, inst := 0 } }
               bytes := [10, 0, 0, 0]
               masks := [255, 0, 0, 0] }]
  qualifiers := []

def firstByteTwice : List (Op Nat) :=
  let orders : Orders := { fields := Shuffle.id, levels := Shuffle.id }
  [.addEntry orders (some firstByteFlow) (.ok [1]), .addEntry orders (some firstByteFlow) (.ok [2])]

theorem process_run_tcam_twice :
    ∃ t, (build 1 [0]).run (fun _ => none) (fun _ => 4) firstByteTwice = .ok t ∧
      t.process (fun _ => none) (fun _ => 4) (fun _ => some [10, 1, 2, 3]) =
        .ok ((firstByteTwice.foldl Tcam.step (Tcam.build 1 [0])).lookup (fun _ => 4)
          fun _ => some [10, 1, 2, 3]) := by
  have only (op : Op Nat) (member : op ∈ firstByteTwice) (flow : FlowEntryDesc)
      (request : op.flow? = some flow) : flow = firstByteFlow := by
    simp only [firstByteTwice, List.mem_cons, List.not_mem_nil, or_false] at member
    rcases member with rfl | rfl <;> exact (Option.some_inj.mp request).symm
  refine process_run_tcam (fun _ => none) 1 [0] firstByteTwice ⟨?_, ?_, ?_⟩ _ ?_
  · intro op member flow request
    rw [only op member flow request]
    rfl
  · intro op member flow request d listed
    rw [only op member flow request, firstByteFlow, List.mem_singleton] at listed
    subst listed
    decide
  · intro op member other otherMember flow again request otherRequest pattern _ _
    rw [only op member flow request, only other otherMember again otherRequest]
  · intro id bytes there
    rw [← Option.some_inj.mp there]
    exact Nat.le_refl 4

end Table

end Lemming.Flow

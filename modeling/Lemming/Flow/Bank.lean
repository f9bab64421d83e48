import Lemming.Flow.Map
import Mathlib.Data.List.TakeWhile

set_option autoImplicit false

namespace Lemming.Flow

open Packet Shared

section

variable {A : Type}

structure Level (A : Type) where
  priority : UInt32
  flows : Map A

structure FlowBank (A : Type) where
  levels : GoMap UInt32 Nat
  nodes : Nat → Option (Level A)
  allocated : Nat
  links : Links Nat
  head : Option Nat

namespace FlowBank

def empty : FlowBank A where
  levels := ∅
  nodes := fun _ => none
  allocated := 0
  links := Links.none
  head := none

variable (b : FlowBank A)

def priority (id : Nat) : UInt32 :=
  ((b.nodes id).map Level.priority).getD 0

def addLevel (fm : Map A) (priority : UInt32) : Outcome (FlowBank A) :=
  let id := b.allocated
  let added := { b with
    nodes := Function.update b.nodes id (some { priority, flows := fm })
    allocated := id + 1
    levels := b.levels.insert priority id }
  match b.head with
  | none => .ok { added with links := b.links.pushFront none id, head := some id }
  | some h =>
    if priority < b.priority h then
      .ok { added with links := b.links.pushFront (some h) id, head := some id }
    else do
      let pos ← b.links.skip (fun y => b.priority y < priority) b.allocated h
      return { added with links := b.links.insertAfter pos id }

def removeLevel (priority : UInt32) : Outcome (FlowBank A) :=
  match b.levels.lookup priority with
  | none => .panic
  | some curr => .ok { b with
      head := if b.head = some curr then b.links.next curr else b.head
      links := b.links.unlink curr
      levels := b.levels.erase priority }

def setFlows (id : Nat) (flows : Map A) : FlowBank A :=
  { b with nodes := Function.update b.nodes id ((b.nodes id).map fun level => { level with flows }) }

def addFlow (sets : Sets) (maxSize : FieldID → Nat) (keyFields qualifierFields : FieldList)
    (b : FlowBank A) (priority : UInt32) (desc : Desc) (actions : List A) : Outcome (FlowBank A) :=
  match b.levels.lookup priority with
  | some id =>
    match b.nodes id with
    | none => .panic
    | some level => do
      let flows ← (level.flows.add sets maxSize desc actions).ignoreError level.flows
      return b.setFlows id flows
  | none => do
    let flows := Map.newMap keyFields qualifierFields
    let added ← b.addLevel flows priority
    let flows ← (flows.add sets maxSize desc actions).ignoreError flows
    return added.setFlows b.allocated flows

def removeFlow (id : Nat) (level : Level A) (priority : UInt32) (desc : Desc) :
    Outcome (FlowBank A) := do
  let flows ← level.flows.remove desc
  let b := b.setFlows id flows
  if flows.count = 0 then b.removeLevel priority else return b

def rebuildLoop (maxSize : FieldID → Nat) (kd : FieldList) :
    List Nat → FlowBank A → Outcome (FlowBank A)
  | [], b => .ok b
  | id :: rest, b =>
    match b.nodes id with
    | none => .panic
    | some level => do rebuildLoop maxSize kd rest (b.setFlows id (← level.flows.rebuild maxSize kd))

def rebuild (maxSize : FieldID → Nat) (order : Shuffle Nat) (b : FlowBank A) (kd : FieldList) :
    Outcome (FlowBank A) :=
  rebuildLoop maxSize kd (order.arrange (b.levels.entries.map Sigma.snd)) b

def clear : FlowBank A :=
  { b with levels := ∅, head := none }

def matchLoop (sets : Sets) (key : PacketKey) (qualifier : PacketQualifier) (b : FlowBank A) :
    Nat → Option Nat → Outcome (Option (Desc × List A))
  | _, none => .ok none
  | 0, some _ => .diverge
  | fuel + 1, some id =>
    match b.nodes id with
    | none => .panic
    | some level => do
      match ← level.flows.match sets key qualifier with
      | some found => return some found
      | none => matchLoop sets key qualifier b fuel (b.links.next id)

end FlowBank

namespace FlowBank

def contents (b : FlowBank A) (p : UInt32) : List (Desc × List A) :=
  (((b.levels.lookup p).bind b.nodes).map fun level => level.flows.contents).getD []

structure Arranged (P : Map A → Prop) (b : FlowBank A) (ids : List Nat) : Prop where
  bound : ∀ id ∈ ids, id < b.allocated
  linked : b.links.Linked ids
  head : b.head = ids.head?
  present : ∀ id ∈ ids, ∃ level, b.nodes id = some level ∧ P level.flows
  sorted : (ids.map b.priority).Pairwise (· < ·)
  levels : ∀ p id, b.levels.lookup p = some id ↔ id ∈ ids ∧ b.priority id = p

variable {maxSize : FieldID → Nat} {P Q : Map A → Prop} {b : FlowBank A} {ids : List Nat}
  {p : UInt32} {id : Nat}

theorem arranged_nil (levels : b.levels = ∅) (head : b.head = none) : b.Arranged P [] where
  bound := by simp
  linked := trivial
  head := head
  present := by simp
  sorted := List.Pairwise.nil
  levels := by simp [levels]

theorem Arranged.imp (arranged : b.Arranged P ids) (weaken : ∀ m, P m → Q m) : b.Arranged Q ids :=
  { arranged with
    present := fun id member => by
      obtain ⟨level, present, facts⟩ := arranged.present id member
      exact ⟨level, present, weaken _ facts⟩ }

theorem Arranged.distinct (arranged : b.Arranged P ids) : ids.Nodup := by
  have increasing := List.pairwise_map.mp arranged.sorted
  exact increasing.imp fun below same => by
    rw [same] at below
    exact UInt32.lt_irrefl _ below

theorem Arranged.length_le (arranged : b.Arranged P ids) : ids.length ≤ b.allocated := by
  have inside : ids ⊆ List.range b.allocated := fun id member =>
    List.mem_range.mpr (arranged.bound id member)
  simpa using (List.subperm_of_subset arranged.distinct inside).length_le

theorem contents_none (absent : b.levels.lookup p = none) : b.contents p = [] := by
  simp [contents, absent]

theorem contents_some {level : Level A} (found : b.levels.lookup p = some id)
    (present : b.nodes id = some level) : b.contents p = level.flows.contents := by
  simp [contents, found, present]

theorem Arranged.level (arranged : b.Arranged P ids)
    (found : b.levels.lookup p = some id) :
    ∃ level, b.nodes id = some level ∧ level.priority = p ∧ P level.flows ∧
      b.contents p = level.flows.contents := by
  obtain ⟨member, priority⟩ := (arranged.levels p id).mp found
  obtain ⟨level, present, facts⟩ := arranged.present id member
  exact ⟨level, present, by simpa [FlowBank.priority, present] using priority, facts,
    contents_some found present⟩

theorem setFlows_priority (b : FlowBank A) (id : Nat) (flows : Map A) :
    (b.setFlows id flows).priority = b.priority := by
  funext other
  by_cases same : other = id
  · subst same
    cases present : b.nodes other <;> simp [priority, setFlows, present]
  · simp [priority, setFlows, same]

theorem Arranged.setFlows {flows : Map A} (arranged : b.Arranged P ids)
    (found : b.levels.lookup p = some id) (facts : P flows) :
    (b.setFlows id flows).Arranged P ids ∧
      (b.setFlows id flows).contents = Function.update b.contents p flows.contents := by
  obtain ⟨level, present, priority, -⟩ := arranged.level found
  constructor
  · refine { arranged with present := ?_, sorted := ?_, levels := ?_ }
    · intro other member
      by_cases same : other = id
      · subst same
        exact ⟨{ level with flows }, by simp [FlowBank.setFlows, present], facts⟩
      · obtain ⟨there, stays⟩ := arranged.present other member
        exact ⟨there, by simpa [FlowBank.setFlows, same] using stays⟩
    · rw [setFlows_priority]
      exact arranged.sorted
    · intro q other
      rw [setFlows_priority]
      exact arranged.levels q other
  · funext q
    by_cases same : q = p
    · subst same
      simp [contents, FlowBank.setFlows, found, present]
    · rw [Function.update_of_ne same]
      have elsewhere : ∀ other, b.levels.lookup q = some other → other ≠ id := by
        rintro other there rfl
        exact same (((arranged.levels q other).mp there).2.symm.trans ((arranged.levels p other).mp found).2)
      cases there : b.levels.lookup q with
      | none => simp [contents, FlowBank.setFlows, there]
      | some other => simp [contents, FlowBank.setFlows, there, elsewhere other there]

theorem Arranged.place (arranged : b.Arranged P ids) (absent : b.levels.lookup p = none)
    (fm : Map A) :
    ∃ after front back, b.addLevel fm p = .ok after ∧ ids = front ++ back ∧
      after.nodes = Function.update b.nodes b.allocated (some { priority := p, flows := fm }) ∧
      after.allocated = b.allocated + 1 ∧ after.levels = b.levels.insert p b.allocated ∧
      after.links.Linked (front ++ b.allocated :: back) ∧
      after.head = (front ++ b.allocated :: back).head? ∧
      (∀ id ∈ front, b.priority id < p) ∧ ∀ id ∈ back, p < b.priority id := by
  have fresh : b.allocated ∉ ids := fun member => Nat.lt_irrefl _ (arranged.bound _ member)
  have other (id : Nat) (member : id ∈ ids) : b.priority id ≠ p := fun same => by
    simp [(arranged.levels p id).mpr ⟨member, same⟩] at absent
  have greater {id : Nat} (member : id ∈ ids) (notLess : ¬ b.priority id < p) : p < b.priority id :=
    UInt32.lt_of_le_of_ne (UInt32.not_lt.mp notLess) (Ne.symm (other id member))
  have increasing := List.pairwise_map.mp arranged.sorted
  have head := arranged.head
  rw [addLevel]
  cases shape : ids with
  | nil =>
    rw [shape] at head
    rw [show b.head = none from head]
    exact ⟨_, [], [], rfl, rfl, rfl, rfl, rfl, ⟨by simp [Links.pushFront], by simp [Links.pushFront],
      trivial⟩, rfl, by simp, by simp⟩
  | cons first rest =>
    rw [shape] at head increasing
    rw [show b.head = some first from head]
    obtain ⟨above, -⟩ := List.pairwise_cons.mp increasing
    by_cases before : p < b.priority first
    · simp only [before, if_true]
      refine ⟨_, [], first :: rest, rfl, rfl, rfl, rfl, rfl, ?_, rfl, by simp, ?_⟩
      · have pushed := arranged.linked.pushFront arranged.distinct fresh
        rw [shape] at pushed
        exact pushed
      · intro id member
        rcases List.mem_cons.mp member with rfl | later
        · exact before
        · exact UInt32.lt_trans before (above id later)
    · have least : b.priority first < p :=
        UInt32.lt_of_le_of_ne (UInt32.not_lt.mp before) (other first (shape ▸ List.mem_cons_self))
      have linked := arranged.linked
      have distinct := arranged.distinct
      rw [shape] at linked distinct fresh
      obtain ⟨passed, pos, stop, split⟩ := linked.skip_correct (fun y => b.priority y < p)
        (Nat.lt_of_lt_of_le (Nat.lt_succ_self _) (shape ▸ arranged.length_le))
      have whole : first :: rest =
          passed ++ pos :: rest.dropWhile (fun y => b.priority y < p) := by
        have joined := congrArg (· ++ rest.dropWhile fun y => b.priority y < p) split
        simpa using joined
      have smaller : ∀ id ∈ passed ++ [pos], b.priority id < p := by
        intro id member
        rw [← split] at member
        rcases List.mem_cons.mp member with rfl | later
        · exact least
        · simpa using List.mem_takeWhile_imp later
      have larger : ∀ id ∈ rest.dropWhile (fun y => b.priority y < p), p < b.priority id := by
        have stopped := List.head?_dropWhile_not (fun y => decide (b.priority y < p)) rest
        have inside : (rest.dropWhile fun y => b.priority y < p).Sublist (first :: rest) :=
          (List.dropWhile_sublist _).trans (List.sublist_cons_self first rest)
        have ordered := increasing.sublist inside
        cases behind : rest.dropWhile fun y => b.priority y < p with
        | nil => simp
        | cons y later =>
          rw [behind] at stopped ordered inside
          have bound : p < b.priority y := greater (shape ▸ inside.subset List.mem_cons_self)
            (by simpa using stopped)
          intro id member
          rcases List.mem_cons.mp member with rfl | further
          · exact bound
          · exact UInt32.lt_trans bound ((List.pairwise_cons.mp ordered).1 id further)
      simp only [before, if_false, stop, Outcome.ok_bind]
      refine ⟨_, passed ++ [pos], rest.dropWhile (fun y => b.priority y < p), rfl, by simpa using whole,
        rfl, rfl, rfl, ?_, ?_, smaller, larger⟩
      · rw [whole] at linked distinct fresh
        simpa using linked.insertAfter distinct fresh
      · have first? := congrArg List.head? whole
        cases passed <;> simpa using first?

theorem Arranged.addLevel (arranged : b.Arranged P ids)
    (absent : b.levels.lookup p = none) {fm : Map A} (facts : P fm) :
    ∃ after ids', b.addLevel fm p = .ok after ∧ after.Arranged P ids' ∧
      after.levels.lookup p = some b.allocated ∧
      after.contents = Function.update b.contents p fm.contents := by
  obtain ⟨after, front, back, run, rfl, nodes, allocated, levels, linked, head, smaller, larger⟩ :=
    arranged.place absent fm
  have fresh : b.allocated ∉ front ++ back := fun member => Nat.lt_irrefl _ (arranged.bound _ member)
  have members (id : Nat) : id ∈ front ++ b.allocated :: back ↔ id = b.allocated ∨ id ∈ front ++ back := by
    simp only [List.mem_append, List.mem_cons]
    tauto
  have old {id : Nat} (member : id ∈ front ++ back) : after.nodes id = b.nodes id := by
    have different : id ≠ b.allocated := fun same => fresh (same ▸ member)
    simp [nodes, different]
  have oldPriority {id : Nat} (member : id ∈ front ++ back) : after.priority id = b.priority id := by
    simp [priority, old member]
  have newPriority : after.priority b.allocated = p := by simp [priority, nodes]
  have found : after.levels.lookup p = some b.allocated := by simp [levels]
  have arrangedAfter : after.Arranged P (front ++ b.allocated :: back) := by
    constructor
    case bound =>
      intro id member
      rw [allocated]
      rcases (members id).mp member with rfl | inside
      · exact Nat.lt_succ_self _
      · exact Nat.lt_succ_of_lt (arranged.bound id inside)
    case linked => exact linked
    case head => exact head
    case present =>
      intro id member
      rcases (members id).mp member with rfl | inside
      · exact ⟨{ priority := p, flows := fm }, by simp [nodes], facts⟩
      · rw [old inside]
        exact arranged.present id inside
    case sorted =>
      have ordered := List.pairwise_append.mp (List.pairwise_map.mp arranged.sorted)
      rw [List.pairwise_map, List.pairwise_append, List.pairwise_cons]
      refine ⟨ordered.1.imp_of_mem ?_, ⟨?_, ordered.2.1.imp_of_mem ?_⟩, ?_⟩
      · intro id later inside laterInside below
        rwa [oldPriority (List.mem_append_left _ inside), oldPriority (List.mem_append_left _ laterInside)]
      · intro id inside
        rw [newPriority, oldPriority (List.mem_append_right _ inside)]
        exact larger id inside
      · intro id later inside laterInside below
        rwa [oldPriority (List.mem_append_right _ inside),
          oldPriority (List.mem_append_right _ laterInside)]
      · intro id inside later behind
        rw [oldPriority (List.mem_append_left _ inside)]
        rcases List.mem_cons.mp behind with rfl | behind
        · rw [newPriority]
          exact smaller id inside
        · rw [oldPriority (List.mem_append_right _ behind)]
          exact ordered.2.2 id inside later behind
    case levels =>
      intro q id
      rw [members]
      by_cases same : q = p
      · subst same
        rw [found, Option.some_inj]
        constructor
        · rintro rfl
          exact ⟨Or.inl rfl, newPriority⟩
        · rintro ⟨rfl | inside, priority⟩
          · rfl
          · rw [oldPriority inside] at priority
            simp [(arranged.levels q id).mpr ⟨inside, priority⟩] at absent
      · rw [levels, AList.lookup_insert_ne same, arranged.levels]
        constructor
        · rintro ⟨inside, priority⟩
          exact ⟨Or.inr inside, (oldPriority inside).trans priority⟩
        · rintro ⟨rfl | inside, priority⟩
          · exact absurd (priority.symm.trans newPriority) same
          · exact ⟨inside, (oldPriority inside).symm.trans priority⟩
  refine ⟨after, _, run, arrangedAfter, found, ?_⟩
  funext q
  by_cases same : q = p
  · subst same
    simp [contents, levels, nodes]
  · rw [Function.update_of_ne same, contents, contents, levels, AList.lookup_insert_ne same]
    cases there : b.levels.lookup q with
    | none => rfl
    | some id =>
      have inside := ((arranged.levels q id).mp there).1
      simp [old inside]

theorem Arranged.removeLevel (arranged : b.Arranged P ids)
    (found : b.levels.lookup p = some id) :
    ∃ after ids', b.removeLevel p = .ok after ∧ after.Arranged P ids' ∧
      after.contents = Function.update b.contents p [] := by
  obtain ⟨member, priority⟩ := (arranged.levels p id).mp found
  obtain ⟨front, back, rfl⟩ := List.append_of_mem member
  have distinct := arranged.distinct
  obtain ⟨-, backDistinct, apart⟩ := List.nodup_append.mp distinct
  have notFront : id ∉ front := fun inside => apart id inside id List.mem_cons_self rfl
  have notBack : id ∉ back := (List.nodup_cons.mp backDistinct).1
  obtain ⟨-, -, next, -⟩ := (Links.segment_append _ _ _ _ _).mp arranged.linked
  rw [Option.or_none] at next
  have subset : (front ++ back).Sublist (front ++ id :: back) :=
    (List.Sublist.refl front).append (List.sublist_cons_self id back)
  refine ⟨_, front ++ back, by rw [FlowBank.removeLevel, found], ?_, ?_⟩
  · constructor
    case bound => exact fun other inside => arranged.bound other (subset.subset inside)
    case linked => exact arranged.linked.unlink distinct
    case head =>
      simp only [arranged.head, next]
      cases front with
      | nil => simp
      | cons first rest =>
        have different : first ≠ id := fun same => notFront (same ▸ List.mem_cons_self)
        simp [different]
    case present => exact fun other inside => arranged.present other (subset.subset inside)
    case sorted => exact arranged.sorted.sublist (subset.map _)
    case levels =>
      intro q other
      show (b.levels.erase p).lookup q = some other ↔ other ∈ front ++ back ∧ b.priority other = q
      by_cases same : q = p
      · subst same
        rw [AList.lookup_erase]
        refine ⟨nofun, ?_⟩
        rintro ⟨inside, samePriority⟩
        have again := (arranged.levels q other).mpr ⟨subset.subset inside, samePriority⟩
        rw [found, Option.some_inj] at again
        subst again
        simp [notFront, notBack] at inside
      · rw [AList.lookup_erase_ne same, arranged.levels]
        refine and_congr_left fun samePriority => ?_
        have different : other ≠ id := fun equal =>
          same (samePriority.symm.trans (equal ▸ priority))
        simp [different]
  · funext q
    by_cases same : q = p
    · subst same
      simp [contents]
    · rw [Function.update_of_ne same, contents, contents, AList.lookup_erase_ne same]

theorem rebuildLoop_correct (kd : FieldList) {R : Map A → Map A → Prop} (work : List Nat)
    (distinct : work.Nodup) (b : FlowBank A)
    (each : ∀ id ∈ work, ∃ level, b.nodes id = some level ∧
      ∃ flows, level.flows.rebuild maxSize kd = .ok flows ∧ R level.flows flows) :
    ∃ nodes, rebuildLoop maxSize kd work b = .ok { b with nodes } ∧
      (∀ id, id ∉ work → nodes id = b.nodes id) ∧
      ∀ id ∈ work, ∀ level, b.nodes id = some level →
        ∃ flows, nodes id = some { level with flows } ∧ R level.flows flows := by
  induction work generalizing b with
  | nil => exact ⟨b.nodes, rfl, fun _ _ => rfl, by simp⟩
  | cons id rest ih =>
    obtain ⟨fresh, distinct⟩ := List.nodup_cons.mp distinct
    obtain ⟨level, present, flows, rebuilt, related⟩ := each id List.mem_cons_self
    have here : (b.setFlows id flows).nodes id = some { level with flows } := by
      simp [setFlows, present]
    have others {other : Nat} (different : other ≠ id) :
        (b.setFlows id flows).nodes other = b.nodes other := by simp [setFlows, different]
    have apart {other : Nat} (member : other ∈ rest) : other ≠ id := fun same => fresh (same ▸ member)
    obtain ⟨nodes, run, kept, changed⟩ := ih distinct (b.setFlows id flows) (by
      intro other member
      rw [others (apart member)]
      exact each other (List.mem_cons_of_mem id member))
    refine ⟨nodes, by simpa [rebuildLoop, present, rebuilt, setFlows] using run, ?_, ?_⟩
    · intro other outside
      simp only [List.mem_cons, not_or] at outside
      rw [kept other outside.2, others outside.1]
    · intro other member otherLevel otherPresent
      rcases List.mem_cons.mp member with rfl | later
      · rw [present, Option.some_inj] at otherPresent
        subst otherPresent
        exact ⟨flows, (kept other fresh).trans here, related⟩
      · exact changed other later otherLevel ((others (apart later)).trans otherPresent)

theorem Arranged.levels_nodup (arranged : b.Arranged P ids) :
    (b.levels.entries.map Sigma.snd).Nodup := by
  refine List.Nodup.map_on ?_ (List.NodupKeys.nodup b.levels.nodupKeys)
  rintro ⟨p, id⟩ first ⟨q, other⟩ second same
  obtain rfl : id = other := same
  have isFirst := ((arranged.levels p id).mp (AList.mem_lookup_iff.mpr first)).2
  have isSecond := ((arranged.levels q id).mp (AList.mem_lookup_iff.mpr second)).2
  rw [← isFirst, ← isSecond]

theorem Arranged.rebuild (arranged : b.Arranged P ids) (order : Shuffle Nat) (kd : FieldList)
    {R : Map A → Map A → Prop}
    (each : ∀ m, P m → ∃ after, m.rebuild maxSize kd = .ok after ∧ Q after ∧ R m after) :
    ∃ after, b.rebuild maxSize order kd = .ok after ∧ after.Arranged Q ids ∧
      after.levels = b.levels ∧ ∀ id ∈ ids, ∀ level, b.nodes id = some level →
        ∃ flows, after.nodes id = some { level with flows } ∧ R level.flows flows := by
  have listed (id : Nat) :
      id ∈ order.arrange (b.levels.entries.map Sigma.snd) ↔ id ∈ ids := by
    rw [order.mem_arrange, List.mem_map]
    constructor
    · rintro ⟨entry, member, rfl⟩
      exact ((arranged.levels entry.1 entry.2).mp (AList.mem_lookup_iff.mpr member)).1
    · intro member
      have found := (arranged.levels _ id).mpr ⟨member, rfl⟩
      exact ⟨⟨b.priority id, id⟩, AList.mem_lookup_iff.mp found, rfl⟩
  have once : (order.arrange (b.levels.entries.map Sigma.snd)).Nodup :=
    (order.perm _).nodup_iff.mpr arranged.levels_nodup
  obtain ⟨nodes, run, kept, changed⟩ := @rebuildLoop_correct A maxSize kd
    (fun m after => Q after ∧ R m after) _ once b (by
      intro id member
      obtain ⟨level, present, facts⟩ := arranged.present id ((listed id).mp member)
      exact ⟨level, present, each _ facts⟩)
  simp only [listed] at kept changed
  have priorities : ({ b with nodes } : FlowBank A).priority = b.priority := by
    funext id
    by_cases member : id ∈ ids
    · obtain ⟨level, present, -⟩ := arranged.present id member
      obtain ⟨flows, after, -⟩ := changed id member level present
      simp [priority, present, after]
    · simp [priority, kept id member]
  refine ⟨_, run, { arranged with present := ?_, sorted := ?_, levels := ?_ }, rfl, ?_⟩
  · intro id member
    obtain ⟨level, present, -⟩ := arranged.present id member
    obtain ⟨flows, after, facts, -⟩ := changed id member level present
    exact ⟨_, after, facts⟩
  · rw [priorities]
    exact arranged.sorted
  · rw [priorities]
    exact arranged.levels
  · intro id member level present
    obtain ⟨flows, after, -, related⟩ := changed id member level present
    exact ⟨flows, after, related⟩

theorem findSome?_congr {α β : Type} {f g : α → Option β} {xs : List α}
    (same : ∀ x ∈ xs, f x = g x) : xs.findSome? f = xs.findSome? g := by
  induction xs with
  | nil => rfl
  | cons x xs ih =>
    obtain ⟨first, rest⟩ := List.forall_mem_cons.mp same
    rw [List.findSome?_cons, List.findSome?_cons, first, ih rest]

theorem Arranged.matchLoop (arranged : b.Arranged P ids) {sets : Sets} {key : PacketKey}
    {qualifier : PacketQualifier} {found : Map A → Option (Desc × List A)}
    (each : ∀ m, P m → m.match sets key qualifier = .ok (found m)) :
    matchLoop sets key qualifier b b.allocated b.head =
      .ok (ids.findSome? fun id => (b.nodes id).bind fun level => found level.flows) := by
  have walk (before : Option Nat) (rest : List Nat) (fuel : Nat) (inside : rest ⊆ ids)
      (segment : b.links.Segment before rest none) (enough : rest.length ≤ fuel) :
      FlowBank.matchLoop sets key qualifier b fuel rest.head? =
        .ok (rest.findSome? fun id => (b.nodes id).bind fun level => found level.flows) := by
    induction rest generalizing before fuel with
    | nil => cases fuel <;> rfl
    | cons id rest ih =>
      obtain ⟨fuel, rfl⟩ : ∃ more, fuel = more + 1 := ⟨fuel - 1, by simp at enough; omega⟩
      obtain ⟨level, present, facts⟩ := arranged.present id (inside List.mem_cons_self)
      obtain ⟨-, next, segment⟩ := segment
      rw [Option.or_none] at next
      have further := ih (some id) fuel (fun other later => inside (List.mem_cons_of_mem id later))
        segment (by simpa using enough)
      rw [List.head?_cons, FlowBank.matchLoop, present]
      simp only [each _ facts, Outcome.ok_bind, List.findSome?_cons, present, Option.bind_some]
      rw [next, further]
      cases found level.flows <;> rfl
  rw [arranged.head]
  exact walk none ids b.allocated (List.Subset.refl ids) arranged.linked arranged.length_le

end FlowBank

end

variable {A : Type}

structure FieldDesc where
  fields : GoMap FieldID Bool
  list : FieldList

def newFieldDesc : FieldDesc where
  fields := ∅
  list := { fields := [], size := 0 }

structure Orders where
  fields : Shuffle FieldID
  levels : Shuffle Nat

namespace FieldDesc

def learn : List FieldID → Bool × GoMap FieldID Bool → Bool × GoMap FieldID Bool
  | [], state => state
  | id :: rest, (updated, fields) =>
    match fields.lookup id with
    | none => learn rest (true, fields.insert id true)
    | some _ => learn rest (updated, fields)

def update (maxSize : FieldID → Nat) (order : Shuffle FieldID) (f : FieldDesc)
    (fields : List FieldID) : Bool × FieldDesc :=
  let (updated, known) := learn fields (false, f.fields)
  (updated, { fields := known, list := if updated then newFieldList maxSize order known else f.list })

end FieldDesc

structure FlowEntryDesc where
  bank : UInt32
  priority : UInt32
  fields : List PacketFieldMaskedBytes
  qualifiers : List PacketFieldSet

structure Table (A : Type) where
  actions : List A
  banks : List (FlowBank A)
  keyDesc : FieldDesc
  qualifierDesc : FieldDesc

namespace Table

def build (bankCount : Nat) (actions : List A) : Table A where
  actions
  banks := List.replicate bankCount FlowBank.empty
  keyDesc := newFieldDesc
  qualifierDesc := newFieldDesc

def clear (t : Table A) : Table A :=
  { t with banks := t.banks.map FlowBank.clear }

def rebuildBanks (maxSize : FieldID → Nat) (order : Shuffle Nat) (kd : FieldList) :
    List (FlowBank A) → Outcome (List (FlowBank A))
  | [] => .ok []
  | b :: rest => do return (← b.rebuild maxSize order kd) :: (← rebuildBanks maxSize order kd rest)

section Requests

variable (sets : Sets) (maxSize : FieldID → Nat)

def learnFields (orders : Orders) (t : Table A) (desc : Desc) : Outcome (Table A) := do
  let keys := orders.fields.arrange desc.keys.keys
  let qualifiers := orders.fields.arrange desc.qualifiers.keys
  let (rebuild, keyDesc) := t.keyDesc.update maxSize orders.fields keys
  let banks ← (if rebuild then rebuildBanks maxSize orders.levels keyDesc.list t.banks
    else .ok t.banks)
  let (_, qualifierDesc) := t.qualifierDesc.update maxSize orders.fields qualifiers
  return { t with banks, keyDesc, qualifierDesc }

-- A failed request still grows the banks and, past the description, the field lists: the result
-- carries the table next to the error. `actions` is what building the actions gives.
def addEntry (orders : Orders) (t : Table A) (entry : Option FlowEntryDesc)
    (actions : Except String (List A)) : Outcome (Table A × Option String) :=
  match entry with
  | none => .ok (t, some "flow: AddEntry failed, missing desc")
  | some flow =>
    let bankID := flow.bank.toNat
    let t := { t with
      banks := t.banks ++ List.replicate (bankID + 1 - t.banks.length) FlowBank.empty }
    match newDesc flow.fields flow.qualifiers with
    | .error message => .ok (t, some message)
    | .panic => .panic
    | .diverge => .diverge
    | .ok desc => do
      let t ← t.learnFields maxSize orders desc
      match actions with
      | .error message => return (t, some ("flow: AddEntry failed, err " ++ message))
      | .ok actions =>
        match t.banks[bankID]? with
        | none => .panic
        | some bank =>
          let bank ← bank.addFlow sets maxSize t.keyDesc.list t.qualifierDesc.list flow.priority
            desc actions
          return ({ t with banks := t.banks.set bankID bank }, none)

end Requests

def removeEntry (t : Table A) (entry : Option FlowEntryDesc) : Outcome (Table A) :=
  match entry with
  | none => .error "flow: RemoveEntry failed, missing extension"
  | some flow =>
    match t.banks[flow.bank.toNat]? with
    | none => .error ("flow: RemoveEntry failed, invalid bankID " ++ toString flow.bank)
    | some bank =>
      match bank.levels.lookup flow.priority with
      | none => .error ("flow: RemoveEntry failed, invalid priority " ++ toString flow.priority)
      | some id =>
        match bank.nodes id with
        | none => .panic
        | some level => do
          let desc ← newDesc flow.fields flow.qualifiers
          let bank ← bank.removeFlow id level flow.priority desc
          return { t with banks := t.banks.set flow.bank.toNat bank }

def processLoop (sets : Sets) (key : PacketKey) (qualifier : PacketQualifier) :
    List (FlowBank A) → List A × Bool → Outcome (List A × Bool)
  | [], state => .ok state
  | bank :: rest, (actions, found) => do
    match ← bank.matchLoop sets key qualifier bank.allocated bank.head with
    | some (_, more) => processLoop sets key qualifier rest (actions ++ more, true)
    | none => processLoop sets key qualifier rest (actions, found)

def process (sets : Sets) (maxSize : FieldID → Nat) (t : Table A) (packet : PacketFields) :
    Outcome (List A) := do
  let key := t.keyDesc.list.makePacketKey maxSize packet
  let qualifier := t.qualifierDesc.list.makePacketQualifier maxSize packet
  let (actions, found) ← processLoop sets key qualifier t.banks ([], false)
  return if found then actions else t.actions

end Table

inductive Op (A : Type) where
  | addEntry (orders : Orders) (entry : Option FlowEntryDesc) (actions : Except String (List A))
  | removeEntry (entry : Option FlowEntryDesc)
  | clear

namespace Table

def step (sets : Sets) (maxSize : FieldID → Nat) (t : Table A) : Op A → Outcome (Table A)
  | .addEntry orders entry actions => do
    return (← t.addEntry sets maxSize orders entry actions).1
  | .removeEntry entry => (t.removeEntry entry).ignoreError t
  | .clear => .ok t.clear

def run (sets : Sets) (maxSize : FieldID → Nat) (t : Table A) : List (Op A) → Outcome (Table A)
  | [] => .ok t
  | op :: ops => do (← t.step sets maxSize op).run sets maxSize ops

end Table

end Lemming.Flow

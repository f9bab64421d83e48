import Lemming.Action.Process
import Lemming.Shared.Segment
import Lemming.Shared.Interleaving
import Mathlib.Data.List.Flatten

set_option autoImplicit false

namespace Lemming.ActionTable

section

open Shared
open Lemming.Action (State)

inductive InsertMethod where
  | unspecified
  | prepend
  | append
  | unknown (number : Int)
deriving DecidableEq

def InsertMethod.string : InsertMethod → String
  | .unspecified => "INSERT_METHOD_UNSPECIFIED"
  | .prepend => "INSERT_METHOD_PREPEND"
  | .append => "INSERT_METHOD_APPEND"
  | .unknown number => toString number

structure ActionEntryDesc where
  id : String
  insertMethod : InsertMethod

def ActionEntryDesc.Known (act : ActionEntryDesc) : Prop :=
  act.insertMethod = .prepend ∨ act.insertMethod = .append

inductive ActionDesc (D : Type) where
  | continue
  | make (desc : D)

variable {D : Type}

def ActionDesc.made? : ActionDesc D → Option D
  | .continue => none
  | .make desc => some desc

structure Action (D : Type) where
  object : Nat
  desc : D

def newActions (objects : Nat) (ad : List (ActionDesc D)) : List (Action D) :=
  (ad.filterMap ActionDesc.made?).mapIdx fun i desc => { object := objects + i, desc }

structure Entry where
  start : Int
  numActions : Nat

structure Table (D : Type) where
  actions : List (Action D)
  entries : String → Option Entry
  defaultActions : List (Action D)
  objects : Nat

namespace Table

def build (actions : List (ActionDesc D)) : Table D where
  actions := []
  entries := fun _ => none
  defaultActions := newActions 0 actions
  objects := (newActions 0 actions).length

variable (t : Table D)

def movedBack (place : Int) (count : Nat) (id : String) : Option Entry :=
  (t.entries id).map fun e => if place < e.start then { e with start := e.start - count } else e

def movedOn (count : Nat) (id : String) : Option Entry :=
  (t.entries id).map fun e => { e with start := e.start + count }

def dropped (id : String) (e : Entry) (actions : List (Action D)) : Table D :=
  { t with actions, entries := Function.update (t.movedBack e.start e.numActions) id none }

def removeEntry (entry : Option ActionEntryDesc) :
    Outcome (Table D × Option String) :=
  match entry with
  | none => .ok (t, some "action: RemoveEntry failed, missing desc")
  | some act =>
    match t.entries act.id with
    | none => .ok (t, some "action: RemoveEntry failed, unknown entry")
    | some e =>
      match cut t.actions e.start e.numActions with
      -- A slice expression with bounds outside of the list.
      | none => .panic
      | some actions => .ok (t.dropped act.id e actions, none)

def insert (act : ActionEntryDesc) (a : List (Action D)) (count : Nat) :
    Table D × Option String :=
  match act.insertMethod with
  | .prepend =>
    let new : Entry := { start := 0, numActions := count }
    ({ t with
      actions := a ++ t.actions
      entries := Function.update (t.movedOn count) act.id (some new) }, none)
  | .append =>
    -- The place is the number of the new actions, not of those before them.
    let new : Entry := { start := count, numActions := count }
    ({ t with
      actions := t.actions ++ a
      entries := Function.update t.entries act.id (some new) }, none)
  | method => (t, some ("unknown insert type: " ++ method.string))

def addEntry (entry : Option ActionEntryDesc) (ad : List (ActionDesc D))
    (err : Option String) : Outcome (Table D × Option String) :=
  match entry, err with
  | none, _ => .ok (t, some "action: AddEntry failed, missing desc")
  | some _, some err => .ok (t, some err)
  | some act, none =>
    let a := newActions t.objects ad
    let t := { t with objects := t.objects + a.length }
    match t.entries act.id with
    | none => .ok (t.insert act a ad.length)
    | some _ => do
      match ← t.removeEntry entry with
      | (t, some err) => return (t, some err)
      | (t, none) => return t.insert act a ad.length

def clear : Table D :=
  { t with entries := fun _ => none }

def process : List (Action D) × State :=
  if t.actions.length = 0 then (t.defaultActions, .CONTINUE) else (t.actions, .CONTINUE)

end Table

inductive Call (D : Type) where
  | addEntry (entry : Option ActionEntryDesc) (ad : List (ActionDesc D)) (err : Option String)
  | removeEntry (entry : Option ActionEntryDesc)
  | clear

def Table.serve (t : Table D) : Call D → Outcome (Table D × Option String)
  | .addEntry entry ad err => t.addEntry entry ad err
  | .removeEntry entry => t.removeEntry entry
  | .clear => .ok (t.clear, none)

abbrev Reference (D : Type) := List (String × List (Action D))

namespace Reference

variable (ref : Reference D)

def contents : List (Action D) :=
  ref.flatMap (·.2)

def without (id : String) : Reference D :=
  ref.filter fun entry => entry.1 ≠ id

def insert (act : ActionEntryDesc) (a : List (Action D)) : Reference D :=
  match act.insertMethod with
  | .prepend => (act.id, a) :: ref
  | .append => ref ++ [(act.id, a)]
  | _ => ref

def apply (objects : Nat) : Call D → Reference D
  | .addEntry (some act) ad _ => (ref.without act.id).insert act (newActions objects ad)
  | .addEntry none _ _ => ref
  | .removeEntry (some act) => ref.without act.id
  | .removeEntry none => ref
  | .clear => []

end Reference

-- `lost` marks the entries whose recorded place is no longer the one that they stand at. It follows from
-- the calls alone.
structure Tracked (D : Type) where
  table : Table D
  ref : Reference D
  lost : String → Bool

-- `count` descriptions were given for an entry and `made` actions came of them. Before an appended entry
-- there are `before` actions.
def misplaced (lost : String → Bool) (act : ActionEntryDesc) (before made count : Nat) :
    String → Bool :=
  match act.insertMethod with
  | .prepend => if count = made then Function.update lost act.id false else fun _ => true
  | .append => Function.update lost act.id (decide (count ≠ made ∨ count ≠ before))
  | _ => lost

namespace Tracked

variable (s : Tracked D)

def lostBy : Call D → String → Bool
  | .addEntry (some act) ad _ =>
    misplaced s.lost act (s.ref.without act.id).contents.length
      (newActions s.table.objects ad).length ad.length
  | _ => s.lost

def after (call : Call D) (table : Table D) (err : Option String) : Tracked D where
  table := table
  ref := if err = none then s.ref.apply s.table.objects call else s.ref
  lost := if err = none then s.lostBy call else s.lost

def step (call : Call D) : Option (Tracked D) :=
  match s.table.serve call with
  | .ok (table, err) => some (s.after call table err)
  | _ => none

def expected : List (Action D) × State :=
  (if s.ref.contents = [] then s.table.defaultActions else s.ref.contents, .CONTINUE)

def Right (call : Call D) : Prop :=
  ∃ table err, s.table.serve call = .ok (table, err) ∧
    (err ≠ none → table.actions = s.table.actions ∧ table.entries = s.table.entries) ∧
    table.process = (s.after call table err).expected

-- No entry whose place was lost is removed or replaced, an entry is replaced with a known insert
-- method, and only a table without actions is cleared.
def Fits : Call D → Prop
  | .addEntry (some act) _ none =>
    (s.table.entries act.id).isSome = true → s.lost act.id = false ∧ act.Known
  | .removeEntry (some act) => (s.table.entries act.id).isSome = true → s.lost act.id = false
  | .clear => s.table.actions = []
  | _ => True

end Tracked

end

open Shared

variable {D : Type}

namespace Reference

variable {ref : Reference D} {id : String} {own : List (Action D)}

theorem without_split (ids : (ref.map (·.1)).Nodup) (member : (id, own) ∈ ref) :
    ∃ front back, ref = front ++ (id, own) :: back ∧ ref.without id = front ++ back := by
  obtain ⟨front, back, rfl⟩ := List.append_of_mem member
  refine ⟨front, back, rfl, ?_⟩
  have absent : ∀ entry ∈ front ++ back, entry.1 ≠ id := by
    rintro entry inside rfl
    have distinct := List.nodup_middle.mp (by simpa using ids)
    rw [List.nodup_cons] at distinct
    apply distinct.1
    rw [← List.map_append]
    exact List.mem_map_of_mem inside
  rw [List.forall_mem_append] at absent
  simp only [without, List.filter_append, ne_eq, decide_not, List.filter_cons, decide_true,
    Bool.not_true, Bool.false_eq_true, if_false]
  rw [List.filter_eq_self.mpr, List.filter_eq_self.mpr]
  · simpa using absent.2
  · simpa using absent.1

theorem mem_without {entry : String × List (Action D)} :
    entry ∈ ref.without id ↔ entry ∈ ref ∧ entry.1 ≠ id := by
  simp [without]

@[simp]
theorem contents_cons (entry : String × List (Action D)) (ref : Reference D) :
    contents (entry :: ref) = entry.2 ++ ref.contents :=
  List.flatMap_cons

@[simp]
theorem contents_append (ref more : Reference D) :
    contents (ref ++ more) = ref.contents ++ more.contents :=
  List.flatMap_append

theorem without_ids (ids : (ref.map (·.1)).Nodup) : ((ref.without id).map (·.1)).Nodup :=
  ids.sublist (List.Sublist.map _ List.filter_sublist)

end Reference

theorem insert_unknown (t : Table D) {act : ActionEntryDesc} (unknown : ¬ act.Known)
    (a : List (Action D)) (count : Nat) : ∃ err, t.insert act a count = (t, some err) := by
  rw [ActionEntryDesc.Known, not_or] at unknown
  unfold Table.insert
  split
  · next isPrepend => exact absurd isPrepend unknown.1
  · next isAppend => exact absurd isAppend unknown.2
  · exact ⟨_, rfl⟩

namespace Tracked

variable {s : Tracked D}

structure Consistent (s : Tracked D) : Prop where
  contents : s.table.actions = s.ref.contents
  live : ∀ id, (s.table.entries id).isSome ↔ ∃ own, (id, own) ∈ s.ref
  ids : (s.ref.map (·.1)).Nodup
  places : ∀ front id own back, s.ref = front ++ (id, own) :: back → s.lost id = false →
    s.table.entries id = some { start := (Reference.contents front).length, numActions := own.length }

theorem process_eq (t : Table D) :
    t.process = (if t.actions = [] then t.defaultActions else t.actions, .CONTINUE) := by
  rw [Table.process]
  cases t.actions <;> simp

theorem Consistent.process (consistent : s.Consistent) : s.table.process = s.expected := by
  rw [process_eq, expected, consistent.contents]

theorem Consistent.made (consistent : s.Consistent) (objects : Nat) :
    Consistent { s with table := { s.table with objects } } :=
  ⟨consistent.contents, consistent.live, consistent.ids, consistent.places⟩

theorem Consistent.cut (consistent : s.Consistent) {id : String}
    (live : (s.table.entries id).isSome = true) (kept : s.lost id = false) :
    ∃ e, s.table.entries id = some e ∧
      cut s.table.actions e.start e.numActions = some (s.ref.without id).contents ∧
      Consistent { s with
        table := s.table.dropped id e (s.ref.without id).contents, ref := s.ref.without id } := by
  obtain ⟨own, member⟩ := (consistent.live id).mp live
  obtain ⟨front, back, split, rest⟩ := Reference.without_split consistent.ids member
  have place := consistent.places front id own back split kept
  refine ⟨_, place, ?_, rfl, fun other => ?_, Reference.without_ids consistent.ids, ?_⟩
  · have whole : s.table.actions = front.contents ++ own ++ Reference.contents back := by
      simp [consistent.contents, split]
    rw [whole, cut_segment, rest, Reference.contents_append]
  · by_cases isId : other = id
    · subst isId
      simp [Table.dropped, Reference.mem_without]
    · simp [Table.dropped, Table.movedBack, consistent.live, Reference.mem_without, isId]
  · intro front' other own' back' split' (kept' : s.lost other = false)
    have isOther : other ≠ id :=
      (Reference.mem_without.mp (split' ▸ List.mem_append_right _ List.mem_cons_self)).2
    simp only [Table.dropped, Table.movedBack, Function.update_of_ne isOther]
    -- The entries before the one that is removed stay, and those behind it move up.
    rcases split_append (rest.symm.trans split') with ⟨between, rfl, -⟩ | ⟨between, rfl, rfl⟩
    · rw [consistent.places front' other own' _ (by rw [split, List.append_assoc]; rfl) kept']
      simp only [Option.map_some, Reference.contents_append, List.length_append]
      rw [if_neg (by omega)]
    · have before : s.ref = front ++ (id, own) :: between ++ (other, own') :: back' := by
        rw [split, List.append_assoc]
        rfl
      rw [consistent.places _ other own' back' before kept']
      simp only [Option.map_some, Reference.contents_append, Reference.contents_cons, List.length_append]
      split
      · exact congrArg some (congrArg (Entry.mk · own'.length) (by omega))
      · exact congrArg some (congrArg (Entry.mk · own'.length) (by omega))

theorem Consistent.fresh (consistent : s.Consistent) {id : String} (absent : s.table.entries id = none) :
    id ∉ s.ref.map (·.1) := by
  intro member
  obtain ⟨⟨_, own⟩, inside, rfl⟩ := List.mem_map.mp member
  have live := (consistent.live _).mpr ⟨own, inside⟩
  rw [absent] at live
  cases live

theorem Consistent.insert (consistent : s.Consistent) (act : ActionEntryDesc)
    (absent : s.table.entries act.id = none) (known : act.Known) (a : List (Action D)) (count : Nat) :
    ∃ table, s.table.insert act a count = (table, none) ∧
      Consistent
        { table := table
          ref := s.ref.insert act a
          lost := misplaced s.lost act s.ref.contents.length a.length count } := by
  have fresh := consistent.fresh absent
  have isNew {id : String} (own : List (Action D)) (member : (id, own) ∈ s.ref) : id ≠ act.id := by
    rintro rfl
    exact fresh (List.mem_map_of_mem member)
  rcases known with isPrepend | isAppend
  · simp only [Table.insert, Reference.insert, misplaced, isPrepend]
    refine ⟨_, rfl, ?_, fun other => ?_, List.nodup_cons.mpr ⟨fresh, consistent.ids⟩, ?_⟩
    · simp [consistent.contents, Reference.contents]
    · by_cases isId : other = act.id
      · subst isId
        simp
      · simp [Table.movedOn, consistent.live, isId]
    · intro front id own back split kept
      simp only at kept
      split at kept
      · next even =>
        rcases List.cons_eq_append_iff.mp split with ⟨rfl, isHead⟩ | ⟨front, rfl, isRef⟩
        · obtain ⟨same, rfl⟩ := List.cons.inj isHead
          obtain ⟨rfl, rfl⟩ := Prod.mk.inj same
          simp [Reference.contents, even]
        · have other : id ≠ act.id := isNew own (by rw [isRef]; simp)
          rw [Function.update_of_ne other] at kept
          simp only [Function.update_of_ne other, Table.movedOn,
            consistent.places front id own back isRef kept, Option.map_some, Reference.contents_cons,
            List.length_append, even]
          exact congrArg some (congrArg (Entry.mk · own.length) (by omega))
      · cases kept
  · simp only [Table.insert, Reference.insert, misplaced, isAppend]
    refine ⟨_, rfl, ?_, fun other => ?_, ?_, ?_⟩
    · simp [consistent.contents, Reference.contents]
    · by_cases isId : other = act.id
      · subst isId
        simp
      · simp [consistent.live, isId]
    · rw [List.map_append]
      exact List.nodup_append_comm.mp (List.nodup_cons.mpr ⟨fresh, consistent.ids⟩)
    · intro front id own back split kept
      simp only at kept ⊢
      rcases split_append split with ⟨between, isRef, -⟩ | ⟨between, rfl, isLast⟩
      · have other : id ≠ act.id := isNew own (by rw [isRef]; simp)
        rw [Function.update_of_ne other] at kept ⊢
        exact consistent.places front id own between isRef kept
      · obtain ⟨rfl, same, rfl⟩ : between = [] ∧ (act.id, a) = (id, own) ∧ back = [] := by
          cases between with
          | nil => simpa [eq_comm] using isLast
          | cons => simp at isLast
        obtain ⟨rfl, rfl⟩ := Prod.mk.inj same
        rw [Function.update_self, decide_eq_false_iff_not, not_or, not_not, not_not] at kept
        rw [Function.update_self, List.append_nil, ← kept.1, ← kept.2]

theorem Consistent.without_absent (consistent : s.Consistent) {id : String}
    (absent : s.table.entries id = none) : s.ref.without id = s.ref := by
  refine List.filter_eq_self.mpr fun entry member => ?_
  rw [decide_eq_true_iff]
  rintro rfl
  exact consistent.fresh absent (List.mem_map_of_mem member)

-- What a call that fits does: it returns, an error leaves the table alone, and the places that are not
-- lost stay right.
def Served (s : Tracked D) (call : Call D) : Prop :=
  ∃ table err, s.table.serve call = .ok (table, err) ∧
    (err ≠ none → table.actions = s.table.actions ∧ table.entries = s.table.entries) ∧
    (s.after call table err).Consistent

variable {call : Call D} {act : ActionEntryDesc}

theorem Consistent.refused (consistent : s.Consistent) {err : String} (objects : Nat)
    (served : s.table.serve call = .ok ({ s.table with objects }, some err)) : s.Served call :=
  ⟨_, _, served, fun _ => ⟨rfl, rfl⟩, consistent.made objects⟩

theorem Consistent.add (consistent : s.Consistent) (absent : s.table.entries act.id = none)
    (ad : List (ActionDesc D)) : s.Served (.addEntry (some act) ad none) := by
  have served : s.table.serve (.addEntry (some act) ad none) = .ok (Table.insert
      { s.table with objects := s.table.objects + (newActions s.table.objects ad).length } act
      (newActions s.table.objects ad) ad.length) := by
    simp only [Table.serve, Table.addEntry, absent]
  by_cases known : act.Known
  · obtain ⟨table, inserted, kept⟩ :=
      (consistent.made (s.table.objects + (newActions s.table.objects ad).length)).insert act absent known
        (newActions s.table.objects ad) ad.length
    rw [inserted] at served
    refine ⟨table, none, served, fun failed => absurd rfl failed, ?_⟩
    simpa only [after, if_true, Reference.apply, lostBy, consistent.without_absent absent] using kept
  · obtain ⟨err, inserted⟩ := insert_unknown
      { s.table with objects := s.table.objects + (newActions s.table.objects ad).length } known
      (newActions s.table.objects ad) ad.length
    rw [inserted] at served
    exact consistent.refused _ served

theorem Consistent.replace (consistent : s.Consistent) (live : (s.table.entries act.id).isSome = true)
    (kept : s.lost act.id = false) (known : act.Known) (ad : List (ActionDesc D)) :
    s.Served (.addEntry (some act) ad none) := by
  obtain ⟨e, isEntry, found, dropped⟩ :=
    (consistent.made (s.table.objects + (newActions s.table.objects ad).length)).cut live kept
  obtain ⟨table, inserted, kept⟩ := dropped.insert act (by simp [Table.dropped]) known
    (newActions s.table.objects ad) ad.length
  refine ⟨table, none, ?_, fun failed => absurd rfl failed, kept⟩
  simp only at isEntry found inserted
  simp only [Table.serve, Table.addEntry, Table.removeEntry, isEntry, found]
  exact congrArg Outcome.ok inserted

theorem Consistent.serves (consistent : s.Consistent) (fits : s.Fits call) : s.Served call := by
  cases call with
  | addEntry entry ad err =>
    cases entry with
    | none => exact consistent.refused s.table.objects rfl
    | some act =>
      cases err with
      | some err => exact consistent.refused s.table.objects rfl
      | none =>
        cases live : s.table.entries act.id with
        | none => exact consistent.add live ad
        | some e =>
          have isLive : (s.table.entries act.id).isSome = true := by rw [live]; rfl
          obtain ⟨kept, known⟩ := fits isLive
          exact consistent.replace isLive kept known ad
  | removeEntry entry =>
    cases entry with
    | none => exact consistent.refused s.table.objects rfl
    | some act =>
      cases live : s.table.entries act.id with
      | none =>
        have refused : s.table.serve (.removeEntry (some act)) =
            .ok (s.table, some "action: RemoveEntry failed, unknown entry") := by
          simp only [Table.serve, Table.removeEntry, live]
        exact consistent.refused s.table.objects refused
      | some e =>
        have isLive : (s.table.entries act.id).isSome = true := by rw [live]; rfl
        obtain ⟨e, isEntry, found, dropped⟩ := consistent.cut isLive (fits isLive)
        refine ⟨_, none, ?_, fun failed => absurd rfl failed, dropped⟩
        simp only [Table.serve, Table.removeEntry, isEntry, found]
  | clear =>
    have noActions : s.table.actions = [] := fits
    refine ⟨s.table.clear, none, rfl, fun failed => absurd rfl failed, noActions, ?_, ?_, ?_⟩
    · simp [after, Table.clear, Reference.apply]
    · simp [after, Reference.apply]
    · simp [after, Reference.apply]

def build (td : List (ActionDesc D)) : Tracked D where
  table := Table.build td
  ref := []
  lost := fun _ => false

theorem build_consistent (td : List (ActionDesc D)) : (build td).Consistent where
  contents := rfl
  live := by simp [build, Table.build]
  ids := List.nodup_nil
  places := by simp [build]

theorem serves_right (td : List (ActionDesc D)) (calls : List (Call D))
    (fits : Interleaving.Along step Fits (build td) calls) :
    Interleaving.Along step Right (build td) calls := by
  refine fits.imp (I := Consistent) ?_ ?_ (build_consistent td)
  · intro s call t consistent fits goes
    obtain ⟨table, err, served, -, next⟩ := consistent.serves fits
    rw [step, served] at goes
    cases goes
    exact next
  · intro s call consistent fits
    obtain ⟨table, err, served, unchanged, next⟩ := consistent.serves fits
    exact ⟨table, err, served, unchanged, next.process⟩

section Samples

def put (id : String) (method : InsertMethod) (descs : List Nat) : Call Nat :=
  .addEntry (some { id := id, insertMethod := method }) (descs.map .make) none

def remove (id : String) : Call Nat := .removeEntry (some { id := id, insertMethod := .unspecified })

-- The appended entry has as many actions as there are before it.
def mixed : List (Call Nat) :=
  [put "a" .prepend [7], put "b" .append [8], put "c" .prepend [1, 2], remove "a", put "b" .append [3, 4],
    remove "c", remove "b", .clear]

theorem serves_right_mixed : Interleaving.Along step Right (build [.make 5]) mixed :=
  serves_right _ mixed (by
    simp [mixed, put, remove, Interleaving.Along, step, Fits, build, Table.build, Table.serve,
      Table.addEntry, Table.removeEntry, Table.insert, Table.dropped, Table.movedBack, Table.movedOn, cut,
      newActions, ActionDesc.made?, after, lostBy, misplaced, Reference.apply, Reference.insert,
      Reference.without, Reference.contents, ActionEntryDesc.Known, Function.update])

def addOne (method : InsertMethod) : Call Nat := put "a" method [7]

-- One entry of one action is appended to an empty table: it cannot be removed, and it outlives `Clear`.
-- An entry that is added again with no insert method is removed by the call that fails.
theorem appended_entry_lost :
    (∃ s : Tracked Nat, (build []).step (addOne .append) = some s ∧
      s.table.serve (.removeEntry (some { id := "a", insertMethod := .append })) = .panic ∧
      s.table.clear.process = ([{ object := 0, desc := 7 }], .CONTINUE)) ∧
    ∃ s t : Tracked Nat, (build []).step (addOne .prepend) = some s ∧
      s.step (addOne .unspecified) = some t ∧
      t.table.process = ([], .CONTINUE) ∧ t.ref = s.ref :=
  ⟨⟨_, rfl, rfl, rfl⟩, _, _, rfl, rfl, rfl, rfl⟩

end Samples

end Tracked

end Lemming.ActionTable

import Lemming.Exact.Table
import Lemming.Forwarding.Action
import Lemming.Prefix.Entries
import Lemming.Flow.Standing

set_option autoImplicit false

namespace Lemming.Forwarding

open Packet Shared
open Lemming.Flow (PacketFieldMaskedBytes FlowEntryDesc)

inductive EntryDesc where
  | exactEntry (desc : Exact.ExactEntryDesc)
  | flowEntry (desc : FlowEntryDesc)
  | prefixEntry (fields : List PacketFieldMaskedBytes)

def EntryDesc.asExact : EntryDesc → Option Exact.ExactEntryDesc
  | .exactEntry desc => some desc
  | _ => none

def EntryDesc.flow? : EntryDesc → Option FlowEntryDesc
  | .flowEntry desc => some desc
  | _ => none

def EntryDesc.prefix? : EntryDesc → Option (List PacketFieldMaskedBytes)
  | .prefixEntry fields => some fields
  | _ => none

-- No request of the model is for an action table, which is therefore left without its contents.
inductive Table where
  | exactTable (table : Exact.Table (List Action))
  | flowTable (table : Flow.Table Action)
  | prefixTable (table : Prefix.EntryTable Action)
  | actionTable

structure Env where
  sets : Flow.Sets
  isEqual : List Action → List Action → Bool
  texts : Prefix.Texts
  exactText : List (FieldID × Bytes) → String
  keyText : Exact.Key → String
  exactEntryText : Exact.Entry (List Action) → String

def Env.exact (env : Env) : Exact.Env (List Action) where
  maxSize := Parser.maxSize
  validate := Parser.validate env.texts.field env.texts.group
  isEqual := env.isEqual
  fieldText := env.texts.field
  fieldsText := env.exactText
  keyText := env.keyText
  entryText := env.exactEntryText

structure Call where
  now : Int
  orders : Flow.Orders
  objects : Objects

def reported {α : Type} (old : α) : Outcome α → Outcome (α × Option String)
  | .ok value => .ok (value, none)
  | .error message => .ok (old, some message)
  | .panic => .panic
  | .diverge => .diverge

namespace Table

variable (env : Env) (call : Call)

def addEntry (t : Table) (ed : EntryDesc) (ad : List ActionDesc) :
    Outcome (Table × Option String) :=
  let actions := newActions call.objects ad
  match t with
  | .exactTable table => do
    let (table, err) ← table.addEntry env.exact ed.asExact actions call.now
    return (.exactTable table, err)
  | .flowTable table => do
    let (table, err) ← table.addEntry env.sets Parser.maxSize call.orders ed.flow? actions
    return (.flowTable table, err)
  | .prefixTable table => do
    let (table, err) ← reported table (table.addEntry env.texts ed.prefix? actions)
    return (.prefixTable table, err)
  | .actionTable => .ok (.actionTable, some "action: AddEntry failed, missing desc")

def removeEntry (t : Table) (ed : EntryDesc) : Outcome (Table × Option String) :=
  match t with
  | .exactTable table => do
    let (table, err) ← table.removeEntry env.exact ed.asExact
    return (.exactTable table, err)
  | .flowTable table => do
    let (table, err) ← reported table (table.removeEntry ed.flow?)
    return (.flowTable table, err)
  | .prefixTable table => do
    let (table, err) ← reported table (table.removeEntry env.texts ed.prefix?)
    return (.prefixTable table, err)
  | .actionTable => .ok (.actionTable, some "action: RemoveEntry failed, missing desc")

def addEntries : List (EntryDesc × List ActionDesc) → Table → Outcome (Table × Option String)
  | [], t => .ok (t, none)
  | (ed, ad) :: rest, t => do
    match ← t.addEntry env call ed ad with
    | (t, some err) => return (t, some err)
    | (t, none) => addEntries rest t

end Table

structure Context where
  tables : String → Option Table

namespace Context

variable (env : Env) (call : Call)

def tableEntryAdd (c : Context) (tableId : String) (entries : List (EntryDesc × List ActionDesc)) :
    Outcome (Context × Option String) :=
  match c.tables tableId with
  | none => .ok (c, some
      ("fwd: TableEntryAdd failed, err fwdobject: find failed, no object at id " ++ tableId))
  | some table => do
    let (table, err) ← table.addEntries env call entries
    return ({ tables := Function.update c.tables tableId (some table) },
      err.map ("fwd: TableEntryAdd failed, err " ++ ·))

def tableEntryRemove (c : Context) (tableId : String) (entry : EntryDesc) :
    Outcome (Context × Option String) :=
  match c.tables tableId with
  | none => .ok (c, some
      ("fwd: TableEntryRemove failed, err fwdobject: find failed, no object at id " ++ tableId))
  | some table => do
    let (table, err) ← table.removeEntry env entry
    return ({ tables := Function.update c.tables tableId (some table) },
      err.map ("fwd: TableEntryRemove failed, err " ++ ·))

end Context

inductive Contents where
  | exactEntries (view : Exact.Key → Option (List Action × Bool))
  | flows (held : Nat → UInt32 → List (Flow.Desc × List Action))
  | prefixes (stored : Prefix.Table.Stored Action)
  | actions

def Table.contents : Table → Contents
  | .exactTable table => .exactEntries table.view
  | .flowTable table => .flows table.contents
  | .prefixTable table => .prefixes table.tree.stored
  | .actionTable => .actions

theorem reported_eq_ok {α : Type} {old value : α} {outcome : Outcome α} :
    reported old outcome = .ok (value, none) ↔ outcome = .ok value := by
  cases outcome <;> simp [reported]

namespace Table

variable {env : Env} {call : Call}

theorem addEntries_single (t : Table) (ed : EntryDesc) (ad : List ActionDesc) :
    t.addEntries env call [(ed, ad)] = t.addEntry env call ed ad := by
  rw [addEntries]
  cases t.addEntry env call ed ad with
  | ok result =>
    obtain ⟨after, err⟩ := result
    cases err <;> rfl
  | _ => rfl

theorem addEntry_prefix {t t' : Table} {fields : List PacketFieldMaskedBytes} {ad : List ActionDesc}
    (added : t.addEntry env call (.prefixEntry fields) ad = .ok (t', none)) :
    ∃ table table', t = .prefixTable table ∧ t' = .prefixTable table' ∧
      table.addEntry env.texts (some fields) (newActions call.objects ad) = .ok table' := by
  cases t with
  | prefixTable table =>
    obtain ⟨⟨table', err⟩, result, added⟩ := Outcome.bind_eq_ok.mp added
    cases added
    exact ⟨table, table', rfl, rfl, reported_eq_ok.mp result⟩
  | _ => cases added

theorem addEntry_flow {t t' : Table} {flow : FlowEntryDesc} {ad : List ActionDesc}
    (added : t.addEntry env call (.flowEntry flow) ad = .ok (t', none)) :
    ∃ table table', t = .flowTable table ∧ t' = .flowTable table' ∧
      table.addEntry env.sets Parser.maxSize call.orders (some flow) (newActions call.objects ad) =
        .ok (table', none) := by
  cases t with
  | flowTable table =>
    obtain ⟨⟨table', err⟩, result, added⟩ := Outcome.bind_eq_ok.mp added
    cases added
    exact ⟨table, table', rfl, rfl, result⟩
  | _ => cases added

theorem removeEntry_prefix {t t' : Table} {fields : List PacketFieldMaskedBytes}
    (removed : t.removeEntry env (.prefixEntry fields) = .ok (t', none)) :
    ∃ table table', t = .prefixTable table ∧ t' = .prefixTable table' ∧
      table.removeEntry env.texts (some fields) = .ok table' := by
  cases t with
  | prefixTable table =>
    obtain ⟨⟨table', err⟩, result, removed⟩ := Outcome.bind_eq_ok.mp removed
    cases removed
    exact ⟨table, table', rfl, rfl, reported_eq_ok.mp result⟩
  | _ => cases removed

end Table

namespace Context

variable {env : Env} {call : Call} {c c' : Context} {id : String}

def contents (c : Context) (id : String) : Option Contents :=
  (c.tables id).map Table.contents

def setTable (c : Context) (id : String) (table : Table) : Context where
  tables := Function.update c.tables id (some table)

@[simp] theorem setTable_self (c : Context) (id : String) (table : Table) :
    (c.setTable id table).tables id = some table := by
  simp [setTable]

@[simp] theorem setTable_other (c : Context) {id other : String} (table : Table)
    (different : other ≠ id) : (c.setTable id table).tables other = c.tables other := by
  simp [setTable, different]

theorem setTable_contents (c : Context) (id : String) (table : Table) :
    (c.setTable id table).contents = Function.update c.contents id (some table.contents) := by
  funext other
  by_cases same : other = id
  · subst same
    simp [contents]
  · simp [contents, same]

theorem tableEntryAdd_ok {ed : EntryDesc} {ad : List ActionDesc}
    (added : c.tableEntryAdd env call id [(ed, ad)] = .ok (c', none)) :
    ∃ table table', c.tables id = some table ∧ table.addEntry env call ed ad = .ok (table', none) ∧
      c' = c.setTable id table' := by
  unfold tableEntryAdd at added
  cases present : c.tables id with
  | none => simp [present] at added
  | some table =>
    rw [present] at added
    dsimp only at added
    rw [Table.addEntries_single] at added
    obtain ⟨⟨table', err⟩, result, added⟩ := Outcome.bind_eq_ok.mp added
    cases err with
    | some err => cases added
    | none =>
      cases added
      exact ⟨table, table', rfl, result, rfl⟩

theorem tableEntryRemove_ok {ed : EntryDesc}
    (removed : c.tableEntryRemove env id ed = .ok (c', none)) :
    ∃ table table', c.tables id = some table ∧ table.removeEntry env ed = .ok (table', none) ∧
      c' = c.setTable id table' := by
  unfold tableEntryRemove at removed
  cases present : c.tables id with
  | none => simp [present] at removed
  | some table =>
    rw [present] at removed
    obtain ⟨⟨table', err⟩, result, removed⟩ := Outcome.bind_eq_ok.mp removed
    cases err with
    | some err => cases removed
    | none =>
      cases removed
      exact ⟨table, table', rfl, result, rfl⟩

end Context

end Lemming.Forwarding

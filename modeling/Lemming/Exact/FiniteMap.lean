import Lemming.Exact.Table

set_option autoImplicit false

namespace Lemming.Exact

open Packet Shared

variable {A : Type}

inductive MapOp (A : Type) where
  | insert (key : Key) (actions : A)
  | remove (id : Nat)
  | clear

-- The finite map: for each key the entry last inserted and not since removed, by its pointer and its
-- actions.
structure Ledger (A : Type) where
  next : Nat
  held : Key → Option (Nat × A)

namespace Ledger

def empty : Ledger A := ⟨0, fun _ => none⟩

def record (ledger : Ledger A) : MapOp A → Ledger A
  | .insert key actions =>
    { next := ledger.next + 1, held := Function.update ledger.held key (some (ledger.next, actions)) }
  | .remove id =>
    { ledger with held := fun key =>
        if (ledger.held key).map Prod.fst = some id then none else ledger.held key }
  | .clear => { ledger with held := fun _ => none }

def recordAll (ledger : Ledger A) (ops : List (MapOp A)) : Ledger A :=
  ops.foldl record ledger

def Permits (ledger : Ledger A) : MapOp A → Prop
  | .insert key _ => ledger.held key = none
  | .remove id => ∃ key actions, ledger.held key = some (id, actions)
  | .clear => True

def PermitsAll : Ledger A → List (MapOp A) → Prop
  | _, [] => True
  | ledger, op :: ops => ledger.Permits op ∧ PermitsAll (ledger.record op) ops

end Ledger

namespace Table

section AnyBucket

variable (bucketFor : Key → UInt32)

def applyBy (t : Table A) : MapOp A → Outcome (Table A)
  | .insert key actions => .ok (t.insertBy bucketFor key actions)
  | .remove id =>
    match t.entries id with
    | none => .panic
    | some entry => .ok (t.removeBy bucketFor id entry.key)
  | .clear => t.clear

def applyAllBy (t : Table A) : List (MapOp A) → Outcome (Table A)
  | [] => .ok t
  | op :: ops => do applyAllBy (← t.applyBy bucketFor op) ops

structure Agrees (t : Table A) (ledger : Ledger A) (ids : List Nat) : Prop where
  chains : t.ChainsBy bucketFor ids
  next : t.allocated = ledger.next
  held : ∀ key id actions, ledger.held key = some (id, actions) ↔
    id ∈ ids ∧ t.entries id = some ⟨key, actions, 0, false⟩
  fresh : ∀ id ∈ ids, ∃ key actions, t.entries id = some ⟨key, actions, 0, false⟩

end AnyBucket

variable {bucketFor : Key → UInt32} {t : Table A} {ledger : Ledger A} {ids : List Nat} {key : Key}
  {id : Nat}

section

variable (agrees : t.Agrees bucketFor ledger ids)
include agrees

theorem Agrees.findBy (key : Key) :
    t.findBy bucketFor key = .ok ((ledger.held key).map Prod.fst) := by
  cases isHeld : ledger.held key with
  | some pair =>
    obtain ⟨id, actions⟩ := pair
    obtain ⟨member, isEntry⟩ := (agrees.held key id actions).mp isHeld
    exact agrees.chains.findBy_iff.mpr ⟨member, keyAt_of_entries isEntry⟩
  | none =>
    rw [agrees.chains.findBy_eq, Option.map_none]
    congr 1
    apply List.find?_eq_none.mpr
    intro id member isKey
    obtain ⟨key', actions, isEntry⟩ := agrees.fresh id member
    have same : some key' = some key :=
      (keyAt_of_entries isEntry).symm.trans (hasKey_iff.mp isKey)
    cases same
    rw [(agrees.held key id actions).mpr ⟨member, isEntry⟩] at isHeld
    cases isHeld

theorem Agrees.insert (absent : ledger.held key = none)
    (actions : A) :
    (t.insertBy bucketFor key actions).Agrees bucketFor (ledger.record (.insert key actions))
      (t.allocated :: ids) := by
  have own : (t.insertBy bucketFor key actions).entries t.allocated =
      some ⟨key, actions, 0, false⟩ := by simp [insertBy]
  have others : ∀ id ∈ ids, (t.insertBy bucketFor key actions).entries id = t.entries id :=
    fun id => agrees.chains.insert_entries actions
  have notFound : t.findBy bucketFor key = .ok none := by rw [agrees.findBy, absent]; rfl
  refine ⟨agrees.chains.insert actions notFound, ?_, ?_, ?_⟩
  · rw [Ledger.record, ← agrees.next]
    rfl
  · intro key' id actions'
    rw [Ledger.record, ← agrees.next, List.mem_cons]
    dsimp only
    by_cases isNew : id = t.allocated
    · -- No key of the map had the pointer that has just been allocated.
      subst isNew
      rw [own]
      by_cases same : key' = key
      · subst same
        simp
      · rw [Function.update_of_ne same, agrees.held]
        simp [agrees.chains.new, Ne.symm same]
    · by_cases same : key' = key
      · subst same
        rw [Function.update_self]
        constructor
        · intro isHeld
          cases isHeld
          exact absurd rfl isNew
        · rintro ⟨inside, isEntry⟩
          have member := inside.resolve_left isNew
          rw [others id member] at isEntry
          rw [(agrees.held key' id actions').mpr ⟨member, isEntry⟩] at absent
          cases absent
      · rw [Function.update_of_ne same, agrees.held]
        constructor
        · rintro ⟨member, isEntry⟩
          exact ⟨Or.inr member, (others id member).trans isEntry⟩
        · rintro ⟨inside, isEntry⟩
          have member := inside.resolve_left isNew
          exact ⟨member, (others id member).symm.trans isEntry⟩
  · intro id member
    rcases List.mem_cons.mp member with rfl | old
    · exact ⟨key, actions, own⟩
    · rw [others id old]
      exact agrees.fresh id old

theorem Agrees.remove {actions : A}
    (isHeld : ledger.held key = some (id, actions)) :
    ∃ t' ids', t.applyBy bucketFor (.remove id) = .ok t' ∧
      t'.Agrees bucketFor (ledger.record (.remove id)) ids' := by
  obtain ⟨member, isEntry⟩ := (agrees.held key id actions).mp isHeld
  obtain ⟨front, back, rfl⟩ := List.append_of_mem member
  have inside : ∀ other, other ∈ front ++ back ↔ other ∈ front ++ id :: back ∧ other ≠ id := by
    intro other
    obtain ⟨-, rest, apart⟩ := List.nodup_append.mp agrees.chains.distinct
    have notFront : id ∉ front := fun inFront => apart id inFront id List.mem_cons_self rfl
    have notBack := (List.nodup_cons.mp rest).1
    by_cases same : other = id
    · subst same
      simp [notFront, notBack]
    · simp [same]
  refine ⟨t.removeBy bucketFor id key, front ++ back, by rw [applyBy, isEntry],
    agrees.chains.remove (keyAt_of_entries isEntry), agrees.next, ?_, ?_⟩
  · intro key' other actions'
    have same : (t.removeBy bucketFor id key).entries = t.entries := rfl
    rw [Ledger.record, inside, same]
    dsimp only
    split
    · next taken =>
      obtain ⟨⟨first, acts⟩, isHeld', isFirst⟩ := Option.map_eq_some_iff.mp taken
      obtain rfl : first = id := isFirst
      have entry' := ((agrees.held key' first acts).mp isHeld').2
      refine iff_of_false (by rintro ⟨⟩) ?_
      rintro ⟨⟨member', different⟩, isEntry'⟩
      -- The map has one entry for the key, and it is the one taken out.
      rw [(agrees.held key' other actions').mpr ⟨member', isEntry'⟩] at isHeld'
      cases isHeld'
      exact different rfl
    · next kept =>
      rw [agrees.held]
      constructor
      · rintro ⟨member', isEntry'⟩
        refine ⟨⟨member', ?_⟩, isEntry'⟩
        rintro rfl
        apply kept
        rw [(agrees.held key' other actions').mpr ⟨member', isEntry'⟩]
        rfl
      · rintro ⟨⟨member', -⟩, isEntry'⟩
        exact ⟨member', isEntry'⟩
  · intro other member'
    exact agrees.fresh other ((inside other).mp member').1

theorem Agrees.clear :
    ∃ t', t.clear = .ok t' ∧ t'.Agrees bucketFor (ledger.record .clear) [] := by
  refine ⟨_, agrees.chains.clear, .nil rfl, agrees.next, ?_, nofun⟩
  intro key id actions
  simp [Ledger.record]

theorem Agrees.applyBy {op : MapOp A}
    (permitted : ledger.Permits op) :
    ∃ t' ids', t.applyBy bucketFor op = .ok t' ∧ t'.Agrees bucketFor (ledger.record op) ids' := by
  cases op with
  | insert key actions => exact ⟨_, _, rfl, agrees.insert permitted actions⟩
  | remove id =>
    obtain ⟨key, actions, isHeld⟩ := permitted
    exact agrees.remove isHeld
  | clear =>
    obtain ⟨t', cleared, agrees'⟩ := agrees.clear
    exact ⟨t', [], cleared, agrees'⟩

theorem Agrees.applyAllBy {ops : List (MapOp A)}
    (permitted : ledger.PermitsAll ops) :
    ∃ t' ids', t.applyAllBy bucketFor ops = .ok t' ∧
      t'.Agrees bucketFor (ledger.recordAll ops) ids' := by
  induction ops generalizing t ledger ids with
  | nil => exact ⟨t, ids, rfl, agrees⟩
  | cons op ops ih =>
    obtain ⟨t₁, ids₁, applied, agrees₁⟩ := agrees.applyBy permitted.1
    obtain ⟨t', ids', rest, agrees'⟩ := ih agrees₁ permitted.2
    refine ⟨t', ids', ?_, agrees'⟩
    rw [Table.applyAllBy, applied, Outcome.ok_bind, rest]

end

theorem new_agrees (desc : List FieldID) (actions : A) (timeout : Nat) :
    (new desc actions timeout).Agrees bucketFor Ledger.empty [] :=
  ⟨.nil rfl, rfl, fun key id actions => by simp [Ledger.empty], nofun⟩

theorem find_last_inserted (bucketFor : Key → UInt32) (desc : List FieldID) (default : A)
    (timeout : Nat) (ops : List (MapOp A)) (permitted : Ledger.empty.PermitsAll ops) :
    ∃ t, (new desc default timeout).applyAllBy bucketFor ops = .ok t ∧ ∀ key,
      t.findBy bucketFor key = .ok (((Ledger.empty.recordAll ops).held key).map Prod.fst) ∧
      ∀ id actions, (Ledger.empty.recordAll ops).held key = some (id, actions) →
        t.entries id = some ⟨key, actions, 0, false⟩ := by
  obtain ⟨t, ids, applied, agrees⟩ := (new_agrees desc default timeout).applyAllBy permitted
  refine ⟨t, applied, fun key => ⟨agrees.findBy key, ?_⟩⟩
  intro id actions isHeld
  exact ((agrees.held key id actions).mp isHeld).2

theorem find_last_inserted_collision :
    ∃ t, (new [] 0 0).applyAllBy (fun _ => 0)
        [.insert [1] 10, .insert [2] 20, .insert [3] 30, .remove 1] = .ok t ∧ ∀ key,
      t.findBy (fun _ => 0) key = .ok (((Ledger.empty.recordAll
        [.insert [1] 10, .insert [2] 20, .insert [3] 30, .remove 1]).held key).map Prod.fst) ∧
      ∀ id actions, (Ledger.empty.recordAll
          [.insert [1] 10, .insert [2] 20, .insert [3] 30, .remove 1]).held key =
            some (id, actions) →
        t.entries id = some ⟨key, actions, 0, false⟩ :=
  find_last_inserted (fun _ => 0) [] 0 0 _ ⟨rfl, rfl, rfl, ⟨[2], 20, rfl⟩, trivial⟩

end Table

end Lemming.Exact

import Lemming.Exact.Table

set_option autoImplicit false

namespace Lemming.Exact

open Packet Shared

variable {A : Type}

namespace Table

variable {t t' : Table A} {ids stales : List Nat} {id : Nat} {l : StaleList} {entry : Entry A}

structure Alike (t t' : Table A) : Prop where
  desc : t'.desc = t.desc
  hash : t'.hash = t.hash
  hashLinks : t'.hashLinks = t.hashLinks
  allocated : t'.allocated = t.allocated
  content : ∀ id, t'.contentAt id = t.contentAt id

theorem Alike.refl (t : Table A) : Alike t t :=
  ⟨rfl, rfl, rfl, rfl, fun _ => rfl⟩

theorem Alike.trans {t'' : Table A} (first : Alike t t') (second : Alike t' t'') : Alike t t'' :=
  ⟨second.desc.trans first.desc, second.hash.trans first.hash,
    second.hashLinks.trans first.hashLinks, second.allocated.trans first.allocated,
    fun id => (second.content id).trans (first.content id)⟩

theorem Chains.alike (chains : t.Chains ids) (alike : Alike t t') : t'.Chains ids :=
  chains.transfer alike.hash alike.hashLinks alike.allocated fun id => by
    rw [keyAt, alike.content, keyAt]

theorem isTransient_iff : t.isTransient id = true ↔ ∃ key actions, t.contentAt id = some (key, actions, true) := by
  unfold isTransient contentAt
  cases t.entries id with
  | none => simp
  | some entry => simp

theorem Alike.isTransient (alike : Alike t t') (id : Nat) :
    t'.isTransient id = true ↔ t.isTransient id = true := by
  rw [isTransient_iff, isTransient_iff, alike.content]

theorem staleRemove_alike (l : StaleList) (id : Nat) : Alike t (t.staleRemove l id) :=
  ⟨rfl, rfl, rfl, rfl, fun _ => rfl⟩

theorem Ages.staleRemove {front back : List Nat} (ages : t.Ages (front ++ id :: back))
    (isStale : t.stale = some l) : (t.staleRemove l id).Ages (front ++ back) := by
  have listed := ages.listed l isStale
  have own := Links.unlink_self listed.linked ages.distinct
  have subset : (front ++ back).Sublist (front ++ id :: back) :=
    (List.Sublist.refl front).append (List.sublist_cons_self id back)
  refine ⟨subset.nodup ages.distinct, ?_, nofun⟩
  intro l' isStale'
  cases isStale'
  have unlinked := listed.unlink ages.distinct
  rw [← own.1, ← own.2] at unlinked
  exact unlinked

theorem Ages.staleAdd (ages : t.Ages stales) (isStale : t.stale = some l) (fresh : id ∉ stales)
    (now : Int) :
    (t.staleAdd l id now).Yields fun t' => t'.Ages (stales ++ [id]) ∧ Alike t t' := by
  have listed := ages.listed l isStale
  have pushed := listed.pushBack ages.distinct fresh
  have distinct : (stales ++ [id]).Nodup :=
    List.nodup_append.mpr ⟨ages.distinct, List.nodup_singleton id, fun a member b isId same =>
      fresh (List.mem_singleton.mp isId ▸ same ▸ member)⟩
  have content : ∀ other, (t.modify id fun entry => { entry with
      staleTime := now + l.timeout }).contentAt other = t.contentAt other := by
    intro other
    by_cases same : other = id
    · subst same
      rw [contentAt, modify_same, contentAt]
      cases t.entries other <;> rfl
    · rw [contentAt, modify_other t same, contentAt]
  unfold Table.staleAdd
  dsimp only
  rw [listed.head_eq, listed.tail_eq]
  cases stales with
  | nil =>
    refine .pure ⟨⟨distinct, ?_, by rintro ⟨⟩⟩, rfl, rfl, rfl, rfl, content⟩
    intro l' isStale'
    cases isStale'
    exact pushed
  | cons first rest =>
    have last := List.getLast?_eq_some_getLast (List.cons_ne_nil first rest)
    rw [last]
    refine .pure ⟨⟨distinct, ?_, by rintro ⟨⟩⟩, rfl, rfl, rfl, rfl, content⟩
    intro l' isStale'
    cases isStale'
    rw [Links.setLastNext, last] at pushed
    exact ⟨pushed.linked, rfl, pushed.tail_eq⟩

def due (t : Table A) (id : Nat) : Int := ((t.entries id).map Entry.staleTime).getD 0

def timeout (t : Table A) : Int := (t.stale.map StaleList.timeout).getD 0

theorem staleAdd_keeps {now : Int} (added : t.staleAdd l id now = .ok t') :
    t'.entries = Function.update t.entries id
        ((t.entries id).map fun entry => { entry with staleTime := now + l.timeout }) ∧
      t'.stale.map StaleList.timeout = some l.timeout := by
  unfold staleAdd at added
  dsimp only at added
  split at added
  all_goals cases added
  all_goals exact ⟨rfl, rfl⟩

structure Consistent (t : Table A) (ids stales : List Nat) : Prop where
  chains : t.Chains ids
  ages : t.Ages stales
  held : stales ⊆ ids
  flags : ∀ id ∈ ids, t.isTransient id = true ↔ id ∈ stales

theorem new_consistent (desc : List FieldID) (actions : A) (timeout : Nat) :
    (new desc actions timeout).Consistent [] [] := by
  refine ⟨.nil rfl, ⟨.nil, ?_, fun _ => rfl⟩, nofun, nofun⟩
  intro l isStale
  unfold new at isStale
  dsimp only at isStale
  split at isStale
  · cases isStale
  · cases isStale
    exact Listed.nil _

theorem Ages.staleUse {front back : List Nat} (ages : t.Ages (front ++ id :: back))
    (isStale : t.stale = some l) (now : Int) :
    (t.staleUse l id now).Yields fun t' => t'.Ages (front ++ back ++ [id]) ∧ Alike t t' := by
  have fresh : id ∉ front ++ back := by
    obtain ⟨-, rest, apart⟩ := List.nodup_append.mp ages.distinct
    rw [List.mem_append, not_or]
    exact ⟨fun member => apart id member id List.mem_cons_self rfl, (List.nodup_cons.mp rest).1⟩
  apply ((ages.staleRemove isStale).staleAdd rfl fresh now).imp
  intro t' ⟨ages', alike⟩
  exact ⟨ages', (staleRemove_alike l id).trans alike⟩

theorem Consistent.alike (consistent : t.Consistent ids stales) (alike : Alike t t')
    {stales' : List Nat} (ages : t'.Ages stales') (same : ∀ id, id ∈ stales' ↔ id ∈ stales) :
    t'.Consistent ids stales' where
  chains := consistent.chains.alike alike
  ages := ages
  held := fun id member => consistent.held ((same id).mp member)
  flags := fun id member => by
    rw [alike.isTransient, consistent.flags id member, same]

theorem Ages.erase_eq {front back : List Nat} (ages : t.Ages (front ++ id :: back)) :
    (front ++ id :: back).erase id = front ++ back := by
  obtain ⟨-, -, apart⟩ := List.nodup_append.mp ages.distinct
  have notFront : id ∉ front := fun inFront => apart id inFront id List.mem_cons_self rfl
  rw [List.erase_append_right _ notFront, List.erase_cons_head]

-- The entry is at the end of the stale list, with the time that it got now.
structure Renewed (t t' : Table A) (ids stales : List Nat) (id : Nat) (entry : Entry A)
    (now timeout : Int) : Prop where
  consistent : t'.Consistent ids (stales.erase id ++ [id])
  desc : t'.desc = t.desc
  before : t.stale.map StaleList.timeout = some timeout
  timed : t'.stale.map StaleList.timeout = some timeout
  entries : t'.entries = Function.update t.entries id
    (some { entry with transient := true, staleTime := now + timeout })

section

variable (consistent : t.Consistent ids stales)
include consistent

theorem Consistent.renew (isStale : t.stale = some l) (member : id ∈ ids)
    (isEntry : t.entries id = some entry) (transient : entry.transient = true) (now : Int) :
    (t.staleUse l id now).Yields fun t' => t.Renewed t' ids stales id entry now l.timeout := by
  have listed : id ∈ stales := by
    rw [← consistent.flags id member, isTransient_of_entries isEntry, transient]
  obtain ⟨front, back, rfl⟩ := List.append_of_mem listed
  obtain ⟨t', used, ages, alike⟩ := consistent.ages.staleUse isStale now
  have added : (t.staleRemove l id).staleAdd _ id now = .ok t' := used
  obtain ⟨entries, timed⟩ := staleAdd_keeps added
  refine ⟨t', used, ?_, alike.desc, by rw [isStale]; rfl, timed, ?_⟩
  · rw [consistent.ages.erase_eq]
    apply consistent.alike alike ages
    intro other
    simp only [List.mem_append, List.mem_cons]
    tauto
  · have isEntry' : (t.staleRemove l id).entries id = some entry := isEntry
    rw [entries, isEntry', ← transient]
    rfl

theorem Consistent.unlist_erase (member : id ∈ ids)
    (isStale : t.stale = some l) :
    ∃ t' l', (if t.isTransient id then t.staleRemove l id else t) = t' ∧
      t'.stale = some l' ∧ l'.timeout = l.timeout ∧ Alike t t' ∧ t'.entries = t.entries ∧
      t'.Ages (stales.erase id) := by
  have flag := consistent.flags id member
  split
  · next transient =>
    obtain ⟨front, back, rfl⟩ := List.append_of_mem (flag.mp transient)
    rw [consistent.ages.erase_eq]
    exact ⟨_, _, rfl, rfl, rfl, staleRemove_alike l id, rfl,
      consistent.ages.staleRemove isStale⟩
  · next static =>
    rw [List.erase_of_not_mem (mt flag.mpr static)]
    exact ⟨t, l, rfl, isStale, rfl, .refl t, rfl, consistent.ages⟩

end

theorem relist_unaged (isStale : t.stale = none) (transient : Bool) (now : Int) :
    t.relist id transient now = .ok t := by
  rw [relist, isStale]

theorem relist_static (static : t.isTransient id = false) (now : Int) :
    t.relist id false now = .ok t := by
  unfold relist
  rw [static]
  cases t.stale <;> rfl

theorem Consistent.relist_transient (consistent : t.Consistent ids stales) (member : id ∈ ids)
    (isStale : t.stale = some l) (isEntry : t.entries id = some entry) (now : Int) :
    (t.relist id true now).Yields fun t' => t.Renewed t' ids stales id entry now l.timeout := by
  obtain ⟨t₁, l₁, isTable, isStale₁, timeout, alike, entries, ages⟩ :=
    consistent.unlist_erase member isStale
  have fresh : id ∉ stales.erase id := consistent.ages.distinct.not_mem_erase
  unfold Table.relist
  rw [isStale]
  dsimp only
  rw [isTable, if_pos rfl]
  set t₂ := t₁.modify id fun entry => { entry with transient := true } with isTable₂
  have isStale₂ : t₂.stale = some l₁ := isStale₁
  have ages₂ : t₂.Ages (stales.erase id) := ages.transfer rfl rfl
  have entries₂ : t₂.entries =
      Function.update t.entries id (some { entry with transient := true }) := by
    rw [isTable₂, modify, entries, isEntry]
    rfl
  rw [isStale₂]
  obtain ⟨t₃, added, ages₃, alike₃⟩ := ages₂.staleAdd isStale₂ fresh now
  obtain ⟨entries₃, timeout₃⟩ := staleAdd_keeps added
  have final : t₃.entries = Function.update t.entries id
      (some { entry with transient := true, staleTime := now + l.timeout }) := by
    rw [entries₃, entries₂, Function.update_self, Function.update_idem, timeout]
    rfl
  have chains₂ : t₂.Chains ids := (consistent.chains.alike alike).modify id fun _ => rfl
  refine ⟨t₃, added, ⟨chains₂.alike alike₃, ages₃, ?_, ?_⟩, alike₃.desc.trans alike.desc,
    by rw [isStale]; rfl, timeout ▸ timeout₃, final⟩
  · intro other inside
    rcases List.mem_append.mp inside with old | new
    · exact consistent.held (List.mem_of_mem_erase old)
    · rw [List.mem_singleton.mp new]
      exact member
  · intro other inside
    rw [List.mem_append, List.mem_singleton, isTransient, final]
    by_cases same : other = id
    · subst same
      simp
    · rw [Function.update_of_ne same, List.mem_erase_of_ne same, ← consistent.flags other inside]
      simp [isTransient, same]

theorem Consistent.relist (consistent : t.Consistent ids stales) (member : id ∈ ids)
    (isEntry : t.entries id = some entry) {transient : Bool}
    (safe : transient = false → entry.transient = false) (now : Int) :
    (t.relist id transient now).Yields fun t' =>
      t' = t ∧ (transient = true → t.stale = none) ∨
        transient = true ∧ ∃ timeout, t.Renewed t' ids stales id entry now timeout := by
  cases isStale : t.stale with
  | none =>
    rw [relist_unaged isStale]
    exact .pure (.inl ⟨rfl, fun _ => rfl⟩)
  | some l =>
    cases transient with
    | false =>
      have static : t.isTransient id = false := by
        rw [isTransient_of_entries isEntry, safe rfl]
      rw [relist_static static]
      exact .pure (.inl ⟨rfl, by rintro ⟨⟩⟩)
    | true =>
      apply (consistent.relist_transient member isStale isEntry now).imp
      intro t' renewed
      exact .inr ⟨rfl, l.timeout, renewed⟩

end Table

end Lemming.Exact

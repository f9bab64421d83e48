import Lemming.Exact.Aging

set_option autoImplicit false

namespace Lemming.Exact

open Packet Shared

variable {A : Type}

namespace Table

variable {t t' : Table A} {ids stales : List Nat} {id : Nat} {l : StaleList} {key : Key}

def Sound (t : Table A) : Prop := ∃ ids stales, t.Consistent ids stales

def Keeps (t t' : Table A) (key : Key) : Prop :=
  ∀ actions, t.view key = some (actions, false) → t'.view key = some (actions, false)

theorem Keeps.refl (t : Table A) (key : Key) : Keeps t t key := fun _ isView => isView

theorem Chains.keeps {ids' : List Nat} (chains : t.Chains ids) (chains' : t'.Chains ids')
    (same : ∀ id ∈ ids, ∀ actions, t.contentAt id = some (key, actions, false) →
      id ∈ ids' ∧ t'.contentAt id = t.contentAt id) : Keeps t t' key := by
  intro actions isView
  obtain ⟨id, member, isContent⟩ := chains.view_iff.mp isView
  obtain ⟨member', content⟩ := same id member actions isContent
  exact chains'.view_iff.mpr ⟨id, member', content.trans isContent⟩

theorem Keeps.of_transient (noStatic : (t.view key).map Prod.snd ≠ some false) : Keeps t t' key := by
  intro actions isView
  rw [isView] at noStatic
  exact absurd rfl noStatic

structure Found (t : Table A) (ids : List Nat) (id : Nat) (entry : Entry A) : Prop where
  found : t.find entry.key = .ok (some id)
  isEntry : t.entries id = some entry
  member : id ∈ ids
  view : t.view entry.key = some (entry.actions, entry.transient)
  apart : ∀ other ∈ ids, other ≠ id → t.keyAt other ≠ some entry.key

-- An entry has been put into the table, or another in its place; the stale list is as it was.
structure Placed (t t' : Table A) (ids stales : List Nat) (id : Nat) (entry : Entry A) : Prop where
  consistent : t'.Consistent (ids.insert id) stales
  desc : t'.desc = t.desc
  stale : t'.stale = t.stale
  own : t'.entries id = some entry
  others : ∀ other ∈ ids, other ≠ id → t'.entries other = t.entries other
  key : id ∈ ids → t.keyAt id = some entry.key
  due : id ∈ stales → t.due id = entry.staleTime
  apart : ∀ other ∈ ids, other ≠ id → t.keyAt other ≠ some entry.key

-- An entry has been taken out of the table and of the stale list.
structure Removed (t t' : Table A) (ids stales : List Nat) (id : Nat) : Prop where
  consistent : t'.Consistent (ids.erase id) (stales.erase id)
  desc : t'.desc = t.desc
  entries : t'.entries = t.entries
  timed : t'.stale.map StaleList.timeout = t.stale.map StaleList.timeout

section

variable (consistent : t.Consistent ids stales)
include consistent

theorem Consistent.find_cases (key : Key) : t.find key = .ok none ∨
    ∃ id entry, entry.key = key ∧ t.Found ids id entry := by
  cases isFound : ids.find? (t.hasKey key) with
  | none => exact .inl (by rw [consistent.chains.find_eq, isFound])
  | some id =>
    have found : t.find key = .ok (some id) := by rw [consistent.chains.find_eq, isFound]
    obtain ⟨member, isKey⟩ := consistent.chains.find_iff.mp found
    obtain ⟨entry, isEntry⟩ := consistent.chains.entry member
    obtain rfl : entry.key = key := Option.some.inj ((keyAt_of_entries isEntry).symm.trans isKey)
    refine .inr ⟨id, entry, rfl, found, isEntry, member, ?_, ?_⟩
    · exact consistent.chains.view_iff.mpr ⟨id, member, contentAt_of_entries isEntry⟩
    · intro other member' different isKey'
      exact different (consistent.chains.keys other member' id member (isKey'.trans isKey.symm))

theorem Consistent.insert (actions : A) (absent : t.find key = .ok none) :
    t.Placed (t.insert key actions) ids stales t.allocated ⟨key, actions, 0, false⟩ := by
  have new := consistent.chains.new
  have own : (t.insert key actions).entries t.allocated = some ⟨key, actions, 0, false⟩ := by
    simp [Table.insert, insertBy]
  have others : ∀ other ∈ ids, (t.insert key actions).entries other = t.entries other :=
    fun other member => consistent.chains.insert_entries actions member
  refine ⟨?_, rfl, rfl, own, fun other member _ => others other member, fun old => absurd old new,
    fun listed => absurd (consistent.held listed) new, ?_⟩
  · rw [List.insert_of_not_mem new]
    refine ⟨consistent.chains.insert actions absent, consistent.ages.transfer rfl rfl, ?_, ?_⟩
    · exact fun other member => List.mem_cons_of_mem _ (consistent.held member)
    · intro other member
      rcases List.mem_cons.mp member with rfl | old
      · rw [isTransient_of_entries own]
        exact iff_of_false (by simp) fun listed => new (consistent.held listed)
      · rw [isTransient, others other old, ← isTransient, consistent.flags other old]
  · intro other member _ isKey
    rw [consistent.chains.find_iff.mpr ⟨member, isKey⟩] at absent
    cases absent

theorem Consistent.setActions {entry : Entry A} (found : t.Found ids id entry) (actions : A) :
    t.Placed (t.modify id fun entry => { entry with actions }) ids stales id
      { entry with actions } := by
  have own : (t.modify id fun entry => { entry with actions }).entries id =
      some { entry with actions } := by
    rw [modify_same, found.isEntry]
    rfl
  have isKey := keyAt_of_entries found.isEntry
  refine ⟨?_, rfl, rfl, own, fun other _ different => modify_other t different _, fun _ => isKey,
    fun _ => ?_, found.apart⟩
  · rw [List.insert_of_mem found.member]
    refine ⟨consistent.chains.modify id fun _ => rfl, consistent.ages.transfer rfl rfl,
      consistent.held, fun other member => ?_⟩
    rw [← consistent.flags other member]
    by_cases same : other = id
    · subst same
      rw [isTransient_of_entries own, isTransient_of_entries found.isEntry]
    · rw [isTransient, modify_other t same, isTransient]
  · rw [Table.due, found.isEntry]
    rfl

theorem Consistent.drop (member : id ∈ ids) (isKey : t.keyAt id = some key) (alike : Alike t t')
    (entries : t'.entries = t.entries)
    (timed : t'.stale.map StaleList.timeout = t.stale.map StaleList.timeout)
    (ages : t'.Ages (stales.erase id)) : t.Removed (t'.remove id key) ids stales id := by
  have chains : (t'.remove id key).Chains (ids.erase id) := by
    obtain ⟨front, back, rfl⟩ := List.append_of_mem member
    obtain ⟨-, -, apart⟩ := List.nodup_append.mp consistent.chains.distinct
    have notFront : id ∉ front := fun inFront => apart id inFront id List.mem_cons_self rfl
    rw [List.erase_append_right _ notFront, List.erase_cons_head]
    apply (consistent.chains.alike alike).remove
    rw [keyAt, alike.content, ← keyAt, isKey]
  refine ⟨⟨chains, ages.transfer rfl rfl, ?_, ?_⟩, alike.desc, entries, timed⟩
  · intro other listed
    obtain ⟨different, old⟩ := consistent.ages.distinct.mem_erase_iff.mp listed
    exact (List.mem_erase_of_ne different).mpr (consistent.held old)
  · intro other member'
    obtain ⟨different, inside⟩ := consistent.chains.distinct.mem_erase_iff.mp member'
    have same : (t'.remove id key).isTransient other = t.isTransient other := by
      rw [isTransient, isTransient, ← entries]
      rfl
    rw [same, List.mem_erase_of_ne different]
    exact consistent.flags other inside

end

structure Puts (t t' : Table A) (key : Key) (actions : A) (transient : Bool) : Prop where
  sound : t'.Sound
  desc : t'.desc = t.desc
  others : ∀ other, other ≠ key → Keeps t t' other
  kept : transient = true → Keeps t t' key
  added : transient = false → t'.view key = some (actions, false)

theorem Puts.keeps {actions : A} (puts : Puts t t' key actions true) (other : Key) :
    Keeps t t' other := by
  by_cases same : other = key
  · rw [same]
    exact puts.kept rfl
  · exact puts.others other same

section

variable (consistent : t.Consistent ids stales) {entry : Entry A}
include consistent

theorem Consistent.settle {t₁ : Table A} (placed : t.Placed t₁ ids stales id entry) {transient : Bool}
    (safe : transient = false → entry.transient = false)
    (unguarded : transient = true → (t.view entry.key).map Prod.snd ≠ some false) (now : Int) :
    (t₁.relist id transient now).Yields fun t' =>
      Puts t t' entry.key entry.actions transient := by
  have member : id ∈ ids.insert id := List.mem_insert_self
  apply (placed.consistent.relist member placed.own safe now).imp
  intro t' relisted
  obtain ⟨stales', flag, time, consistent', desc, entries, isFlag⟩ : ∃ stales' flag time,
      t'.Consistent (ids.insert id) stales' ∧ t'.desc = t.desc ∧
      t'.entries = Function.update t₁.entries id (some ⟨entry.key, entry.actions, time, flag⟩) ∧
      (transient = false → flag = false) := by
    rcases relisted with ⟨rfl, -⟩ | ⟨rfl, timeout, renewed⟩
    · refine ⟨stales, _, entry.staleTime, placed.consistent, placed.desc, ?_, safe⟩
      exact (Function.update_eq_self_iff.mpr placed.own.symm).symm
    · exact ⟨_, _, _, renewed.consistent, renewed.desc.trans placed.desc, renewed.entries,
        by rintro ⟨⟩⟩
  refine ⟨⟨_, _, consistent'⟩, desc, ?_, fun learned => .of_transient (unguarded learned), ?_⟩
  · intro other different
    apply consistent.chains.keeps consistent'.chains
    intro id' member' _ isContent
    have apart : id' ≠ id := by
      rintro rfl
      have isKey := placed.key member'
      rw [keyAt, isContent] at isKey
      exact different (Option.some.inj isKey)
    refine ⟨List.mem_insert_of_mem member', ?_⟩
    rw [contentAt, entries, Function.update_of_ne apart, placed.others id' member' apart, contentAt]
  · intro isStatic
    refine consistent'.chains.view_iff.mpr ⟨id, member, ?_⟩
    rw [contentAt, entries, Function.update_self, isFlag isStatic]
    rfl

theorem Removed.keeps (removed : t.Removed t' ids stales id) (isKey : t.keyAt id = some key)
    {other : Key} (different : other ≠ key) : Keeps t t' other := by
  apply consistent.chains.keeps removed.consistent.chains
  intro id' member' _ isContent'
  refine ⟨(List.mem_erase_of_ne ?_).mpr member', by rw [contentAt, removed.entries, contentAt]⟩
  rintro rfl
  rw [keyAt, isContent'] at isKey
  exact different (Option.some.inj isKey)

theorem Renewed.keeps {now timeout : Int} (renewed : t.Renewed t' ids stales id entry now timeout)
    (isEntry : t.entries id = some entry) (transient : entry.transient = true) (key : Key) :
    Keeps t t' key := by
  apply consistent.chains.keeps renewed.consistent.chains
  intro id' member' _ _
  refine ⟨member', ?_⟩
  by_cases same : id' = id
  · subst same
    rw [contentAt_of_entries isEntry, contentAt, renewed.entries, Function.update_self, transient]
    rfl
  · rw [contentAt, renewed.entries, Function.update_of_ne same, contentAt]

end

section Calls

variable (env : Env A)

inductive Adding (t : Table A) (ids stales : List Nat) (now : Int) :
    Option ExactEntryDesc → Except String A → Outcome (Table A × Option String) → Prop
  | failed (ed : Option ExactEntryDesc) (actions : Except String A) (err : String) :
    Adding t ids stales now ed actions (.ok (t, some err))
  | kept {ex : ExactEntryDesc} {id : Nat} {entry : Entry A} (acts : A) (found : t.Found ids id entry)
    (isKey : newExactKey env t.desc ex.fields = .ok entry.key) (learned : ex.transient = true)
    (static : entry.transient = false) :
    Adding t ids stales now (some ex) (.ok acts) (.ok (t, none))
  | placed {ex : ExactEntryDesc} {id : Nat} {entry : Entry A} {t' : Table A}
    (placed : t.Placed t' ids stales id entry)
    (isKey : newExactKey env t.desc ex.fields = .ok entry.key)
    (flag : entry.transient = true → (t.view entry.key).map Prod.snd = some true)
    (unguarded : ex.transient = true → (t.view entry.key).map Prod.snd ≠ some false) :
    Adding t ids stales now (some ex) (.ok entry.actions) (do
      let t ← t'.relist id ex.transient now
      return (t, none))

theorem Consistent.adding (consistent : t.Consistent ids stales) (ed : Option ExactEntryDesc)
    (actions : Except String A) (now : Int) :
    Adding env t ids stales now ed actions (t.addEntry env ed actions now) := by
  unfold addEntry
  cases ed with
  | none => exact .failed none actions _
  | some ex =>
    dsimp only
    cases isKey : newExactKey env t.desc ex.fields with
    | error err => exact .failed (some ex) actions _
    | ok key =>
      cases actions with
      | error err => exact .failed (some ex) _ _
      | ok acts =>
        dsimp only
        rcases consistent.find_cases key with absent | ⟨id, entry, rfl, found⟩
        · rw [absent, Outcome.ok_bind]
          refine .placed (consistent.insert acts absent) isKey (by rintro ⟨⟩) fun _ => ?_
          rw [view, absent]
          nofun
        · rw [found.found, Outcome.ok_bind]
          dsimp only
          rw [found.isEntry]
          dsimp only
          split
          · next guarded =>
            rw [Bool.and_eq_true, Bool.not_eq_true'] at guarded
            split
            · exact .kept acts found isKey guarded.1 guarded.2
            · exact .failed (some ex) (.ok acts) _
          · next unguarded =>
            rw [Bool.and_eq_true, Bool.not_eq_true', not_and, Bool.not_eq_false] at unguarded
            refine .placed (consistent.setActions found acts) isKey ?_ ?_
            · intro flag
              rw [found.view]
              exact congrArg some flag
            · intro learned
              rw [found.view, unguarded learned]
              nofun

inductive Removing (t : Table A) (ids stales : List Nat) :
    Option ExactEntryDesc → Outcome (Table A × Option String) → Prop
  | failed (ed : Option ExactEntryDesc) (err : String) :
    Removing t ids stales ed (.ok (t, some err))
  | removed {ex : ExactEntryDesc} {id : Nat} {entry : Entry A} {t' : Table A}
    (found : t.Found ids id entry) (isKey : newExactKey env t.desc ex.fields = .ok entry.key)
    (removed : t.Removed t' ids stales id) : Removing t ids stales (some ex) (.ok (t', none))

theorem Consistent.removing (consistent : t.Consistent ids stales) (ed : Option ExactEntryDesc) :
    Removing env t ids stales ed (t.removeEntry env ed) := by
  unfold removeEntry
  cases ed with
  | none => exact .failed none _
  | some ex =>
    dsimp only
    cases isKey : newExactKey env t.desc ex.fields with
    | error err => exact .failed (some ex) _
    | ok key =>
      dsimp only
      rcases consistent.find_cases key with absent | ⟨id, entry, rfl, found⟩
      · rw [absent]
        exact .failed (some ex) _
      · rw [found.found, Outcome.ok_bind]
        have isKeyAt := keyAt_of_entries found.isEntry
        cases isStale : t.stale with
        | none =>
          obtain rfl := consistent.ages.unused isStale
          exact .removed found isKey (consistent.drop found.member isKeyAt (.refl t) rfl rfl consistent.ages)
        | some l =>
          obtain ⟨t', l', isTable, isStale', timeout, alike, entries, ages⟩ :=
            consistent.unlist_erase found.member isStale
          dsimp only
          rw [isTable]
          refine .removed found isKey (consistent.drop found.member isKeyAt alike entries ?_ ages)
          rw [isStale', isStale, Option.map_some, timeout, Option.map_some]

inductive Processing (t : Table A) (ids stales : List Nat) (packet : FieldID → Option Bytes)
    (now : Int) : Outcome (Table A × A) → Prop
  | miss (absent : t.find (makePacketKey env t.desc packet) = .ok none) :
    Processing t ids stales packet now (.ok (t, t.actions))
  | hit {id : Nat} {entry : Entry A} (found : t.Found ids id entry)
    (static : t.stale = none ∨ entry.transient = false) :
    Processing t ids stales packet now (.ok (t, entry.actions))
  | use {id : Nat} {entry : Entry A} {t' : Table A} {timeout : Int} (found : t.Found ids id entry)
    (isKey : entry.key = makePacketKey env t.desc packet) (transient : entry.transient = true)
    (renewed : t.Renewed t' ids stales id entry now timeout) :
    Processing t ids stales packet now (.ok (t', entry.actions))

theorem Consistent.processing (consistent : t.Consistent ids stales)
    (packet : FieldID → Option Bytes) (now : Int) :
    Processing env t ids stales packet now (t.process env packet now) := by
  unfold process
  rcases consistent.find_cases (makePacketKey env t.desc packet) with
    absent | ⟨id, entry, isKey, found⟩
  · rw [absent, Outcome.ok_bind]
    exact .miss absent
  · rw [← isKey, found.found, Outcome.ok_bind]
    dsimp only
    rw [found.isEntry]
    dsimp only
    cases isStale : t.stale with
    | none => exact .hit found (.inl isStale)
    | some l =>
      dsimp only
      split
      · next transient =>
        obtain ⟨t', used, renewed⟩ :=
          consistent.renew isStale found.member found.isEntry transient now
        rw [used]
        exact .use found isKey transient renewed
      · next static => exact .hit found (.inr (Bool.eq_false_iff.mpr static))

variable (ed : Option ExactEntryDesc)

def Vacant (t : Table A) (actions : Except String A) : Prop :=
  ∀ ex key acts, ed = some ex → newExactKey env t.desc ex.fields = .ok key → actions = .ok acts →
    ex.transient = false → (t.view key).map Prod.snd ≠ some true

theorem vacant_learned (fields : List (FieldID × Bytes)) (actions : Except String A) :
    Vacant env (some ⟨fields, true⟩) t actions := by
  rintro ex key acts ⟨⟩ _ _ ⟨⟩

theorem Adding.safe {ex : ExactEntryDesc} {entry : Entry A}
    (vacant : Vacant env (some ex) t (.ok entry.actions))
    (isKey : newExactKey env t.desc ex.fields = .ok entry.key)
    (flag : entry.transient = true → (t.view entry.key).map Prod.snd = some true)
    (isStatic : ex.transient = false) : entry.transient = false := by
  have free := vacant ex entry.key entry.actions rfl isKey rfl isStatic
  exact Bool.eq_false_iff.mpr fun isTransient => free (flag isTransient)

theorem addEntry_spec (sound : t.Sound) {actions : Except String A}
    (vacant : Vacant env ed t actions) (now : Int) :
    (t.addEntry env ed actions now).Yields fun s =>
      (s.2 ≠ none ∧ s.1 = t) ∨ s.2 = none ∧ ∃ ex key acts, ed = some ex ∧
        newExactKey env t.desc ex.fields = .ok key ∧ actions = .ok acts ∧
        Puts t s.1 key acts ex.transient := by
  obtain ⟨ids, stales, consistent⟩ := id sound
  have way := consistent.adding env ed actions now
  generalize t.addEntry env ed actions now = outcome at way ⊢
  cases way with
  | failed _ _ err => exact .pure (.inl ⟨by rintro ⟨⟩, rfl⟩)
  | @kept ex id entry acts found isKey learned static =>
    refine .pure (.inr ⟨rfl, ex, entry.key, acts, rfl, isKey, rfl, sound, rfl,
      fun other _ => .refl t other, fun _ => .refl t _, fun isStatic => ?_⟩)
    cases learned.symm.trans isStatic
  | @placed ex id entry t₁ placed isKey flag unguarded =>
    have safe := Adding.safe env vacant isKey flag
    apply (consistent.settle placed safe unguarded now).bind
    intro t' puts
    exact .pure (.inr ⟨rfl, ex, _, _, rfl, isKey, rfl, puts⟩)

theorem removeEntry_spec (sound : t.Sound) :
    (t.removeEntry env ed).Yields fun s =>
      (s.2 ≠ none ∧ s.1 = t) ∨ s.2 = none ∧ ∃ ex key, ed = some ex ∧
        newExactKey env t.desc ex.fields = .ok key ∧ s.1.Sound ∧ s.1.desc = t.desc ∧
        ∀ other, other ≠ key → Keeps t s.1 other := by
  obtain ⟨ids, stales, consistent⟩ := sound
  have way := consistent.removing env ed
  generalize t.removeEntry env ed = outcome at way ⊢
  cases way with
  | failed _ err => exact .pure (.inl ⟨by rintro ⟨⟩, rfl⟩)
  | @removed ex id entry t' found isKey removed =>
    refine .pure (.inr ⟨rfl, ex, _, rfl, isKey, ⟨_, _, removed.consistent⟩, removed.desc, ?_⟩)
    intro other different
    exact removed.keeps consistent (keyAt_of_entries found.isEntry) different

theorem process_spec (sound : t.Sound) (packet : FieldID → Option Bytes) (now : Int) :
    (t.process env packet now).Yields fun s =>
      s.1.Sound ∧ s.1.desc = t.desc ∧ ∀ key, Keeps t s.1 key := by
  obtain ⟨ids, stales, consistent⟩ := id sound
  have way := consistent.processing env packet now
  generalize t.process env packet now = outcome at way ⊢
  cases way with
  | miss | hit => exact .pure ⟨sound, rfl, Keeps.refl t⟩
  | use found isKey transient renewed =>
    refine .pure ⟨⟨ids, _, renewed.consistent⟩, renewed.desc, fun key => ?_⟩
    exact renewed.keeps consistent found.isEntry transient key

end Calls

theorem Consistent.idle (consistent : t.Consistent ids stales)
    (idle : t.stale.bind StaleList.head = none) : stales = [] := by
  cases isStale : t.stale with
  | none => exact consistent.ages.unused isStale
  | some l =>
    rw [isStale, Option.bind_some, (consistent.ages.listed l isStale).head_eq] at idle
    exact List.head?_eq_none_iff.mp idle

theorem clear_spec (sound : t.Sound) (idle : t.stale.bind StaleList.head = none) :
    t.clear.Yields fun t' => t'.Sound ∧ t'.desc = t.desc := by
  obtain ⟨ids, stales, consistent⟩ := sound
  obtain rfl := consistent.idle idle
  rw [consistent.chains.clear]
  exact .pure ⟨⟨[], [], .nil rfl, consistent.ages.transfer rfl rfl, nofun, nofun⟩, rfl⟩

-- What a pass of the aging loop leaves: it takes stale entries off the front of the stale list, up to
-- the first that is not stale.
def Aged (t : Table A) (ids stales : List Nat) (now : Int) (t' : Table A) : Prop :=
  ∃ ids' gone stales', stales = gone ++ stales' ∧
    t'.Consistent ids' stales' ∧ (∀ id, id ∈ ids' ↔ id ∈ ids ∧ id ∉ gone) ∧
    (∀ id ∈ gone, t.due id < now) ∧ (∀ id ∈ stales'.head?, now ≤ t.due id) ∧
    t'.entries = t.entries ∧ t'.desc = t.desc ∧
    t'.stale.map StaleList.timeout = t.stale.map StaleList.timeout

theorem ageLoop_effect (now : Int) {fuel : Nat} (consistent : t.Consistent ids stales)
    (enough : stales.length < fuel) :
    (ageLoop now fuel t).Yields (t.Aged ids stales now) := by
  induction fuel generalizing t ids stales with
  | zero => exact absurd enough (Nat.not_lt_zero _)
  | succ fuel ih =>
    unfold ageLoop
    cases isStale : t.stale with
    | none =>
      have unlisted := consistent.ages.unused isStale
      subst unlisted
      exact .pure ⟨ids, [], [], rfl, consistent, by simp, by simp, by simp, rfl, rfl,
        by rw [isStale]⟩
    | some l =>
      dsimp only
      have isHead := (consistent.ages.listed l isStale).head_eq
      cases stales with
      | nil =>
        rw [isHead]
        exact .pure ⟨ids, [], [], rfl, consistent, by simp, by simp, by simp, rfl, rfl,
          by rw [isStale]⟩
      | cons id rest =>
        rw [isHead]
        dsimp only [List.head?_cons]
        have member : id ∈ ids := consistent.held List.mem_cons_self
        obtain ⟨entry, isEntry⟩ := consistent.chains.entry member
        have isDue : t.due id = entry.staleTime := by rw [due, isEntry]; rfl
        rw [isEntry]
        dsimp only
        split
        · next stale =>
          have isKey := keyAt_of_entries isEntry
          have ages : (t.staleRemove l id).Ages ((id :: rest).erase id) := by
            rw [List.erase_cons_head]
            have split : t.Ages ([] ++ id :: rest) := consistent.ages
            exact split.staleRemove isStale
          have dropped := consistent.drop member isKey (staleRemove_alike l id) rfl
            (by rw [isStale]; rfl) ages
          have consistent₁ := dropped.consistent
          rw [List.erase_cons_head] at consistent₁
          apply (ih consistent₁ (Nat.lt_of_succ_lt_succ enough)).imp
          rintro t' ⟨ids', gone, stales', split, consistent', inside, old, recent, entries, desc,
            timeout⟩
          refine ⟨ids', id :: gone, stales', by rw [split]; rfl, consistent', ?_, ?_, recent,
            entries, desc, timeout.trans dropped.timed⟩
          · intro other
            rw [inside, consistent.chains.distinct.mem_erase_iff, List.mem_cons]
            tauto
          · intro other isGone
            rcases List.mem_cons.mp isGone with rfl | later
            · exact isDue ▸ stale
            · exact old other later
        · next recent =>
          refine .pure ⟨ids, [], id :: rest, rfl, consistent, by simp, by simp, ?_, rfl, rfl,
            by rw [isStale]⟩
          intro other isFirst
          obtain rfl : id = other := Option.some.inj isFirst
          rw [isDue]
          exact Int.not_lt.mp recent

theorem Consistent.age (consistent : t.Consistent ids stales) (now later : Int) :
    (t.age now later).Yields fun s => t.Aged ids stales now s.1 := by
  have enough : stales.length < t.allocated + 1 := by
    have within := (List.subperm_of_subset consistent.ages.distinct consistent.held).length_le
    have bound := consistent.chains.length_le
    omega
  unfold Table.age
  apply (ageLoop_effect now consistent enough).bind
  intro t' aged
  cases isHead : t'.stale.bind StaleList.head with
  | none => exact .pure aged
  | some id =>
    have ⟨ids', gone, stales', _, consistent', _⟩ := aged
    obtain ⟨l, isStale, first⟩ := Option.bind_eq_some_iff.mp isHead
    rw [(consistent'.ages.listed l isStale).head_eq] at first
    obtain ⟨entry, isEntry⟩ :=
      consistent'.chains.entry (consistent'.held (List.mem_of_head? first))
    dsimp only
    rw [isEntry]
    exact .pure aged

theorem age_spec (sound : t.Sound) (now later : Int) :
    (t.age now later).Yields fun s =>
      s.1.Sound ∧ s.1.desc = t.desc ∧ ∀ key, Keeps t s.1 key := by
  obtain ⟨ids, stales, consistent⟩ := sound
  apply (consistent.age now later).imp
  rintro s ⟨ids', gone, stales', rfl, consistent', inside, -, -, entries, desc, -⟩
  refine ⟨⟨ids', stales', consistent'⟩, desc, fun key => ?_⟩
  apply consistent.chains.keeps consistent'.chains
  intro id member actions isContent
  have static : ¬ t.isTransient id = true := by
    rw [isTransient_iff, isContent]
    simp
  rw [consistent.flags id member, List.mem_append, not_or] at static
  exact ⟨(inside id).mpr ⟨member, static.1⟩, by rw [contentAt, entries, contentAt]⟩

end Table

end Lemming.Exact

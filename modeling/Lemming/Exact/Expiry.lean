import Lemming.Exact.Permanence

set_option autoImplicit false

namespace Lemming.Exact

open Packet Shared

variable {A : Type}

namespace Table

-- A consistent table whose stale list is in the order in which its entries get stale. The clock has
-- come to `clock`, and the time of no entry is further ahead than the timeout.
structure Timetable (t : Table A) (ids stales : List Nat) (clock : Int) : Prop extends
    t.Consistent ids stales where
  sorted : stales.Pairwise fun first second => t.due first ≤ t.due second
  recent : ∀ id ∈ stales, t.due id ≤ clock + t.timeout

structure Fresh (t : Table A) (ids stales : List Nat) (timeout : Int) (last : Key → Option Int) :
    Prop where
  timed : t.stale.map StaleList.timeout = some timeout
  transient : ids ⊆ stales
  used : ∀ id ∈ ids, ∃ entry time, t.entries id = some entry ∧ last entry.key = some time ∧
    entry.staleTime = time + timeout

variable {t t' : Table A} {ids ids' stales stales' : List Nat} {id : Nat} {clock now : Int}
  {l : StaleList} {entry : Entry A} {key : Key} {timeout : Int} {last : Key → Option Int}

theorem due_of_entries (isEntry : t.entries id = some entry) : t.due id = entry.staleTime := by
  rw [due, isEntry]
  rfl

theorem timeout_of_stale (isStale : t.stale.map StaleList.timeout = some timeout) :
    t.timeout = timeout := by
  rw [Table.timeout, isStale]
  rfl

theorem Timetable.later (table : t.Timetable ids stales clock) (passed : clock ≤ now) :
    t.Timetable ids stales now :=
  ⟨table.toConsistent, table.sorted, fun id member => by
    have bound := table.recent id member
    omega⟩

theorem Timetable.sublist (table : t.Timetable ids stales clock)
    (consistent : t'.Consistent ids' stales') (sub : stales'.Sublist stales)
    (dues : ∀ id ∈ stales', t'.due id = t.due id) (same : t'.timeout = t.timeout) :
    t'.Timetable ids' stales' clock := by
  refine ⟨consistent, ?_, ?_⟩
  · apply (table.sorted.sublist sub).imp_of_mem
    intro first second inFirst inSecond ordered
    rwa [dues first inFirst, dues second inSecond]
  · intro id member
    rw [dues id member, same]
    exact table.recent id (sub.subset member)

theorem Timetable.renewed (table : t.Timetable ids stales now)
    (renewed : t.Renewed t' ids stales id entry now timeout) :
    t'.Timetable ids (stales.erase id ++ [id]) now := by
  have dues : ∀ other ∈ stales.erase id, t'.due other = t.due other := by
    intro other listed
    have different : other ≠ id := fun same => table.ages.distinct.not_mem_erase (same ▸ listed)
    rw [due, renewed.entries, Function.update_of_ne different, due]
  have own : t'.due id = now + timeout := by
    rw [due, renewed.entries, Function.update_self]
    rfl
  have bound : ∀ other ∈ stales.erase id, t'.due other ≤ now + timeout := by
    intro other member
    rw [dues other member, ← timeout_of_stale renewed.before]
    exact table.recent other (List.mem_of_mem_erase member)
  refine ⟨renewed.consistent, ?_, ?_⟩
  · apply List.pairwise_append.mpr
    refine ⟨?_, List.pairwise_singleton _ _, ?_⟩
    · apply (table.sorted.sublist List.erase_sublist).imp_of_mem
      intro first second inFirst inSecond ordered
      rwa [dues first inFirst, dues second inSecond]
    · intro other member isId listed
      rw [List.mem_singleton.mp listed, own]
      exact bound other member
  · intro other member
    rw [timeout_of_stale renewed.timed]
    rcases List.mem_append.mp member with old | new
    · exact bound other old
    · rw [List.mem_singleton.mp new, own]

theorem Timetable.placed (table : t.Timetable ids stales now)
    (placed : t.Placed t' ids stales id entry) : t'.Timetable (ids.insert id) stales now := by
  apply table.sublist placed.consistent (List.Sublist.refl stales)
  · intro other listed
    by_cases same : other = id
    · subst same
      rw [due_of_entries placed.own, placed.due listed]
    · rw [due, placed.others other (table.held listed) same, due]
  · rw [Table.timeout, placed.stale, Table.timeout]

theorem Fresh.use (fresh : t.Fresh ids stales timeout last) {t₁ : Table A} {timeout₁ : Int}
    (renewed : t₁.Renewed t' ids' stales id entry now timeout₁) (stale : t₁.stale = t.stale)
    (inside : ∀ other ∈ ids', other ≠ id → other ∈ ids)
    (others : ∀ other ∈ ids, other ≠ id → t₁.entries other = t.entries other)
    (apart : ∀ other ∈ ids, other ≠ id → t.keyAt other ≠ some entry.key) :
    t'.Fresh ids' (stales.erase id ++ [id]) timeout (Function.update last entry.key (some now)) := by
  have timed := fresh.timed
  rw [← stale, renewed.before] at timed
  cases timed
  refine ⟨renewed.timed, ?_, ?_⟩
  · intro other member
    rw [List.mem_append, List.mem_singleton]
    by_cases same : other = id
    · exact Or.inr same
    · exact Or.inl ((List.mem_erase_of_ne same).mpr (fresh.transient (inside other member same)))
  · intro other member
    rw [renewed.entries]
    by_cases same : other = id
    · subst same
      exact ⟨_, now, Function.update_self .., Function.update_self .., rfl⟩
    · have old := inside other member same
      obtain ⟨entry', time, isEntry, isLast, isDue⟩ := fresh.used other old
      rw [Function.update_of_ne same, others other old same]
      refine ⟨entry', time, isEntry, ?_, isDue⟩
      have different : entry'.key ≠ entry.key := by
        intro sameKey
        apply apart other old same
        rw [keyAt_of_entries isEntry, sameKey]
      rw [Function.update_of_ne different, isLast]

theorem Fresh.found (fresh : t.Fresh ids stales timeout last) (consistent : t.Consistent ids stales)
    (found : t.Found ids id entry) : entry.transient = true := by
  rw [← isTransient_of_entries found.isEntry, consistent.flags id found.member]
  exact fresh.transient found.member

theorem Fresh.sublist (fresh : t.Fresh ids stales timeout last) (entries : t'.entries = t.entries)
    (isTimeout : t'.stale.map StaleList.timeout = t.stale.map StaleList.timeout)
    (inside : ids' ⊆ ids) (listed : ∀ id ∈ ids', id ∈ stales → id ∈ stales') :
    t'.Fresh ids' stales' timeout last := by
  refine ⟨isTimeout.trans fresh.timed, ?_, ?_⟩
  · intro id member
    exact listed id member (fresh.transient (inside member))
  · intro id member
    rw [entries]
    exact fresh.used id (inside member)

def Timely (t t' : Table A) (ids stales : List Nat) (now : Int)
    (last last' : Key → Option Int) (calm : Prop) : Prop :=
  t'.desc = t.desc ∧ ∃ ids' stales', t'.Timetable ids' stales' now ∧
    ∀ timeout, calm → t.Fresh ids stales timeout last → t'.Fresh ids' stales' timeout last'

theorem Timetable.unchanged (table : t.Timetable ids stales now) (last : Key → Option Int)
    (calm : Prop) : Timely t t ids stales now last last calm :=
  ⟨rfl, ids, stales, table, fun _ _ fresh => fresh⟩

section Calls

variable (env : Env A)

def use (desc : List FieldID) (last : Key → Option Int) :
    (Op A × Int) × Option String → Key → Option Int
  | ((.addEntry (some ex) _, now), none) =>
    match newExactKey env desc ex.fields with
    | .ok key => Function.update last key (some now)
    | .error _ => last
  | ((.process packet, now), _) => Function.update last (makePacketKey env desc packet) (some now)
  | _ => last

def Calm : Op A → Prop
  | .addEntry ed _ => ∀ ex, ed = some ex → ex.transient = true
  | .removeEntry _ => True
  | .process _ => True
  | .age _ => True
  | .clear => False
  | .learn _ => False
  | .processLearn _ => False

theorem Timetable.addEntry (table : t.Timetable ids stales now) (ed : Option ExactEntryDesc)
    {actions : Except String A} (vacant : Vacant env ed t actions) :
    (t.addEntry env ed actions now).Yields fun s => ∀ last,
      Timely t s.1 ids stales now last (use env t.desc last ((.addEntry ed actions, now), s.2))
        (Calm (.addEntry ed actions)) := by
  have way := table.toConsistent.adding env ed actions now
  generalize t.addEntry env ed actions now = outcome at way ⊢
  cases way with
  | failed _ _ err =>
    refine .pure fun last => ?_
    have unused : use env t.desc last ((.addEntry ed actions, now), some err) = last := by
      cases ed <;> rfl
    rw [unused]
    exact table.unchanged last _
  | kept acts found isKey learned static =>
    refine .pure fun last => ⟨rfl, ids, stales, table, fun timeout calm fresh => ?_⟩
    cases static.symm.trans (fresh.found table.toConsistent found)
  | @placed ex id entry t₁ placed isKey flag unguarded =>
    have table₁ := table.placed placed
    have safe := Adding.safe env vacant isKey flag
    apply (table₁.toConsistent.relist List.mem_insert_self placed.own safe now).bind
    intro t' relisted
    refine .pure fun last => ?_
    rcases relisted with ⟨rfl, unaged⟩ | ⟨-, timeout', renewed⟩
    · refine ⟨placed.desc, _, stales, table₁, fun timeout calm fresh => ?_⟩
      have timed := fresh.timed
      rw [← placed.stale, unaged (calm ex rfl)] at timed
      cases timed
    · refine ⟨renewed.desc.trans placed.desc, _, _, table₁.renewed renewed, ?_⟩
      intro timeout _ fresh
      rw [use, isKey]
      refine fresh.use renewed placed.stale ?_ placed.others placed.apart
      exact fun other inside different => (List.mem_insert_iff.mp inside).resolve_left different

theorem Timetable.removeEntry (table : t.Timetable ids stales now) (ed : Option ExactEntryDesc) :
    (t.removeEntry env ed).Yields fun s => ∀ last,
      Timely t s.1 ids stales now last last (Calm (.removeEntry ed : Op A)) := by
  have way := table.toConsistent.removing env ed
  generalize t.removeEntry env ed = outcome at way ⊢
  cases way with
  | failed _ err => exact .pure fun last => table.unchanged last _
  | @removed ex id entry t' found isKey removed =>
    refine .pure fun last => ⟨removed.desc, ids.erase id, stales.erase id, ?_, ?_⟩
    · apply table.sublist removed.consistent List.erase_sublist
      · intro other _
        rw [due, removed.entries, due]
      · rw [Table.timeout, removed.timed, Table.timeout]
    · intro timeout _ fresh
      apply fresh.sublist removed.entries removed.timed List.erase_subset
      intro other inside listed
      have different := (table.chains.distinct.mem_erase_iff.mp inside).1
      exact (List.mem_erase_of_ne different).mpr listed

theorem Timetable.process (table : t.Timetable ids stales now) (packet : FieldID → Option Bytes) :
    (t.process env packet now).Yields fun s => ∀ last,
      Timely t s.1 ids stales now last (use env t.desc last ((.process packet, now), none))
        (Calm (.process packet : Op A)) := by
  have way := table.toConsistent.processing env packet now
  generalize t.process env packet now = outcome at way ⊢
  cases way with
  | miss absent =>
    refine .pure fun last => ⟨rfl, ids, stales, table, fun timeout _ fresh => ?_⟩
    refine ⟨fresh.timed, fresh.transient, fun id member => ?_⟩
    obtain ⟨entry, time, isEntry, isLast, isDue⟩ := fresh.used id member
    refine ⟨entry, time, isEntry, ?_, isDue⟩
    have different : entry.key ≠ makePacketKey env t.desc packet := by
      intro same
      have isKey := keyAt_of_entries isEntry
      rw [same] at isKey
      rw [table.chains.find_iff.mpr ⟨member, isKey⟩] at absent
      cases absent
    rw [use, Function.update_of_ne different, isLast]
  | hit found static =>
    refine .pure fun last => ⟨rfl, ids, stales, table, fun timeout _ fresh => ?_⟩
    -- With a stale list and transient entries only, a hit always renews its entry.
    rcases static with isStale | isStatic
    · have timed := fresh.timed
      rw [isStale] at timed
      cases timed
    · cases isStatic.symm.trans (fresh.found table.toConsistent found)
  | use found isKey transient renewed =>
    refine .pure fun last => ⟨renewed.desc, ids, _, table.renewed renewed, fun timeout _ fresh => ?_⟩
    rw [use, ← isKey]
    exact fresh.use renewed rfl (fun _ inside _ => inside) (fun _ _ _ => rfl) found.apart

theorem Timetable.age (table : t.Timetable ids stales clock) (now later : Int) :
    (t.age now later).Yields fun s => s.1.desc = t.desc ∧ s.1.entries = t.entries ∧
      ∃ ids' stales', s.1.Timetable ids' stales' clock ∧
        (∀ id, id ∈ ids' ↔ id ∈ ids ∧ (id ∈ stales → now ≤ t.due id)) ∧
        (∀ id ∈ ids', id ∈ stales → id ∈ stales') ∧
        s.1.stale.map StaleList.timeout = t.stale.map StaleList.timeout := by
  apply (table.toConsistent.age now later).imp
  rintro ⟨t', next⟩ ⟨ids', gone, stales', split, consistent, inside, old, recent, entries, desc, timed⟩
  have table' : t'.Timetable ids' stales' clock := by
    apply table.sublist consistent
    · rw [split]
      exact List.sublist_append_right gone stales'
    · intro id _
      rw [due, entries, due]
    · rw [Table.timeout, timed, Table.timeout]
  -- The list is sorted, so nothing behind its new head is stale.
  have left : ∀ id ∈ stales', now ≤ t.due id := by
    intro id member
    cases stales' with
    | nil => cases member
    | cons first rest =>
      have isFirst := recent first rfl
      rcases List.mem_cons.mp member with rfl | behind
      · exact isFirst
      · have ordered := table.sorted
        rw [split] at ordered
        have tail := (List.pairwise_append.mp ordered).2.1
        exact isFirst.trans (List.rel_of_pairwise_cons tail behind)
  refine ⟨desc, entries, ids', stales', table', ?_, ?_, timed⟩
  · intro id
    rw [inside, split]
    constructor
    · rintro ⟨member, kept⟩
      refine ⟨member, fun listed => ?_⟩
      rcases List.mem_append.mp listed with isGone | isLeft
      · exact absurd isGone kept
      · exact left id isLeft
    · rintro ⟨member, notStale⟩
      refine ⟨member, fun isGone => ?_⟩
      have stale := old id isGone
      have fine := notStale (List.mem_append_left _ isGone)
      omega
  · intro id member listed
    rw [split] at listed
    exact (List.mem_append.mp listed).resolve_left ((inside id).mp member).2

theorem Timetable.clear (table : t.Timetable ids stales now)
    (idle : t.stale.bind StaleList.head = none) :
    t.clear.Yields fun t' => t'.desc = t.desc ∧ t'.Timetable [] [] now := by
  obtain rfl := table.toConsistent.idle idle
  rw [table.chains.clear]
  refine .pure ⟨rfl, ?_⟩
  exact table.sublist ⟨.nil rfl, table.ages.transfer rfl rfl, by simp, by simp⟩
    (List.Sublist.refl []) (by simp) rfl

end Calls

end Table

end Lemming.Exact

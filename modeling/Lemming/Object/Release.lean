import Mathlib.Data.List.DropRight
import Lemming.Shared.Outcome
import Mathlib.Data.Finset.Interval
import Mathlib.Order.Interval.Finset.Nat

set_option autoImplicit false

namespace Lemming.Object

open Shared

section

abbrev NID := Nat

def InvalidNID : NID := 0

abbrev ID := String

def InvalidID : ID := ""

def isSpace (c : Char) : Bool :=
  let n := c.toNat
  (9 ≤ n && n ≤ 13) || n = 0x20 || n = 0x85 || n = 0xA0 || n = 0x1680 ||
    (0x2000 ≤ n && n ≤ 0x200A) || n = 0x2028 || n = 0x2029 || n = 0x202F || n = 0x205F || n = 0x3000

def newID (s : String) : ID :=
  String.ofList ((s.toList.dropWhile isSpace).rdropWhile isSpace)

structure NIDPool where
  last : Nat
  -- The top of the stack comes first.
  free : List NID
  max : Nat

namespace NIDPool

def new (count : Nat) : NIDPool := ⟨0, [], count⟩

def acquire (p : NIDPool) : NIDPool × Except String NID :=
  match p.free with
  | id :: free => ({ p with free }, .ok id)
  | [] =>
    if p.max ≤ p.last then (p, .error "fwdobject: acquire failed, no free ids")
    else ({ p with last := p.last + 1 }, .ok (p.last + 1))

def release (p : NIDPool) (id : NID) : NIDPool := { p with free := id :: p.free }

end NIDPool

inductive Cleanup where
  | unset
  | closure (nid : NID)
  | nothing
deriving DecidableEq

structure Base where
  id : ID
  nid : NID
  -- A `uint64`.
  refCount : Nat
  cleanup : Cleanup

def Base.zero : Base := ⟨InvalidID, InvalidNID, 0, .unset⟩

abbrev IDs (O : Type) := ID → Option O

def IDs.put {O : Type} (ids : IDs O) (id : ID) (o : Option O) : IDs O := Function.update ids id o

theorem IDs.put_none {O : Type} (ids : IDs O) {id : ID} (isNone : ids id = none) :
    ids.put id none = ids :=
  Function.update_eq_self_iff.mpr isNone.symm

structure Table (O : Type) where
  pool : NIDPool
  nids : NID → Option O
  ids : IDs O
  objects : O → Base
  cleanups : O → Nat

def newTable (O : Type) : Table O :=
  ⟨.new (2 ^ 64 - 1), fun _ => none, fun _ => none, fun _ => .zero, fun _ => 0⟩

-- What the types of the objects add to their bases. A composite object releases the references it holds
-- when it is cleaned up, and which these are can depend on anything.
structure Kind (O : Type) where
  composite : O → Bool
  held : Table O → O → List O
  string : Table O → O → String

variable {O : Type} [DecidableEq O]

variable (t : Table O)

def Table.setBase (o : O) (base : Base) : Table O :=
  { t with objects := Function.update t.objects o base }

def acquireText : String := "fwdobject: acquire failed, refcount = 0: "

def releaseText : String := "fwdobject: release failed, refcount = 0: "

def Table.acquireBase (o : O) : Table O × Option String :=
  let base := t.objects o
  if base.refCount = 0 then (t, some acquireText)
  else (t.setBase o { base with refCount := (base.refCount + 1) % 2 ^ 64 }, none)

section Release

variable (kind : Kind O)

def releaseAll (release : Table O → O → Outcome (Table O × Option String)) :
    List O → Table O → Outcome (Table O)
  | [], t => .ok t
  | o :: rest, t => do
    let (t, _) ← release t o
    releaseAll release rest t

def cleanupComposite (release : Table O → O → Outcome (Table O × Option String)) (t : Table O)
    (o : O) : Outcome (Table O) :=
  if kind.composite o then releaseAll release (kind.held t o) t else .ok t

-- `Base.Release`. The bound is on the number of cleanups within each other.
def Table.releaseBase : Nat → Table O → O → Bool → Outcome (Table O × Option String)
  | 0, _, _, _ => .diverge
  | depth + 1, t, o, forceCleanup =>
    let base := t.objects o
    if base.refCount = 0 then .ok (t, some releaseText)
    else
      let t := t.setBase o { base with refCount := base.refCount - 1 }
      if forceCleanup ∨ base.refCount - 1 = 0 then
        match base.cleanup with
        | .unset => .panic
        | .nothing => .ok (t, none)
        | .closure nid => do
          let t ← cleanupComposite kind (fun t o => Table.releaseBase depth t o false) t o
          let t := { t with
            nids := Function.update t.nids nid none
            pool := t.pool.release nid
            cleanups := Function.update t.cleanups o (t.cleanups o + 1) }
          return (t.setBase o { t.objects o with cleanup := .nothing }, none)
      else .ok (t, none)

def Table.release (t : Table O) (o : O) (forceCleanup : Bool) : Outcome (Table O × Option String) :=
  t.releaseBase kind (t.pool.last + 1) o forceCleanup

def Table.insert (t : Table O) (o : O) : Option String → Outcome (Table O × Option String)
  | none => .ok (t, some "fwdobject: insert failed, no object id")
  | some oid =>
    let id := newID oid
    let base := t.objects o
    if base.id ≠ InvalidID then
      .ok (t, some ("fwdobject: insert failed, object " ++ kind.string t o ++ " has ID " ++ base.id))
    else if base.nid ≠ InvalidNID then
      .ok (t, some ("fwdobject: insert failed, object " ++ kind.string t o ++ " has NID " ++
        toString base.nid))
    else
      match t.ids id with
      | some current => .ok (t, some ("fwdobject: insert failed, reinserting object " ++
          kind.string t o ++ " over object " ++ kind.string t current))
      | none =>
        match t.pool.acquire with
        | (_, .error err) => do
          let t ← cleanupComposite kind (fun t o => t.release kind o false) t o
          return (t, some ("fwdobject: insert failed, " ++ err))
        | (pool, .ok nid) =>
          let t := { t with
            pool
            ids := t.ids.put id (some o)
            nids := Function.update t.nids nid (some o) }
          .ok (t.setBase o ⟨id, nid, 1, .closure nid⟩, none)

def Table.remove (t : Table O) (forceCleanup : Bool) :
    Option String → Outcome (Table O × Option String)
  | none => .ok (t, some "fwdobject: remove failed, no object id")
  | some oid =>
    match t.ids (newID oid) with
    | none => .ok (t, some ("fwdobject: remove failed, no object at id " ++ newID oid))
    | some o =>
      Table.release kind { t with ids := t.ids.put (newID oid) none } o forceCleanup

end Release

def Table.acquire : Option String → Table O × Option O × Option String
  | none => (t, none, some "fwdobject: reference failed, no object id")
  | some oid =>
    match t.ids (newID oid) with
    | none => (t, none, some ("fwdobject: reference failed, no object at id " ++ newID oid))
    | some o =>
      let (t, err) := t.acquireBase o
      (t, some o, err)

omit [DecidableEq O] in
def Table.findID : Option String → Except String O
  | none => .error "fwdobject: remove failed, no object id"
  | some oid =>
    match t.ids (newID oid) with
    | some o => .ok o
    | none => .error ("fwdobject: find failed, no object at id " ++ newID oid)

omit [DecidableEq O] in
def Table.findNID (nid : NID) : Except String O :=
  match t.nids nid with
  | some o => .ok o
  | none => .error ("fwdobject: find failed, no object at id " ++ toString nid)

end

variable {O : Type} [DecidableEq O]

def Table.Live (t : Table O) (o : O) : Prop := 0 < (t.objects o).refCount

inductive Phase (busy : Set O) (t : Table O) (o : O) : Prop where
  | fresh (zero : t.objects o = .zero) (idle : o ∉ busy) (never : t.cleanups o = 0)
  | active (used : t.Live o ∨ o ∈ busy) (armed : (t.objects o).cleanup = .closure (t.objects o).nid)
      (given : 1 ≤ (t.objects o).nid ∧ (t.objects o).nid ≤ t.pool.last) (never : t.cleanups o = 0)
  | done (spent : (t.objects o).refCount = 0) (idle : o ∉ busy)
      (disarmed : (t.objects o).cleanup = .nothing) (given : (t.objects o).nid ≠ InvalidNID)
      (once : t.cleanups o = 1)

structure Table.Inv (busy : Set O) (t : Table O) : Prop where
  phase : ∀ o, Phase busy t o
  spent : ∀ o ∈ busy, (t.objects o).refCount = 0
  found : ∀ nid o, t.nids nid = some o ↔ (t.objects o).nid = nid ∧ (t.Live o ∨ o ∈ busy)
  free : ∀ nid ∈ t.pool.free, 1 ≤ nid ∧ nid ≤ t.pool.last ∧ t.nids nid = none
  once : t.pool.free.Nodup

structure Eased (t t' : Table O) : Prop where
  ids : t'.ids = t.ids
  last : t'.pool.last = t.pool.last
  max : t'.pool.max = t.pool.max
  id : ∀ o, (t'.objects o).id = (t.objects o).id
  nid : ∀ o, (t'.objects o).nid = (t.objects o).nid
  refCount : ∀ o, (t'.objects o).refCount ≤ (t.objects o).refCount

omit [DecidableEq O] in
theorem Eased.refl (t : Table O) : Eased t t :=
  ⟨rfl, rfl, rfl, fun _ => rfl, fun _ => rfl, fun _ => Nat.le_refl _⟩

omit [DecidableEq O] in
theorem Eased.trans {t t' t'' : Table O} (first : Eased t t') (second : Eased t' t'') :
    Eased t t'' where
  ids := second.ids.trans first.ids
  last := second.last.trans first.last
  max := second.max.trans first.max
  id := fun o => (second.id o).trans (first.id o)
  nid := fun o => (second.nid o).trans (first.nid o)
  refCount := fun o => (second.refCount o).trans (first.refCount o)

section Alive

variable {busy : Set O} {t t' : Table O}

open Classical in
noncomputable def Table.alive (t : Table O) : Finset NID :=
  (Finset.Icc 1 t.pool.last).filter fun nid => ∃ o, (t.objects o).nid = nid ∧ t.Live o

omit [DecidableEq O]

theorem Eased.live (eased : Eased t t') {o : O} (live : t'.Live o) : t.Live o :=
  Nat.lt_of_lt_of_le live (eased.refCount o)

theorem Eased.alive (eased : Eased t t') : t'.alive ⊆ t.alive := by
  intro nid mem
  simp only [Table.alive, Finset.mem_filter, eased.last, eased.nid] at mem ⊢
  obtain ⟨inside, o, isNid, live⟩ := mem
  exact ⟨inside, o, isNid, eased.live live⟩

theorem Table.alive_card (t : Table O) : t.alive.card ≤ t.pool.last := by
  have inside : t.alive ⊆ Finset.Icc 1 t.pool.last := by
    intro nid mem
    simp only [Table.alive, Finset.mem_filter] at mem
    exact mem.1
  apply (Finset.card_le_card inside).trans
  simp

theorem Table.Inv.active {o : O} (inv : t.Inv busy) (live : t.Live o) :
    (t.objects o).cleanup = .closure (t.objects o).nid ∧
      (1 ≤ (t.objects o).nid ∧ (t.objects o).nid ≤ t.pool.last) ∧ t.cleanups o = 0 := by
  cases inv.phase o with
  | fresh zero => simp [Table.Live, zero, Base.zero] at live
  | active _ armed given never => exact ⟨armed, given, never⟩
  | done spent => simp [Table.Live, spent] at live

theorem alive_lt {o : O} (inv : t.Inv busy) (live : t.Live o) (eased : Eased t t')
    (spent : (t'.objects o).refCount = 0) : t'.alive.card < t.alive.card := by
  apply Finset.card_lt_card
  refine ⟨eased.alive, fun all => ?_⟩
  have isFound : ∀ o', (t.objects o').nid = (t.objects o).nid → t.Live o' → o' = o := by
    intro o' same live'
    have one := (inv.found _ o').mpr ⟨same, Or.inl live'⟩
    have two := (inv.found _ o).mpr ⟨rfl, Or.inl live⟩
    exact Option.some.inj (one.symm.trans two)
  have mem : (t.objects o).nid ∈ t.alive := by
    simp only [Table.alive, Finset.mem_filter, Finset.mem_Icc]
    exact ⟨(inv.active live).2.1, o, rfl, live⟩
  have mem' := all mem
  simp only [Table.alive, Finset.mem_filter, eased.nid] at mem'
  obtain ⟨-, o', same, live'⟩ := mem'
  rw [isFound o' same (eased.live live')] at live'
  simp [Table.Live, spent] at live'

end Alive

section Updating

variable {busy busy' : Set O} {t t' : Table O} {o : O}

theorem setBase_same (t : Table O) (o : O) (base : Base) : (t.setBase o base).objects o = base := by
  simp [Table.setBase]

theorem setBase_other (t : Table O) {o o' : O} (other : o' ≠ o) (base : Base) :
    (t.setBase o base).objects o' = t.objects o' := by
  simp [Table.setBase, other]

omit [DecidableEq O] in
theorem Phase.transfer (phase : Phase busy t o) (base : t'.objects o = t.objects o)
    (cleanups : t'.cleanups o = t.cleanups o) (member : o ∈ busy' ↔ o ∈ busy)
    (last : t.pool.last ≤ t'.pool.last) : Phase busy' t' o := by
  have live : t'.Live o ↔ t.Live o := by rw [Table.Live, base, Table.Live]
  cases phase with
  | fresh zero idle never =>
    exact .fresh (base.trans zero) (mt member.mp idle) (cleanups.trans never)
  | active used armed given never =>
    refine .active ?_ (by rw [base, armed]) ?_ (cleanups.trans never)
    · rwa [live, member]
    · rw [base]
      exact ⟨given.1, given.2.trans last⟩
  | done spent idle disarmed given once =>
    exact .done (by rw [base, spent]) (mt member.mp idle) (by rw [base, disarmed])
      (by rw [base]; exact given) (cleanups.trans once)

omit [DecidableEq O] in
-- What holds after a call that changes one object only, and the entry of no other.
theorem Table.Inv.change (inv : t.Inv busy) (last : t.pool.last ≤ t'.pool.last)
    (others : ∀ o', o' ≠ o → t'.objects o' = t.objects o' ∧ t'.cleanups o' = t.cleanups o' ∧
      (o' ∈ busy' ↔ o' ∈ busy) ∧ ∀ nid, t'.nids nid = some o' ↔ t.nids nid = some o')
    (phase : Phase busy' t' o) (spent : o ∈ busy' → (t'.objects o).refCount = 0)
    (found : ∀ nid, t'.nids nid = some o ↔ (t'.objects o).nid = nid ∧ (t'.Live o ∨ o ∈ busy'))
    (free : ∀ nid ∈ t'.pool.free, 1 ≤ nid ∧ nid ≤ t'.pool.last ∧ t'.nids nid = none)
    (once : t'.pool.free.Nodup) : t'.Inv busy' := by
  refine ⟨fun o' => ?_, fun o' mem => ?_, fun nid o' => ?_, free, once⟩
  all_goals
    by_cases same : o' = o
    · subst same
      first | exact phase | exact spent mem | exact found nid
  · obtain ⟨object, cleanups, member, -⟩ := others o' same
    exact (inv.phase o').transfer object cleanups member last
  · obtain ⟨object, -, member, -⟩ := others o' same
    rw [object]
    exact inv.spent o' (member.mp mem)
  · obtain ⟨object, -, member, nids⟩ := others o' same
    rw [nids, inv.found, Table.Live, Table.Live, object, member]

theorem inv_counted (inv : t.Inv busy) (live : t.Live o) {count : Nat}
    (uses : 0 < count ∨ o ∈ busy') (spent : o ∈ busy' → count = 0)
    (others : ∀ o', o' ≠ o → (o' ∈ busy' ↔ o' ∈ busy)) :
    (t.setBase o { t.objects o with refCount := count }).Inv busy' := by
  obtain ⟨armed, given, never⟩ := inv.active live
  have own := setBase_same t o { t.objects o with refCount := count }
  refine inv.change (Nat.le_refl _)
    (fun o' other => ⟨setBase_other t other _, rfl, others o' other, fun _ => Iff.rfl⟩)
    (.active ?_ (by rw [own, armed]) (by rwa [own]) never) (fun mem => by rw [own, spent mem]) ?_
    inv.free inv.once
  · rwa [Table.Live, own]
  · intro nid
    rw [Table.Live, own]
    exact (inv.found nid o).trans (and_congr_right fun _ => iff_of_true (.inl live) uses)

theorem inv_recount (inv : t.Inv busy) (live : t.Live o) {count : Nat} (positive : 0 < count) :
    (t.setBase o { t.objects o with refCount := count }).Inv busy :=
  inv_counted inv live (Or.inl positive)
    (fun mem => by simp [Table.Live, inv.spent o mem] at live) fun _ _ => Iff.rfl

theorem inv_begin (inv : t.Inv busy) (live : t.Live o) :
    (t.setBase o { t.objects o with refCount := 0 }).Inv (insert o busy) :=
  inv_counted inv live (Or.inr (Set.mem_insert _ _)) (fun _ => rfl)
    fun o' other => by simp [other]

def Table.finished (t : Table O) (o : O) (nid : NID) : Table O :=
  ({ t with
    nids := Function.update t.nids nid none
    pool := t.pool.release nid
    cleanups := Function.update t.cleanups o (t.cleanups o + 1) } : Table O).setBase o
      { t.objects o with cleanup := .nothing }

theorem inv_finish {t : Table O} {nid : NID} (inv : t.Inv (insert o busy)) (idle : o ∉ busy)
    (isNid : (t.objects o).nid = nid) :
    (t.finished o nid).Inv busy := by
  have spent := inv.spent o (Set.mem_insert _ _)
  have held : t.nids nid = some o := (inv.found nid o).mpr ⟨isNid, Or.inr (Set.mem_insert _ _)⟩
  have own : (t.finished o nid).objects o = { t.objects o with cleanup := .nothing } := setBase_same _ _ _
  have isNids (nid' : NID) : (t.finished o nid).nids nid' = if nid' = nid then none else t.nids nid' := by
    simp only [Table.finished, Table.setBase, Function.update_apply]
  obtain ⟨given, never⟩ : (1 ≤ (t.objects o).nid ∧ (t.objects o).nid ≤ t.pool.last) ∧
      t.cleanups o = 0 := by
    cases inv.phase o with
    | fresh _ idle' | done _ idle' => exact absurd (Set.mem_insert _ _) idle'
    | active _ _ given never => exact ⟨given, never⟩
  refine inv.change (Nat.le_refl _) (fun o' other => ⟨setBase_other _ other _, ?_, ?_, fun nid' => ?_⟩)
    (.done ?_ idle ?_ ?_ ?_) (fun mem => absurd mem idle) (fun nid' => ?_) (fun nid' mem => ?_) ?_
  · simp [Table.finished, Table.setBase, other]
  · simp [other]
  · rw [isNids]
    split
    · next same => simp [same, held, Ne.symm other]
    · rfl
  · rw [own, spent]
  · rw [own]
  · rw [own]
    exact Nat.one_le_iff_ne_zero.mp given.1
  · simp [Table.finished, Table.setBase, never]
  · rw [Table.Live, own, isNids]
    refine iff_of_false (fun isFound => ?_) fun ⟨_, used⟩ => used.elim (by simp [spent]) idle
    split at isFound
    · cases isFound
    · next other => exact other (((inv.found nid' o).mp isFound).1.symm.trans isNid)
  · rw [isNids]
    rcases List.mem_cons.mp mem with rfl | older
    · rw [if_pos rfl, ← isNid]
      exact ⟨given.1, given.2, rfl⟩
    · obtain ⟨low, high, isNone⟩ := inv.free nid' older
      exact ⟨low, high, by rw [isNone, ite_self]⟩
  · refine List.nodup_cons.mpr ⟨fun mem => ?_, inv.once⟩
    rw [(inv.free nid mem).2.2] at held
    cases held

end Updating

section Releasing

variable {kind : Kind O} {busy : Set O}

def Releases (release : Table O → O → Outcome (Table O × Option String)) (below : Nat) : Prop :=
  ∀ busy t o, t.Inv busy → t.alive.card < below →
    (release t o).Yields fun (t', _) => t'.Inv busy ∧ Eased t t'

omit [DecidableEq O] in
theorem releaseAll_spec {release : Table O → O → Outcome (Table O × Option String)} {below : Nat}
    (releases : Releases release below) (os : List O) {t : Table O} (inv : t.Inv busy)
    (enough : t.alive.card < below) :
    (releaseAll release os t).Yields fun t' => t'.Inv busy ∧ Eased t t' := by
  induction os generalizing t with
  | nil => exact .pure ⟨inv, .refl t⟩
  | cons o rest ih =>
    rw [releaseAll]
    apply (releases busy t o inv enough).bind
    intro (t', _) ⟨inv', eased⟩
    have fewer := Finset.card_le_card eased.alive
    apply (ih inv' (by omega)).imp
    intro t'' ⟨inv'', eased'⟩
    exact ⟨inv'', eased.trans eased'⟩

omit [DecidableEq O] in
theorem cleanupComposite_spec {release : Table O → O → Outcome (Table O × Option String)}
    {below : Nat} (releases : Releases release below) (o : O) {t : Table O} (inv : t.Inv busy)
    (enough : t.alive.card < below) :
    (cleanupComposite kind release t o).Yields fun t' => t'.Inv busy ∧ Eased t t' := by
  unfold cleanupComposite
  split
  · exact releaseAll_spec releases _ inv enough
  · exact .pure ⟨inv, .refl t⟩

theorem eased_object {t t' : Table O} {o : O} {base : Base} (ids : t'.ids = t.ids)
    (last : t'.pool.last = t.pool.last) (max : t'.pool.max = t.pool.max)
    (objects : t'.objects = Function.update t.objects o base) (id : base.id = (t.objects o).id)
    (nid : base.nid = (t.objects o).nid) (count : base.refCount ≤ (t.objects o).refCount) :
    Eased t t' := by
  refine ⟨ids, last, max, fun o' => ?_, fun o' => ?_, fun o' => ?_⟩
  all_goals
    rw [objects]
    by_cases same : o' = o
    · subst same
      simp [id, nid, count]
    · simp [same]

theorem releaseBase_spec (depth : Nat) :
    Releases (fun t o => Table.releaseBase kind depth t o false) depth := by
  induction depth with
  | zero => exact fun _ _ _ _ enough => absurd enough (Nat.not_lt_zero _)
  | succ depth ih =>
    intro busy t o inv enough
    dsimp only
    rw [Table.releaseBase]
    dsimp only
    split
    · exact .pure ⟨inv, .refl t⟩
    next counted =>
    have live : t.Live o := Nat.pos_of_ne_zero counted
    split
    · next last =>
      have isZero : (t.objects o).refCount - 1 = 0 := last.resolve_left Bool.false_ne_true
      have idle : o ∉ busy := fun mem => counted (inv.spent o mem)
      have begun := inv_begin inv live
      have eased : Eased t (t.setBase o { t.objects o with refCount := 0 }) :=
        eased_object rfl rfl rfl rfl rfl rfl (Nat.zero_le _)
      have fewer := alive_lt inv live eased (by rw [setBase_same])
      have armed := (inv.active live).1
      rw [isZero]
      split
      · next unset => cases unset.symm.trans armed
      · next nothing => cases nothing.symm.trans armed
      next nid isClosure =>
      obtain rfl : nid = (t.objects o).nid := Cleanup.closure.inj (isClosure.symm.trans armed)
      refine (cleanupComposite_spec ih o begun (by omega)).bind fun t' ⟨inv', eased'⟩ => ?_
      have isNid : (t'.objects o).nid = (t.objects o).nid := by
        rw [eased'.nid, setBase_same]
      exact .pure ⟨inv_finish inv' idle isNid, (eased.trans eased').trans
        (eased_object rfl rfl rfl rfl rfl rfl (Nat.le_refl _))⟩
    · next more =>
      have positive : 0 < (t.objects o).refCount - 1 := by
        have := not_or.mp more
        omega
      exact .pure ⟨inv_recount inv live positive, eased_object rfl rfl rfl rfl rfl rfl (Nat.sub_le _ _)⟩

theorem release_spec {t : Table O} (inv : t.Inv busy) (o : O) :
    (t.release kind o false).Yields fun (t', _) => t'.Inv busy ∧ Eased t t' :=
  releaseBase_spec _ busy t o inv (Nat.lt_succ_of_le t.alive_card)

end Releasing

end Lemming.Object

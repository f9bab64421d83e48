import Lemming.Object.Release

set_option autoImplicit false

namespace Lemming.Object

open Shared

variable {O : Type}

-- The calls that a table and its objects get, none of them with a forced cleanup.
inductive Op (O : Type) where
  | insert (o : O) (oid : Option String)
  | acquire (oid : Option String)
  | acquireObject (o : O)
  | release (o : O)
  | remove (oid : Option String)

abbrev Log (O : Type) := List (Op O × Option String)

section Runs

variable [DecidableEq O] (kind : Kind O)

def Op.run (t : Table O) : Op O → Outcome (Table O × Option String)
  | .insert o oid => t.insert kind o oid
  | .acquire oid => .ok ((t.acquire oid).1, (t.acquire oid).2.2)
  | .acquireObject o => .ok (t.acquireBase o)
  | .release o => t.release kind o false
  | .remove oid => t.remove kind false oid

def runs : Table O × Log O → List (Op O) → Outcome (Table O × Log O)
  | s, [] => .ok s
  | (t, log), op :: rest => do
    let (t, err) ← op.run kind t
    runs (t, log ++ [(op, err)]) rest

def start (O : Type) : Table O × Log O := (newTable O, [])

def stand (standing : IDs O) : Op O × Option String → IDs O
  | (.insert o (some oid), none) => standing.put (newID oid) (some o)
  | (.remove (some oid), _) => standing.put (newID oid) none
  | _ => standing

omit [DecidableEq O] in
theorem stand_insert (standing : IDs O) (o : O) (oid : String) :
    stand standing (.insert o (some oid), none) = standing.put (newID oid) (some o) := rfl

def Log.standing (log : Log O) : IDs O := log.foldl stand fun _ => none

end Runs

def Log.Inserted (log : Log O) (o : O) : Prop := ∃ oid, (Op.insert o oid, none) ∈ log

structure Orderly [DecidableEq O] (t : Table O) (log : Log O) : Prop where
  distinct : ∀ o o', t.Live o → t.Live o' → (t.objects o).nid = (t.objects o').nid → o = o'
  nonzero : ∀ o, t.Live o → (t.objects o).nid ≠ InvalidNID
  findNID : ∀ nid o, t.findNID nid = .ok o ↔ t.Live o ∧ (t.objects o).nid = nid
  findID : ∀ oid o, t.findID (some oid) = .ok o ↔ log.standing (newID oid) = some o
  cleanup : ∀ o, t.cleanups o ≤ 1 ∧ (t.cleanups o = 1 ↔ log.Inserted o ∧ ¬ t.Live o)
  reuse : ∀ o o', o ≠ o' → log.Inserted o → log.Inserted o' →
    (t.objects o).nid = (t.objects o').nid → t.cleanups o = 1 ∨ t.cleanups o' = 1

def Op.Counts (t : Table O) : Op O → Prop
  | .acquire (some oid) => ∀ o, t.ids (newID oid) = some o → (t.objects o).refCount ≠ 2 ^ 64 - 1
  | .acquireObject o => (t.objects o).refCount ≠ 2 ^ 64 - 1
  | _ => True

variable [DecidableEq O] {kind : Kind O}

structure Consistent (t : Table O) (log : Log O) : Prop where
  inv : t.Inv ∅
  small : ∀ o, (t.objects o).refCount < 2 ^ 64
  ids : t.ids = log.standing
  inserted : ∀ o, log.Inserted o ↔ (t.objects o).nid ≠ InvalidNID

theorem start_consistent (O : Type) [DecidableEq O] : Consistent (start O).1 (start O).2 := by
  refine ⟨⟨fun o => .fresh rfl (Set.notMem_empty o) rfl, nofun, ?_, nofun, .nil⟩, ?_, rfl, ?_⟩
  · intro nid o
    simp [start, newTable, Table.Live, Base.zero]
  · intro o
    simp [start, newTable, Base.zero]
  · intro o
    simp [start, newTable, Base.zero, Log.Inserted]

theorem Consistent.orderly {t : Table O} {log : Log O} (consistent : Consistent t log) :
    Orderly t log := by
  obtain ⟨inv, -, ids, inserted⟩ := consistent
  have found : ∀ nid o, t.nids nid = some o ↔ t.Live o ∧ (t.objects o).nid = nid := by
    intro nid o
    rw [inv.found, and_comm]
    simp
  have cleanup : ∀ o, t.cleanups o ≤ 1 ∧ (t.cleanups o = 1 ↔ log.Inserted o ∧ ¬ t.Live o) := by
    intro o
    rw [inserted]
    cases inv.phase o with
    | fresh zero _ never => simp [never, zero, Base.zero]
    | active used _ _ never => simp [never, used.resolve_right (Set.notMem_empty o)]
    | done spent _ _ given once => simp [once, given, Table.Live, spent]
  have distinct : ∀ o o', t.Live o → t.Live o' → (t.objects o).nid = (t.objects o').nid → o = o' := by
    intro o o' live live' same
    have one := (found _ o).mpr ⟨live, rfl⟩
    have two := (found _ o').mpr ⟨live', same.symm⟩
    exact Option.some.inj (one.symm.trans two)
  constructor
  · exact distinct
  · intro o live
    exact Nat.one_le_iff_ne_zero.mp (inv.active live).2.1.1
  · intro nid o
    rw [← found, Table.findNID]
    cases t.nids nid <;> simp
  · intro oid o
    rw [← ids, Table.findID]
    cases t.ids (newID oid) <;> simp
  · exact cleanup
  · intro o o' different isIn isIn' same
    by_contra neither
    rw [not_or, (cleanup o).2, (cleanup o').2] at neither
    have live : t.Live o := by
      by_contra dead
      exact neither.1 ⟨isIn, dead⟩
    have live' : t.Live o' := by
      by_contra dead
      exact neither.2 ⟨isIn', dead⟩
    exact different (distinct o o' live live' same)

section Steps

variable {t t' : Table O} {log : Log O}

omit [DecidableEq O] in
theorem standing_snoc (log : Log O) (entry : Op O × Option String) :
    Log.standing (log ++ [entry]) = stand log.standing entry := by
  simp [Log.standing]

omit [DecidableEq O] in
theorem inserted_snoc (log : Log O) (entry : Op O × Option String) (o : O) :
    Log.Inserted (log ++ [entry]) o ↔ log.Inserted o ∨ ∃ oid, (Op.insert o oid, none) = entry := by
  simp only [Log.Inserted, List.mem_append, List.mem_singleton]
  exact exists_or

omit [DecidableEq O] in
theorem Consistent.eased (consistent : Consistent t log) (inv : t'.Inv ∅)
    {entry : Op O × Option String} (eased : Eased { t with ids := stand t.ids entry } t')
    (inserts : ∀ o oid, (Op.insert o oid, none) ≠ entry) : Consistent t' (log ++ [entry]) := by
  refine ⟨inv, fun o => (eased.refCount o).trans_lt (consistent.small o), ?_, fun o => ?_⟩
  · rw [standing_snoc, eased.ids, consistent.ids]
  · rw [inserted_snoc, eased.nid, ← consistent.inserted]
    simp [inserts]

omit [DecidableEq O] in
theorem Consistent.refused (consistent : Consistent t log) {entry : Op O × Option String}
    (ids : stand t.ids entry = t.ids) (inserts : ∀ o oid, (Op.insert o oid, none) ≠ entry) :
    Consistent t (log ++ [entry]) := by
  refine consistent.eased consistent.inv ?_ inserts
  rw [ids]
  exact .refl t

theorem acquireBase_consistent (consistent : Consistent t log) {o : O}
    (counts : (t.objects o).refCount ≠ 2 ^ 64 - 1) {op : Op O}
    (ids : ∀ err, stand t.ids (op, err) = t.ids)
    (inserts : ∀ (err : Option String) o oid, (Op.insert o oid, none) ≠ (op, err)) :
    Consistent (t.acquireBase o).1 (log ++ [(op, (t.acquireBase o).2)]) := by
  have small := consistent.small o
  unfold Table.acquireBase
  dsimp only
  split
  · exact consistent.refused (ids _) (inserts _)
  next counted =>
  have live : t.Live o := Nat.pos_of_ne_zero counted
  have isCount : ((t.objects o).refCount + 1) % 2 ^ 64 = (t.objects o).refCount + 1 :=
    Nat.mod_eq_of_lt (by omega)
  rw [isCount]
  refine ⟨inv_recount consistent.inv live (Nat.succ_pos _), fun o' => ?_, ?_, fun o' => ?_⟩
  · by_cases same : o' = o
    · subst same
      rw [setBase_same]
      show (t.objects o').refCount + 1 < 2 ^ 64
      omega
    · rw [setBase_other t same]
      exact consistent.small o'
  · rw [standing_snoc, ← consistent.ids, ids]
    rfl
  · have isNid : ((t.setBase o { t.objects o with refCount := (t.objects o).refCount + 1 }).objects o').nid =
        (t.objects o').nid := by
      by_cases same : o' = o
      · rw [same, setBase_same]
      · rw [setBase_other t same]
    rw [inserted_snoc, isNid, ← consistent.inserted]
    simp [inserts]

omit [DecidableEq O] in
theorem pool_acquire (inv : t.Inv ∅) {pool : NIDPool} {nid : NID}
    (acquired : t.pool.acquire = (pool, .ok nid)) :
    (1 ≤ nid ∧ nid ≤ pool.last) ∧ t.pool.last ≤ pool.last ∧ t.nids nid = none ∧
      (∀ other ∈ pool.free, other ∈ t.pool.free ∧ other ≠ nid) ∧ pool.free.Nodup := by
  unfold NIDPool.acquire at acquired
  have once := inv.once
  split at acquired
  · next first free isFree =>
    cases acquired
    rw [isFree] at once
    obtain ⟨low, high, isNone⟩ := inv.free nid (by rw [isFree]; exact List.mem_cons_self)
    refine ⟨⟨low, high⟩, Nat.le_refl _, isNone, fun other mem => ⟨?_, fun same => ?_⟩, ?_⟩
    · rw [isFree]
      exact List.mem_cons_of_mem _ mem
    · exact (List.nodup_cons.mp once).1 (same ▸ mem)
    · exact (List.nodup_cons.mp once).2
  · next isFree =>
    split at acquired
    · cases acquired
    · cases acquired
      refine ⟨⟨Nat.succ_pos _, Nat.le_refl _⟩, Nat.le_succ _, ?_, ?_, ?_⟩
      · cases isFound : t.nids (t.pool.last + 1) with
        | none => rfl
        | some o =>
          obtain ⟨isNid, used⟩ := (inv.found _ o).mp isFound
          cases inv.phase o with
          | fresh zero =>
            rw [zero] at isNid
            cases isNid
          | active _ _ given => exact absurd (isNid ▸ given.2) (Nat.not_succ_le_self _)
          | done spent idle =>
            simp [Table.Live, spent] at used
      · rw [isFree]
        rintro _ ⟨⟩
      · rw [isFree]
        exact .nil

def Table.inserted (t : Table O) (o : O) (oid : String) (nid : NID) (pool : NIDPool) : Table O :=
  ({ t with
    pool
    ids := t.ids.put (newID oid) (some o)
    nids := Function.update t.nids nid (some o) } : Table O).setBase o
      ⟨newID oid, nid, 1, .closure nid⟩

theorem inserted_consistent (consistent : Consistent t log) {o : O} {oid : String}
    (fresh : (t.objects o).nid = InvalidNID) {pool : NIDPool} {nid : NID}
    (acquired : t.pool.acquire = (pool, .ok nid)) :
    Consistent (t.inserted o oid nid pool) (log ++ [(.insert o (some oid), none)]) := by
  have inv := consistent.inv
  obtain ⟨given, last, isNone, free, once⟩ := pool_acquire inv acquired
  have own : (t.inserted o oid nid pool).objects o = ⟨newID oid, nid, 1, .closure nid⟩ := setBase_same _ _ _
  have others : ∀ o', o' ≠ o → (t.inserted o oid nid pool).objects o' = t.objects o' :=
    fun o' other => setBase_other _ other _
  have isNids : ∀ nid', (t.inserted o oid nid pool).nids nid' =
      if nid' = nid then some o else t.nids nid' := by
    intro nid'
    simp only [Table.inserted, Table.setBase, Function.update_apply]
  obtain ⟨dead, never⟩ : (t.objects o).refCount = 0 ∧ t.cleanups o = 0 := by
    cases inv.phase o with
    | fresh zero _ never => exact ⟨by rw [zero]; rfl, never⟩
    | active _ _ given => exact absurd fresh (Nat.one_le_iff_ne_zero.mp given.1)
    | done _ _ _ given => exact absurd fresh given
  constructor
  · refine inv.change last (fun o' other => ⟨others o' other, rfl, Iff.rfl, fun nid' => ?_⟩)
      (.active (.inl ?_) (by rw [own]) (by rwa [own]) never) (by simp) (fun nid' => ?_)
      (fun nid' mem => ?_) once
    · rw [isNids]
      split
      · next same => simp [same, isNone, Ne.symm other]
      · rfl
    · simp [Table.Live, own]
    · rw [Table.Live, own, isNids]
      split
      · next same => simp [same]
      · next other =>
        refine iff_of_false (fun isFound => ?_) fun isBoth => other isBoth.1.symm
        have used := ((inv.found nid' o).mp isFound).2
        simp [Table.Live, dead] at used
    · obtain ⟨wasFree, other⟩ := free nid' mem
      obtain ⟨low, high, isNone'⟩ := inv.free nid' wasFree
      rw [isNids, if_neg other]
      exact ⟨low, high.trans last, isNone'⟩
  · intro o'
    by_cases same : o' = o
    · subst same
      rw [own]
      exact Nat.one_lt_two_pow (Nat.succ_ne_zero 63)
    · rw [others o' same]
      exact consistent.small o'
  · rw [standing_snoc, stand_insert, ← consistent.ids]
    simp only [Table.inserted, Table.setBase]
  · intro o'
    rw [inserted_snoc, consistent.inserted]
    by_cases same : o' = o
    · subst same
      rw [own]
      exact iff_of_true (Or.inr ⟨_, rfl⟩) (Nat.one_le_iff_ne_zero.mp given.1)
    · rw [others o' same]
      simp [same]

theorem insert_consistent (consistent : Consistent t log) (o : O) (oid : Option String) :
    (t.insert kind o oid).Yields fun (t', err) =>
      Consistent t' (log ++ [(.insert o oid, err)]) := by
  have failed : ∀ err, Consistent t (log ++ [(.insert o oid, some err)]) := by
    intro err
    refine consistent.refused ?_ nofun
    cases oid <;> rfl
  cases oid with
  | none => exact .pure (failed _)
  | some oid =>
    rw [Table.insert]
    dsimp only
    split
    · exact .pure (failed _)
    split
    · exact .pure (failed _)
    next given =>
    split
    · exact .pure (failed _)
    split
    · next err _ =>
      have releases : Releases (fun t o => Table.release kind t o false) (t.pool.last + 1) :=
        fun _ _ o inv _ => release_spec inv o
      refine (cleanupComposite_spec releases o consistent.inv
        (Nat.lt_succ_of_le t.alive_card)).bind fun t' ⟨inv, eased⟩ => .pure ?_
      exact consistent.eased inv eased nofun
    · next acquired =>
      exact .pure (inserted_consistent consistent (not_not.mp given) acquired)

omit [DecidableEq O] in
theorem inv_ids (inv : t.Inv ∅) (ids : IDs O) : Table.Inv ∅ { t with ids } where
  phase := fun o => (inv.phase o).transfer rfl rfl Iff.rfl (Nat.le_refl _)
  spent := inv.spent
  found := inv.found
  free := inv.free
  once := inv.once

theorem remove_consistent (consistent : Consistent t log) (oid : Option String) :
    (t.remove kind false oid).Yields fun (t', err) =>
      Consistent t' (log ++ [(.remove oid, err)]) := by
  cases oid with
  | none => exact .pure (consistent.refused rfl nofun)
  | some oid =>
    rw [Table.remove]
    cases isFound : t.ids (newID oid) with
    | none =>
      exact .pure (consistent.refused (t.ids.put_none isFound) nofun)
    | some o =>
      apply (release_spec (inv_ids consistent.inv _) o).imp
      intro (t', err) ⟨inv, eased⟩
      exact consistent.eased inv eased nofun

theorem run_consistent (consistent : Consistent t log) {op : Op O} (counts : op.Counts t) :
    (op.run kind t).Yields fun (t', err) => Consistent t' (log ++ [(op, err)]) := by
  cases op with
  | insert o oid => exact insert_consistent consistent o oid
  | acquireObject o =>
    exact .pure (acquireBase_consistent consistent counts (fun _ => rfl) nofun)
  | acquire oid =>
    cases oid with
    | none => exact .pure (consistent.refused rfl nofun)
    | some oid =>
      rw [Op.run, Table.acquire]
      cases isFound : t.ids (newID oid) with
      | none => exact .pure (consistent.refused rfl nofun)
      | some o =>
        exact .pure (acquireBase_consistent consistent (counts o isFound) (fun _ => rfl) nofun)
  | release o =>
    apply (release_spec consistent.inv o).imp
    intro (t', err) ⟨inv, eased⟩
    exact consistent.eased inv eased nofun
  | remove oid => exact remove_consistent consistent oid

end Steps

section Whole

theorem acquireBase_overflow {t : Table O} {log log' : Log O} (consistent : Consistent t log) {o : O}
    (full : (t.objects o).refCount = 2 ^ 64 - 1) : ¬ Orderly (t.acquireBase o).1 log' := by
  intro orderly
  have counted : (t.objects o).refCount ≠ 0 := by
    rw [full]
    decide
  have acquired : (t.acquireBase o).1 = t.setBase o { t.objects o with refCount := 0 } := by
    rw [Table.acquireBase]
    have wraps : (2 ^ 64 - 1 + 1) % 2 ^ 64 = 0 := by decide
    dsimp only
    rw [if_neg counted, full, wraps]
  rw [acquired] at orderly
  have isFound : t.nids (t.objects o).nid = some o :=
    (consistent.inv.found _ o).mpr ⟨rfl, Or.inl (Nat.pos_of_ne_zero counted)⟩
  have findNID : (t.setBase o { t.objects o with refCount := 0 }).findNID (t.objects o).nid =
      .ok o := by
    have sameNids : (t.setBase o { t.objects o with refCount := 0 }).nids = t.nids := rfl
    rw [Table.findNID, sameNids, isFound]
  have live := ((orderly.findNID _ o).mp findNID).1
  rw [Table.Live, setBase_same] at live
  exact Nat.lt_irrefl 0 live

theorem run_overflow {t t' : Table O} {log log' : Log O} (consistent : Consistent t log) {op : Op O}
    {err : Option String} (miscounts : ¬ op.Counts t) (ran : op.run kind t = .ok (t', err)) :
    ¬ Orderly t' log' := by
  cases op with
  | acquireObject o =>
    have isTable : (t.acquireBase o).1 = t' := congrArg Prod.fst (Outcome.ok.inj ran)
    rw [← isTable]
    exact acquireBase_overflow consistent (not_not.mp miscounts)
  | acquire oid =>
    cases oid with
    | none => exact absurd trivial miscounts
    | some oid =>
      simp only [Op.Counts, not_forall, not_not] at miscounts
      obtain ⟨o, isFound, full⟩ := miscounts
      have isTable : (t.acquire (some oid)).1 = t' := congrArg Prod.fst (Outcome.ok.inj ran)
      rw [← isTable, Table.acquire, isFound]
      exact acquireBase_overflow consistent full
  | _ => exact absurd trivial miscounts

theorem runs_snoc (s : Table O × Log O) (ops : List (Op O)) (op : Op O) :
    runs kind s (ops ++ [op]) = (runs kind s ops >>= fun s => runs kind s [op]) := by
  induction ops generalizing s with
  | nil => rfl
  | cons first rest ih =>
    obtain ⟨t, log⟩ := s
    rw [List.cons_append, runs, runs]
    cases first.run kind t with
    | ok next =>
      obtain ⟨t', err⟩ := next
      exact ih _
    | _ => rfl

theorem runs_consistent {ops : List (Op O)}
    (counts : ∀ before op, before ++ [op] <+: ops →
      (runs kind (start O) before).Whenever fun s => op.Counts s.1) :
    (runs kind (start O) ops).Yields fun s => Consistent s.1 s.2 := by
  induction ops using List.reverseRecOn with
  | nil => exact .pure (start_consistent O)
  | append_singleton ops op ih =>
    rw [runs_snoc]
    have before := ih fun before op' isPrefix =>
      counts before op' (isPrefix.trans (List.prefix_append _ _))
    obtain ⟨⟨t, log⟩, ran, consistent⟩ := before
    rw [ran]
    apply (run_consistent consistent (counts ops op (List.prefix_refl _) _ ran)).bind
    intro (t', err) holds
    exact .pure holds

theorem lifetime_iff (kind : Kind O) (ops : List (Op O)) :
    (∀ before, before <+: ops → (runs kind (start O) before).Yields fun s => Orderly s.1 s.2) ↔
      ∀ before op, before ++ [op] <+: ops →
        (runs kind (start O) before).Whenever fun s => op.Counts s.1 := by
  constructor
  · intro orderly before
    -- The calls before the first that overflows a counter leave a consistent state.
    induction length : before.length using Nat.strong_induction_on generalizing before with
    | _ _ earlier =>
    intro op isPrefix (t, log) ran
    by_contra miscounts
    have yields : (runs kind (start O) before).Yields fun s => Consistent s.1 s.2 := by
      apply runs_consistent
      intro before' op' isPrefix'
      have shorter := isPrefix'.length_le
      rw [List.length_append, List.length_singleton] at shorter
      apply earlier before'.length (by omega) before' rfl op'
      exact isPrefix'.trans ((List.prefix_append _ _).trans isPrefix)
    have consistent : Consistent t log := yields.whenever _ ran
    obtain ⟨s, ran', isOrderly⟩ := orderly _ isPrefix
    rw [runs_snoc, ran, Outcome.ok_bind, runs] at ran'
    obtain ⟨⟨t', err⟩, isRun, isEnd⟩ := Outcome.bind_eq_ok.mp ran'
    cases isEnd
    exact run_overflow consistent miscounts isRun isOrderly
  · intro counts before isPrefix
    apply (runs_consistent fun before' op' isPrefix' =>
      counts before' op' (isPrefix'.trans isPrefix)).imp
    intro s consistent
    exact consistent.orderly

theorem lifetime_in_order (kind : Kind O) (ops : List (Op O))
    (room : ∀ before op, before ++ [op] <+: ops →
      (runs kind (start O) before).Whenever fun s => op.Counts s.1) :
    ∀ before, before <+: ops → (runs kind (start O) before).Yields fun s => Orderly s.1 s.2 :=
  (lifetime_iff kind ops).mpr room

def single : Kind Unit where
  composite := fun _ => false
  held := fun _ _ => []
  string := fun _ _ => ""

def oneLife : List (Op Unit) :=
  [.insert () (some "a"), .acquire (some "a"), .remove (some "a"), .release (), .insert () (some "a")]

theorem lifetime_in_order_oneLife :
    (runs single (start Unit) oneLife).Yields fun s => Orderly s.1 s.2 := by
  refine lifetime_in_order single oneLife (fun before op isPrefix s ran => ?_) oneLife List.prefix_rfl
  obtain ⟨rest, isOps⟩ := isPrefix
  rcases before with _ | ⟨first, _ | ⟨second, before⟩⟩
  · cases isOps
    trivial
  · cases isOps
    cases ran
    rintro ⟨⟩ -
    decide
  · have later : op ∈ oneLife.drop 2 := by
      rw [← isOps]
      simp
    simp only [oneLife, List.drop_succ_cons, List.drop_zero, List.mem_cons, List.not_mem_nil,
      or_false] at later
    rcases later with rfl | rfl | rfl <;> trivial

end Whole

end Lemming.Object

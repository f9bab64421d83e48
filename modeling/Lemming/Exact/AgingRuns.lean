import Lemming.Exact.Expiry

set_option autoImplicit false

namespace Lemming.Exact

open Packet Shared

variable {A : Type}

section Steps

variable {env : Env A} {b : Bridge A} {ids stales : List Nat} {now : Int}

theorem run_timely (table : b.table.Timetable ids stales now) {op : Op A} (safe : op.Safe env b) :
    (op.run env b now).Yields fun s => ∀ last,
      Table.Timely b.table s.1.table ids stales now last
        (Table.use env b.table.desc last ((op, now), s.2)) (Table.Calm op) := by
  cases op with
  | addEntry ed actions =>
    apply (table.addEntry env ed safe).bind
    intro s timely
    exact .pure timely
  | removeEntry ed =>
    apply (table.removeEntry env ed).bind
    intro s timely
    exact .pure timely
  | clear =>
    apply (table.clear safe).bind
    intro t' cleared
    exact .pure fun last => ⟨cleared.1, [], [], cleared.2, fun _ calm => calm.elim⟩
  | process packet =>
    apply (table.process env packet).bind
    intro s timely
    exact .pure timely
  | learn packet =>
    apply (learnPacket_table ⟨ids, stales, table.toConsistent⟩ packet).imp
    intro s same last
    rw [same]
    exact table.unchanged last _
  | processLearn port =>
    rw [Op.run, Bridge.processLearn]
    split
    · exact .pure fun last => table.unchanged last _
    · next request learn _ =>
      split
      · exact .pure fun last => table.unchanged last _
      · next actions _ =>
        have vacant := Table.vacant_learned (t := b.table) env [(Bridge.macDst, request.mac)] actions
        refine ((table.addEntry env _ vacant).bind fun s timely => .pure ?_).bind fun b' holds => .pure holds
        intro last
        obtain ⟨desc, ids', stales', table', -⟩ := timely last
        exact ⟨desc, ids', stales', table', fun _ calm => calm.elim⟩
  | age later =>
    apply (table.age now later).bind
    rintro s ⟨desc, entries, ids', stales', table', inside, listed, timed⟩
    refine .pure fun last => ⟨desc, ids', stales', table', fun timeout _ fresh => ?_⟩
    exact fresh.sublist entries timed (fun id member => ((inside id).mp member).1) listed

end Steps

section Runs

variable (env : Env A)

def lastUse (desc : List FieldID) (uses : List ((Op A × Int) × Option String)) : Key → Option Int :=
  uses.foldl (Table.use env desc) fun _ => none

def AllSafe (start : Bridge A × Log A) (ops : List (Op A × Int)) : Prop :=
  ∀ before op now, before ++ [(op, now)] <+: ops →
    (runs env start before).Whenever fun s => op.Safe env s.1

variable {env} {desc : List FieldID} {actions : A} {timeout : Nat} {ops : List (Op A × Int)}

theorem AllSafe.front {start : Bridge A × Log A} {before : List (Op A × Int)}
    (safe : AllSafe env start ops) (isPrefix : before <+: ops) : AllSafe env start before :=
  fun before' op now isPrefix' => safe before' op now (isPrefix'.trans isPrefix)

theorem new_timed (aged : 0 < timeout) :
    (Table.new desc actions timeout).stale.map StaleList.timeout =
      some ((timeout : Int) * 1000000000) := by
  have positive : timeout ≠ 0 := Nat.pos_iff_ne_zero.mp aged
  simp [Table.new, positive]

theorem runs_timetable (safe : AllSafe env (start desc actions timeout) ops)
    (ticks : (ops.map Prod.snd).Pairwise (· ≤ ·)) {clock : Int}
    (passed : ∀ step ∈ ops, step.2 ≤ clock) :
    (runs env (start desc actions timeout) ops).Yields fun s => s.1.table.desc = desc ∧
      s.2.length = ops.length ∧ ∃ ids stales, s.1.table.Timetable ids stales clock ∧
        (0 < timeout → (∀ step ∈ ops, Table.Calm step.1) →
          s.1.table.Fresh ids stales ((timeout : Int) * 1000000000)
            (lastUse env desc (ops.zip (s.2.map Prod.snd)))) := by
  induction ops using List.reverseRecOn generalizing clock with
  | nil =>
    refine .pure ⟨rfl, rfl, [], [], ⟨Table.new_consistent desc actions timeout, .nil, by simp⟩, ?_⟩
    intro aged _
    exact ⟨new_timed aged, List.Subset.refl [], by simp⟩
  | append_singleton ops last ih =>
    obtain ⟨op, now⟩ := last
    rw [List.map_append, List.pairwise_append] at ticks
    have sooner : ∀ step ∈ ops, step.2 ≤ now := fun step member =>
      ticks.2.2 step.2 (List.mem_map_of_mem member) now (by simp)
    have isNow : now ≤ clock := passed (op, now) (by simp)
    obtain ⟨s, ran, isDesc, count, ids, stales, table, fresh⟩ :=
      ih (safe.front (List.prefix_append _ _)) ticks.1 sooner
    rw [runs_snoc, ran, Outcome.ok_bind]
    have safeNow := safe ops op now (List.prefix_refl _) s ran
    apply (run_timely table safeNow).bind
    intro s' timely
    obtain ⟨desc', ids', stales', table', fresh'⟩ :=
      timely (lastUse env desc (ops.zip (s.2.map Prod.snd)))
    refine .pure ⟨desc'.trans isDesc, by simp [count], ids', stales', table'.later isNow, ?_⟩
    intro aged calm
    have before := fresh aged fun step member => calm step (List.mem_append_left _ member)
    have after := fresh' _ (calm (op, now) (by simp)) before
    rw [isDesc] at after
    dsimp only
    rw [List.map_append, List.zip_append (by simp [count]), lastUse, List.foldl_append]
    exact after

theorem calm_safe {step : Op A × Int} (calm : Table.Calm step.1) (b : Bridge A) :
    step.1.Safe env b := by
  obtain ⟨op, now⟩ := step
  cases op with
  | addEntry ed actions =>
    intro ex key acts isDesc _ _ isStatic
    cases (calm ex isDesc).symm.trans isStatic
  | clear => exact calm.elim
  | removeEntry | process | learn | processLearn | age => trivial

theorem exists_clock (ops : List (Op A × Int)) : ∃ clock, ∀ step ∈ ops, step.2 ≤ clock := by
  induction ops with
  | nil => exact ⟨0, by simp⟩
  | cons first rest ih =>
    obtain ⟨clock, passed⟩ := ih
    refine ⟨max first.2 clock, fun step member => ?_⟩
    rcases List.mem_cons.mp member with rfl | later
    · exact le_max_left _ _
    · exact (passed step later).trans (le_max_right _ _)

theorem aging_exact (env : Env A) (desc : List FieldID) (actions : A) (timeout : Nat)
    (aged : 0 < timeout) (ops : List (Op A × Int)) (calm : ∀ step ∈ ops, Table.Calm step.1)
    (ticks : (ops.map Prod.snd).Pairwise (· ≤ ·)) (now later : Int) :
    (runs env (start desc actions timeout) ops).Yields fun s =>
      (s.1.table.age now later).Yields fun r => ∀ key id,
        r.1.find key = .ok (some id) ↔ s.1.table.find key = .ok (some id) ∧
          ∃ time, lastUse env desc (ops.zip (s.2.map Prod.snd)) key = some time ∧
            ¬ time + (timeout : Int) * 1000000000 < now := by
  have safe : AllSafe env (start desc actions timeout) ops := by
    rintro before op now' ⟨rest, rfl⟩ s -
    exact calm_safe (calm (op, now') (by simp)) s.1
  obtain ⟨clock, passed⟩ := exists_clock ops
  apply (runs_timetable safe ticks passed).imp
  rintro s ⟨-, -, ids, stales, table, isFresh⟩
  have fresh := isFresh aged calm
  apply (table.age now later).imp
  rintro r ⟨-, entries, ids', stales', table', inside, -, -⟩ key id
  have sameKey : r.1.keyAt id = s.1.table.keyAt id := by
    rw [Table.keyAt, Table.contentAt, entries, Table.keyAt, Table.contentAt]
  rw [table'.chains.find_iff, table.chains.find_iff, sameKey, inside]
  constructor
  · rintro ⟨⟨member, notStale⟩, isKey⟩
    obtain ⟨entry, time, isEntry, isLast, isDue⟩ := fresh.used id member
    have left := notStale (fresh.transient member)
    rw [Table.due_of_entries isEntry, isDue] at left
    cases (Table.keyAt_of_entries isEntry).symm.trans isKey
    exact ⟨⟨member, isKey⟩, time, isLast, Int.not_lt.mpr left⟩
  · rintro ⟨⟨member, isKey⟩, time, isLast, notStale⟩
    refine ⟨⟨member, fun _ => ?_⟩, isKey⟩
    obtain ⟨entry, time', isEntry, isLast', isDue⟩ := fresh.used id member
    cases (Table.keyAt_of_entries isEntry).symm.trans isKey
    cases isLast.symm.trans isLast'
    rw [Table.due_of_entries isEntry, isDue]
    exact Int.not_lt.mp notStale

end Runs

section AgingList

namespace Table

def Present (t : Table A) (id : Nat) : Prop := ∃ key, t.find key = .ok (some id)

-- The stale list is well linked, holds each transient entry of the hash table once and nothing else,
-- and is in the order in which they get stale.
structure ListMatches (t : Table A) (stales : List Nat) : Prop where
  linked : t.Ages stales
  members : ∀ id, id ∈ stales ↔ t.Present id ∧ t.isTransient id = true
  ordered : stales.Pairwise fun first second => t.due first ≤ t.due second

variable {t : Table A} {ids stales : List Nat} {clock : Int}

theorem Timetable.listMatches (table : t.Timetable ids stales clock) : t.ListMatches stales := by
  refine ⟨table.ages, fun id => ?_, table.sorted⟩
  constructor
  · intro listed
    have member := table.held listed
    obtain ⟨content, isContent⟩ := table.chains.present id member
    have isKey : t.keyAt id = some content.1 := by rw [keyAt, isContent]; rfl
    exact ⟨⟨_, table.chains.find_iff.mpr ⟨member, isKey⟩⟩, (table.flags id member).mpr listed⟩
  · rintro ⟨⟨key, found⟩, transient⟩
    exact (table.flags id (table.chains.find_iff.mp found).1).mp transient

theorem Ages.unique {stales' : List Nat} (first : t.Ages stales) (second : t.Ages stales') :
    stales = stales' := by
  cases isStale : t.stale with
  | none => rw [first.unused isStale, second.unused isStale]
  | some l => exact (first.listed l isStale).unique (second.listed l isStale)

end Table

variable {env : Env A} {b : Bridge A} {ids stales : List Nat} {now : Int}

-- The entry leaves the stale list, and nothing says that it is no longer transient.
theorem static_over_transient (table : b.table.Timetable ids stales now)
    {ed : Option ExactEntryDesc} {actions : Except String A}
    (taken : ¬ Table.Vacant env ed b.table actions) :
    (b.table.addEntry env ed actions now).Whenever fun s => ¬ ∃ stales', s.1.ListMatches stales' := by
  unfold Table.Vacant at taken
  push Not at taken
  obtain ⟨ex, key, acts, rfl, isKey, rfl, isStatic, isView⟩ := taken
  rcases table.toConsistent.find_cases key with absent | ⟨id, entry, rfl, found⟩
  · rw [Table.view, absent] at isView
    cases isView
  rw [found.view] at isView
  have transient : entry.transient = true := Option.some.inj isView
  cases isStale : b.table.stale with
  | none =>
    have listed := table.flags id found.member
    rw [Table.isTransient_of_entries found.isEntry, table.ages.unused isStale] at listed
    cases listed.mp transient
  | some l =>
    have placed := table.toConsistent.setActions found acts
    have member : id ∈ ids.insert id := List.mem_insert_self
    obtain ⟨t', l', isTable, -, -, alike, -, ages⟩ := placed.consistent.unlist_erase member isStale
    have added : b.table.addEntry env (some ex) (.ok acts) now = .ok (t', none) := by
      simp only [Table.addEntry, isKey, found.found, Outcome.ok_bind, found.isEntry, isStatic,
        Bool.false_and, Bool.false_eq_true, if_false, Table.relist]
      rw [show (b.table.modify id fun entry => { entry with actions := acts }).stale = some l from
        isStale]
      dsimp only
      rw [isTable]
      rfl
    rintro s run ⟨stales', matching⟩
    rw [added] at run
    cases run
    have gone : id ∉ stales.erase id := table.ages.distinct.not_mem_erase
    rw [ages.unique matching.linked] at gone
    apply gone
    apply (matching.members id).mpr
    constructor
    · refine ⟨entry.key, (placed.consistent.chains.alike alike).find_iff.mpr ⟨member, ?_⟩⟩
      rw [Table.keyAt, alike.content, ← Table.keyAt, Table.keyAt_of_entries placed.own]
    · rw [alike.isTransient, Table.isTransient_of_entries placed.own]
      exact transient

-- The hash table is empty and the stale list is not.
theorem clear_over_transient (table : b.table.Timetable ids stales now)
    (busy : b.table.stale.bind StaleList.head ≠ none) :
    b.table.clear.Whenever fun t' => ¬ ∃ stales', t'.ListMatches stales' := by
  rw [table.chains.clear]
  apply Outcome.Whenever.pure
  rintro ⟨stales', matching⟩
  apply busy
  have empty : stales' = [] := by
    apply List.eq_nil_iff_forall_not_mem.mpr
    intro id listed
    obtain ⟨⟨key, found⟩, -⟩ := (matching.members id).mp listed
    have chains : Table.Chains { b.table with hash := ∅ } [] := .nil rfl
    exact List.not_mem_nil (chains.find_iff.mp found).1
  subst empty
  cases isStale : b.table.stale with
  | none => rfl
  | some l => exact (matching.linked.listed l isStale).head_eq

theorem run_unsafe (table : b.table.Timetable ids stales now) {op : Op A}
    (harmful : ¬ op.Safe env b) :
    (op.run env b now).Whenever fun s => ¬ ∃ stales', s.1.table.ListMatches stales' := by
  cases op with
  | addEntry ed actions =>
    refine (static_over_transient table harmful).bind fun s broken => ?_
    exact .pure broken
  | clear =>
    refine (clear_over_transient table harmful).bind fun s broken => ?_
    exact .pure broken
  | removeEntry | process | learn | processLearn | age => exact absurd trivial harmful

theorem aging_list_matches_iff (env : Env A) (desc : List FieldID) (actions : A) (timeout : Nat)
    (ops : List (Op A × Int)) (ticks : (ops.map Prod.snd).Pairwise (· ≤ ·)) :
    (∀ before, before <+: ops → (runs env (start desc actions timeout) before).Yields fun s =>
      ∃ stales, s.1.table.ListMatches stales) ↔ AllSafe env (start desc actions timeout) ops := by
  constructor
  · intro matching
    induction ops using List.reverseRecOn with
    | nil =>
      intro before op now isPrefix
      have short := isPrefix.length_le
      simp at short
    | append_singleton ops last ih =>
      obtain ⟨lastOp, lastNow⟩ := last
      rw [List.map_append, List.pairwise_append] at ticks
      have sooner : ∀ step ∈ ops, step.2 ≤ lastNow := fun step member =>
        ticks.2.2 step.2 (List.mem_map_of_mem member) lastNow (by simp)
      have safe := ih ticks.1 fun before isPrefix =>
        matching before (isPrefix.trans (List.prefix_append _ _))
      intro before op now isPrefix s ran
      rcases List.prefix_concat_iff.mp isPrefix with whole | inner
      · -- The last operation is done in a state that has its timetable.
        obtain ⟨rfl, isLast⟩ := List.append_inj' whole rfl
        cases isLast
        by_contra harmful
        obtain ⟨s', ran', -, -, ids, stales, table, -⟩ := runs_timetable safe ticks.1 sooner
        cases ran'.symm.trans ran
        obtain ⟨after, ranAll, matches'⟩ := matching _ (List.prefix_refl _)
        rw [runs_snoc, ran, Outcome.ok_bind] at ranAll
        obtain ⟨result, step, rest⟩ := Outcome.bind_eq_ok.mp ranAll
        cases rest
        exact run_unsafe table harmful _ step matches'
      · exact safe before op now inner s ran
  · intro safe before isPrefix
    have ticks' : (before.map Prod.snd).Pairwise (· ≤ ·) :=
      ticks.sublist (isPrefix.sublist.map _)
    obtain ⟨clock, passed⟩ := exists_clock before
    apply (runs_timetable (safe.front isPrefix) ticks' passed).imp
    rintro s ⟨-, -, ids, stales, table, -⟩
    exact ⟨stales, table.listMatches⟩

def learnedOps : List (Op Nat × Int) :=
  [(.addEntry (some ⟨[(Bridge.macDst, [1])], true⟩) (.ok 5), 1),
    (.process fun id => (packetOf 3 1 id).toOption, 2),
    (.removeEntry (some ⟨[(Bridge.macDst, [2])], true⟩), 3), (.age 0, 1000000002)]

theorem aging_exact_learned :
    (runs octets (start [Bridge.macDst] 0 1) learnedOps).Yields fun s =>
      (s.1.table.age 1000000003 0).Yields fun r => ∀ key id,
        r.1.find key = .ok (some id) ↔ s.1.table.find key = .ok (some id) ∧
          ∃ time, lastUse octets [Bridge.macDst] (learnedOps.zip (s.2.map Prod.snd)) key = some time ∧
            ¬ time + ((1 : Nat) : Int) * 1000000000 < 1000000003 := by
  refine aging_exact octets [Bridge.macDst] 0 1 Nat.zero_lt_one learnedOps ?_ (by decide) _ _
  intro step member
  simp only [learnedOps, List.mem_cons, List.not_mem_nil, or_false] at member
  rcases member with rfl | rfl | rfl | rfl
  · intro ex isDesc
    cases isDesc
    rfl
  all_goals trivial

theorem aging_list_matches_calm :
    (∀ before, before <+: calmOps → (runs octets (start [Bridge.macDst] 0 1) before).Yields fun s =>
      ∃ stales, s.1.table.ListMatches stales) ↔
      AllSafe octets (start [Bridge.macDst] 0 1) calmOps :=
  aging_list_matches_iff octets [Bridge.macDst] 0 1 calmOps (by decide)

-- A transient entry that is added again as a static one is still marked as transient, and is not in the
-- stale list. A transient entry that is cleared is in the stale list, and not in the hash table.
theorem aging_list_diverges :
    (∃ s, runs octets (start [Bridge.macDst] 0 1)
        [(.addEntry (some ⟨[(Bridge.macDst, [1])], true⟩) (.ok 5), 0),
          (.addEntry (some ⟨[(Bridge.macDst, [1])], false⟩) (.ok 5), 1)] = .ok s ∧
      ¬ ∃ stales, s.1.table.ListMatches stales) ∧
    ∃ s, runs octets (start [Bridge.macDst] 0 1)
        [(.addEntry (some ⟨[(Bridge.macDst, [1])], true⟩) (.ok 5), 0), (.clear, 1)] = .ok s ∧
      ¬ ∃ stales, s.1.table.ListMatches stales := by
  constructor
  · refine ⟨_, rfl, ?_⟩
    rintro ⟨stales, matching⟩
    have listed : 0 ∈ stales := (matching.members 0).mpr ⟨⟨[1], rfl⟩, rfl⟩
    have head := (matching.linked.listed _ rfl).head_eq
    rw [List.head?_eq_none_iff.mp head.symm] at listed
    cases listed
  · refine ⟨_, rfl, ?_⟩
    rintro ⟨stales, matching⟩
    have head := (matching.linked.listed _ rfl).head_eq
    obtain ⟨⟨key, found⟩, -⟩ := (matching.members 0).mp (List.mem_of_head? head.symm)
    cases found

end AgingList

end Lemming.Exact

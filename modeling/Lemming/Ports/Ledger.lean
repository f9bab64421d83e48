import Lemming.Build.References
import Lemming.Ports.Group
import Lemming.Shared.Interleaving

set_option autoImplicit false

namespace Lemming.Ports

open Shared
open Object (Table Kind ID)
open Build

variable {O F : Type}

def owed (memberMap : GoMap ID (Member O)) : List O := memberMap.entries.flatMap fun m => m.2.refs

variable (actions : GoMap ID (List (Action O)))

def unused : List O :=
  actions.entries.flatMap fun a => refsAll a.2

def unusedAt (id : ID) : List O :=
  refsAll ((actions.lookup id).getD [])

theorem perm_nil_iff {first second : List O} (perm : first.Perm second) :
    first = [] ↔ second = [] := by
  rw [← List.length_eq_zero_iff, perm.length_eq, List.length_eq_zero_iff]

variable {memberMap : GoMap ID (Member O)}

theorem owed_insert {id : ID} (isNew : memberMap.lookup id = none) (m : Member O) :
    owed (memberMap.insert id m) = m.refs ++ owed memberMap := by
  rw [owed, AList.entries_insert_of_notMem (AList.lookup_eq_none.mp isNew)]
  rfl

theorem owed_erase {id : ID} {m : Member O} (found : memberMap.lookup id = some m) :
    (owed memberMap).Perm (m.refs ++ owed (memberMap.erase id)) :=
  (GoMap.perm_of_lookup found).flatMap_right _

theorem owed_again {id : ID} {m : Member O} (found : memberMap.lookup id = some m)
    (instances : Nat) :
    (owed (memberMap.insert id { m with instances })).Perm (owed memberMap) :=
  (owed_erase found).symm

theorem unused_erase (id : ID) :
    (unused actions).Perm (unusedAt actions id ++ unused (actions.erase id)) := by
  rw [unusedAt]
  cases found : actions.lookup id with
  | none =>
    have absent : (actions.erase id).entries = actions.entries :=
      List.kerase_of_notMem_keys (AList.lookup_eq_none.mp found)
    rw [unused, unused, absent]
    rfl
  | some a => exact (GoMap.perm_of_lookup found).flatMap_right _

theorem unused_insert (id : ID) (a : List (Action O)) :
    (unused (actions.insert id a) ++ unusedAt actions id).Perm (unused actions ++ refsAll a) := by
  have entries : unused (actions.insert id a) = refsAll a ++ unused (actions.erase id) := rfl
  have erased := unused_erase actions id
  rw [entries, List.append_assoc]
  exact ((List.perm_append_comm.trans erased.symm).append_left _).trans List.perm_append_comm

structure Group.Selected (p : Group O F) : Prop where
  listed : ∀ m ∈ p.members, p.memberMap.lookup m.1 = some m.2
  counted : ∀ id m, p.memberMap.lookup id = some m →
    p.members.countP (fun listed => listed.1 = id) = m.instances

theorem countP_replicated (on : Record O → Bool) (records : List (Record O)) :
    (records.flatMap fun m => List.replicate m.2.instances m).countP on =
      ((records.filter on).map fun m => m.2.instances).sum := by
  induction records with
  | nil => rfl
  | cons m rest ih =>
    rw [List.flatMap_cons, List.countP_append, ih, List.countP_replicate, List.filter_cons]
    split <;> simp

theorem recompute_selected (order : Shuffle (Record O)) (p : Group O F) :
    (p.recompute order).Selected := by
  constructor
  · intro m listed
    obtain ⟨entry, member, isEntry⟩ := List.mem_flatMap.mp listed
    cases List.eq_of_mem_replicate isEntry
    rw [Shuffle.mem_arrange] at member
    exact (List.mem_dlookup_iff p.memberMap.nodupKeys).mpr member
  · intro id m found
    have perm := (order.perm p.memberMap.entries).trans (GoMap.perm_of_lookup found)
    have others : ((p.memberMap.erase id).entries.filter fun m => m.1 = id) = [] := by
      refine List.filter_eq_nil_iff.mpr fun other member same => ?_
      obtain rfl := of_decide_eq_true same
      exact List.notMem_keys_kerase other.1 p.memberMap.nodupKeys (List.mem_keys_of_mem member)
    rw [Group.recompute, selection, countP_replicated, ((perm.filter _).map _).sum_eq,
      List.filter_cons_of_pos (by simp), others]
    rfl

section Cleanup

variable [DecidableEq O] (kind : Kind O)

theorem releaseRefs_append (t : Table O) (first second : List O) :
    releaseRefs kind t (first ++ second) =
      (releaseRefs kind t first >>= fun t => releaseRefs kind t second) := by
  induction first generalizing t with
  | nil => rfl
  | cons o rest ih => simp only [List.cons_append, releaseRefs, ih, bind_assoc]

theorem cleanupMembers_eq (t : Table O) (members : List (Record O)) :
    cleanupMembers kind t members = releaseRefs kind t (members.flatMap fun m => m.2.refs) := by
  induction members generalizing t with
  | nil => rfl
  | cons m rest ih => simp only [cleanupMembers, List.flatMap_cons, releaseRefs_append, ih]

theorem cleanupUnused_eq (t : Table O) (actions : List (Sigma fun _ : ID => List (Action O))) :
    cleanupUnused kind t actions = releaseRefs kind t (actions.flatMap fun a => refsAll a.2) := by
  induction actions generalizing t with
  | nil => rfl
  | cons a rest ih =>
    simp only [cleanupUnused, cleanup, List.flatMap_cons, releaseRefs_append, ih]

variable {t : Table O}

theorem releaseRefs_arranged {ι : Type} (order : Shuffle ι) {entries : List ι} {refs : ι → List O}
    (live : ∀ o ∈ entries.flatMap refs, (t.objects o).refCount ≠ 0) (rest : List O) :
    releaseRefs kind (raised t (entries.flatMap refs ++ rest)) ((order.arrange entries).flatMap refs) =
      .ok (raised t rest) := by
  have perm := (order.perm entries).flatMap_right refs
  rw [raised_perm t (perm.symm.append_right rest)]
  exact releaseRefs_raised kind (fun o member => live o (perm.mem_iff.mp member)) rest

theorem cleanupMembers_owed (order : Shuffle (Record O)) {memberMap : GoMap ID (Member O)}
    (live : ∀ o ∈ owed memberMap, (t.objects o).refCount ≠ 0) (rest : List O) :
    cleanupMembers kind (raised t (owed memberMap ++ rest)) (order.arrange memberMap.entries) =
      .ok (raised t rest) := by
  rw [cleanupMembers_eq]
  exact releaseRefs_arranged kind order live rest

end Cleanup

structure Holding (t₀ t : Table O) [DecidableEq O] (refs : List O) (n : Nat) : Prop where
  ready : Ready t₀ refs n
  table : t = raised t₀ refs

section Holding

variable [DecidableEq O] (kind : Kind O) {kinds : O → ObjectKind} (texts : Texts) {t₀ t : Table O}
  {refs : List O}

variable {n : Nat}

theorem Holding.perm {more : List O} (holding : Holding t₀ t refs n) (perm : refs.Perm more) :
    Holding t₀ t more n where
  ready := {
    live := fun o member => holding.ready.live o (perm.mem_iff.mpr member)
    room := fun o => perm.length_eq ▸ holding.ready.room o }
  table := holding.table.trans (raised_perm t₀ perm)

theorem Holding.newActions_some {descs : List ActionDesc} {built : List O}
    (holding : Holding t₀ t refs (takesAll descs + n)) (isBuilt : refsOfAll kinds t₀ descs = some built) :
    ∃ t' actions, newActions kind kinds texts t descs = .ok (t', .ok actions) ∧
      refsAll actions = built ∧ Holding t₀ t' (refs ++ built) n := by
  have builds := newActionsLoop_builds kind kinds texts refs [] descs (by
    simpa [refsAll] using holding.ready.less (Nat.le_add_right _ n))
  rw [isBuilt] at builds
  obtain ⟨actions, run, same⟩ := builds
  simp only [refsAll, List.append_nil, List.nil_append] at run same
  have onward := holding.ready.take (refsOfAll_bounded kinds t₀ descs) isBuilt
  exact ⟨_, actions, by rw [newActions, holding.table, run], same, ⟨onward, rfl⟩⟩

theorem Holding.newActions_none {descs : List ActionDesc}
    (holding : Holding t₀ t refs (takesAll descs + n)) (isBuilt : refsOfAll kinds t₀ descs = none) :
    ∃ err, newActions kind kinds texts t descs =
      .ok (raised t₀ (refs ++ spilledAll kinds t₀ descs), .error err) := by
  have builds := newActionsLoop_builds kind kinds texts refs [] descs (by
    simpa [refsAll] using holding.ready.less (Nat.le_add_right _ n))
  rw [isBuilt] at builds
  obtain ⟨err, run⟩ := builds
  simp only [refsAll, List.append_nil] at run
  exact ⟨err, by rw [newActions, holding.table, run]⟩

theorem Holding.acquire_found {ref : ObjectRef} {o : O} (holding : Holding t₀ t refs (1 + n))
    (found : fwdport.finds kinds t₀ ref = some o) :
    ∃ t', fwdport.acquire kind kinds texts t ref = .ok (t', .ok o) ∧ Holding t₀ t' (refs ++ [o]) n := by
  have ready := holding.ready
  have bounded : Bounded t₀ (some [o]) 1 := by
    intro one isOne
    cases isOne
    simpa using (Package.finds_spec found).1
  refine ⟨_, ?_, ready.take bounded rfl, rfl⟩
  rw [Nat.add_comm] at ready
  rw [holding.table, ready.acquire_found found]

theorem Holding.acquire_none {ref : ObjectRef} (holding : Holding t₀ t refs (1 + n))
    (absent : fwdport.finds kinds t₀ ref = none) :
    ∃ err, fwdport.acquire kind kinds texts t ref = .ok (t, .error err) := by
  have ready := holding.ready
  rw [Nat.add_comm] at ready
  rw [holding.table]
  exact ready.acquire_none kind texts absent

end Holding

section Loops

variable [DecidableEq O] (kind : Kind O) (kinds : O → ObjectKind) (print : Printing O F) {t₀ : Table O}

-- No list of actions with references is followed by another one for the same port.
def NoneReplaced (t₀ : Table O) (selectActions : List (ObjectRef × List ActionDesc)) : Prop :=
  selectActions.Pairwise fun earlier later =>
    memberID earlier.1 = memberID later.1 → refsOfAll kinds t₀ earlier.2 = some []

omit [DecidableEq O] in
theorem unusedAt_insert (actions : GoMap ID (List (Action O))) (id other : ID) (a : List (Action O)) :
    unusedAt (actions.insert id a) other = if other = id then refsAll a else unusedAt actions other := by
  by_cases same : other = id
  · subst same
    simp [unusedAt]
  · simp [unusedAt, same]

omit [DecidableEq O] in
theorem noneLost_cons {pid : ObjectRef} {desc : List ActionDesc} {a : List (Action O)}
    (isBuilt : refsOfAll kinds t₀ desc = some (refsAll a)) (actions : GoMap ID (List (Action O)))
    (lost : List O) (rest : List (ObjectRef × List ActionDesc)) :
    (lost ++ unusedAt actions (memberID pid) = [] ∧
      (∀ sa ∈ rest, unusedAt (actions.insert (memberID pid) a) (memberID sa.1) = []) ∧
      NoneReplaced kinds t₀ rest) ↔
    (lost = [] ∧ (∀ sa ∈ (pid, desc) :: rest, unusedAt actions (memberID sa.1) = []) ∧
      NoneReplaced kinds t₀ ((pid, desc) :: rest)) := by
  rw [NoneReplaced, NoneReplaced, List.pairwise_cons, List.forall_mem_cons, List.append_eq_nil_iff]
  simp only [isBuilt, Option.some.injEq, unusedAt_insert]
  constructor
  · rintro ⟨⟨noLost, first⟩, others, pairs⟩
    refine ⟨noLost, ⟨first, fun sa member => ?_⟩, fun later member same => ?_, pairs⟩
    · by_cases same : memberID sa.1 = memberID pid
      · exact same ▸ first
      · simpa [same] using others sa member
    · simpa [same] using others later member
  · rintro ⟨noLost, ⟨first, others⟩, replaced, pairs⟩
    refine ⟨⟨noLost, first⟩, fun sa member => ?_, pairs⟩
    split
    · next same => exact replaced sa member same.symm
    · exact others sa member

theorem replaced_perm (base lost more : List O) (actions : GoMap ID (List (Action O))) (id : ID)
    (a : List (Action O)) :
    (base ++ unused actions ++ lost ++ (refsAll a ++ more)).Perm
      (base ++ unused (actions.insert id a) ++ (lost ++ unusedAt actions id) ++ more) := by
  rw [List.perm_iff_count]
  intro o
  have counts := (unused_insert actions id a).count_eq o
  simp only [List.count_append] at counts ⊢
  omega

theorem selectActionsLoop_spec (base : List O) {n : Nat} :
    ∀ (selectActions : List (ObjectRef × List ActionDesc)) (t : Table O)
      (actions : GoMap ID (List (Action O))) (lost : List O),
      Holding t₀ t (base ++ unused actions ++ lost)
        (takesChoices (selectActions.map Prod.snd) + n) →
      match refsOfChoices kinds t₀ (selectActions.map Prod.snd) with
      | none => ∃ err lost', selectActionsLoop kind kinds print t actions selectActions =
            .ok (raised t₀ (base ++ lost'), .error err) ∧
          lost'.Perm (unused actions ++ lost ++ spilledChoices kinds t₀ (selectActions.map Prod.snd))
      | some built => ∃ t' actions' lost', selectActionsLoop kind kinds print t actions selectActions =
            .ok (t', .ok actions') ∧
          Holding t₀ t' (base ++ unused actions' ++ lost') n ∧
          (unused actions' ++ lost').Perm (unused actions ++ lost ++ built) ∧
          (lost' = [] ↔ lost = [] ∧ (∀ sa ∈ selectActions, unusedAt actions (memberID sa.1) = []) ∧
            NoneReplaced kinds t₀ selectActions)
  | [], t, actions, lost, holding => by
    simp only [List.map_nil, takesChoices, Nat.zero_add] at holding
    exact ⟨t, actions, lost, rfl, holding, by simp, by simp [NoneReplaced]⟩
  | (pid, desc) :: rest, t, actions, lost, holding => by
    simp only [List.map_cons, takesChoices, Nat.add_assoc] at holding
    simp only [List.map_cons, refsOfChoices, spilledChoices]
    cases firstBuilt : refsOfAll kinds t₀ desc with
    | none =>
      obtain ⟨err, run⟩ := holding.newActions_none kind print.toTexts firstBuilt
      refine ⟨unableToCreate print desc (print.ref pid) err, _, ?_, List.Perm.refl _⟩
      simp only [selectActionsLoop, run, Outcome.ok_bind, Outcome.pure_eq, List.append_assoc]
    | some first =>
      obtain ⟨t', a, run, rfl, next⟩ := holding.newActions_some kind print.toTexts firstBuilt
      have replaced := replaced_perm base lost [] actions (memberID pid) a
      simp only [List.append_nil] at replaced
      have onward := selectActionsLoop_spec base rest t' (actions.insert (memberID pid) a)
        (lost ++ unusedAt actions (memberID pid)) (next.perm replaced)
      cases restBuilt : refsOfChoices kinds t₀ (rest.map Prod.snd) with
      | none =>
        rw [restBuilt] at onward
        obtain ⟨err, lost', onward, perm⟩ := onward
        refine ⟨err, lost', ?_, perm.trans (replaced_perm [] lost _ actions (memberID pid) a).symm⟩
        simp only [selectActionsLoop, run, Outcome.ok_bind, onward]
      | some more =>
        rw [restBuilt] at onward
        obtain ⟨t'', actions', lost', onward, held, perm, none⟩ := onward
        refine ⟨t'', actions', lost', ?_, held, perm.trans ?_, none.trans ?_⟩
        · simp only [selectActionsLoop, run, Outcome.ok_bind, onward]
        · exact (replaced_perm [] lost more actions (memberID pid) a).symm
        · exact noneLost_cons kinds firstBuilt actions lost rest

theorem newMember_perm (base lost : List O) (actions : GoMap ID (List (Action O)))
    {memberMap : GoMap ID (Member O)} {pid : ID} (isNew : memberMap.lookup pid = none) (portID : ID)
    (o : O) :
    (base ++ (unused actions ++ owed memberMap ++ lost) ++ [o] ++ [o]).Perm
      (base ++ (unused (actions.erase portID) ++
        owed (memberMap.insert pid ⟨o, (actions.lookup portID).getD [], 1⟩) ++ (lost ++ [o]))) := by
  have erased := unused_erase actions portID
  rw [owed_insert isNew, Member.refs, List.perm_iff_count]
  intro x
  have counts := erased.count_eq x
  simp only [List.count_append, List.cons_append, List.count_cons, List.count_nil, unusedAt] at counts ⊢
  omega

def StartsNew (t₀ : Table O) (memberMap : GoMap ID (Member O)) : List ObjectRef → Prop
  | [] => False
  | id :: _ => memberMap.lookup (memberID id) = none ∧ fwdport.finds kinds t₀ id ≠ none

theorem membersLoop_missing {t : Table O} {refs : List O} {n : Nat} (holding : Holding t₀ t refs (1 + n))
    {id : ObjectRef} (absent : fwdport.finds kinds t₀ id = none) (actions : GoMap ID (List (Action O)))
    {memberMap : GoMap ID (Member O)} (isNew : memberMap.lookup (memberID id) = none)
    (rest : List ObjectRef) :
    ∃ err, membersLoop kind kinds print t actions memberMap (id :: rest) = .ok (t, .error err) := by
  obtain ⟨err, failed⟩ := holding.acquire_none kind print.toTexts absent
  simp only [membersLoop, isNew, failed]
  exact ⟨_, rfl⟩

theorem membersLoop_spec (base : List O) {n : Nat} :
    ∀ (ids : List ObjectRef) (t : Table O) (actions : GoMap ID (List (Action O)))
      (memberMap : GoMap ID (Member O)) (lost : List O),
      Holding t₀ t (base ++ (unused actions ++ owed memberMap ++ lost)) (2 * ids.length + n) →
      (∃ err all more, membersLoop kind kinds print t actions memberMap ids =
          .ok (raised t₀ (base ++ all), .error err) ∧
        all.Perm (unused actions ++ owed memberMap ++ lost ++ more) ∧
        (StartsNew kinds t₀ memberMap ids → more ≠ [])) ∨
      ∃ t' actions' memberMap' more, membersLoop kind kinds print t actions memberMap ids =
          .ok (t', .ok (actions', memberMap')) ∧
        Holding t₀ t' (base ++ (unused actions' ++ owed memberMap' ++ (lost ++ more))) n ∧
        (StartsNew kinds t₀ memberMap ids → more ≠ [])
  | [], t, actions, memberMap, lost, holding => by
    simp only [List.length_nil, Nat.mul_zero, Nat.zero_add] at holding
    exact .inr ⟨t, actions, memberMap, [], rfl, by rwa [List.append_nil], False.elim⟩
  | id :: rest, t, actions, memberMap, lost, holding => by
    have grown : 2 * (id :: rest).length + n = 1 + (1 + (2 * rest.length + n)) := by
      simp only [List.length_cons]
      omega
    rw [grown] at holding
    cases isMember : memberMap.lookup (memberID id) with
    | some m =>
      have again := owed_again isMember (m.instances + 1)
      have next : Holding t₀ t (base ++ (unused actions ++
          owed (memberMap.insert (memberID id) { m with instances := m.instances + 1 }) ++ lost))
          (2 * rest.length + n) := by
        have less : Holding t₀ t (base ++ (unused actions ++ owed memberMap ++ lost))
            (2 * rest.length + n) := ⟨holding.ready.less (by omega), holding.table⟩
        exact less.perm (((again.symm.append_left _).append_right _).append_left _)
      simp only [membersLoop, isMember]
      rcases membersLoop_spec base rest t actions _ lost next with
        ⟨err, all, more, run, perm, _⟩ | ⟨t', actions', memberMap', more, run, held, _⟩
      · refine .inl ⟨err, all, more, run, perm.trans ?_, fun starts => ?_⟩
        · exact ((again.append_left _).append_right _).append_right _
        · cases isMember.symm.trans starts.1
      · refine .inr ⟨t', actions', memberMap', more, run, held, fun starts => ?_⟩
        cases isMember.symm.trans starts.1
    | none =>
      cases found : fwdport.finds kinds t₀ id with
      | none =>
        obtain ⟨err, failed⟩ := membersLoop_missing kind kinds print holding found actions isMember rest
        refine .inl ⟨err, unused actions ++ owed memberMap ++ lost, [], ?_, by rw [List.append_nil],
          fun starts => absurd found starts.2⟩
        rw [failed, ← holding.table]
      | some o =>
        obtain ⟨t₁, first, held₁⟩ := holding.acquire_found kind print.toTexts found
        obtain ⟨t₂, second, held₂⟩ := held₁.acquire_found kind print.toTexts found
        have next := held₂.perm (newMember_perm base lost actions isMember (t₁.objects o).id o)
        simp only [membersLoop, isMember, first, newGroupMember, second, Outcome.ok_bind,
          Outcome.pure_eq]
        rcases membersLoop_spec base rest t₂ _ _ _ next with
          ⟨err, all, more, run, perm, _⟩ | ⟨t', actions', memberMap', more, run, held, _⟩
        · refine .inl ⟨err, all, [o, o] ++ more, run, perm.trans ?_, by simp⟩
          have same := newMember_perm [] lost actions isMember (t₁.objects o).id o
          simpa [List.append_assoc] using (same.symm.append_right more)
        · refine .inr ⟨t', actions', memberMap', [o] ++ more, run, ?_, by simp⟩
          simpa only [List.append_assoc] using held

end Loops

section Requests

variable [DecidableEq O] (kind : Kind O) (kinds : O → ObjectKind) (print : Printing O F)

def Update.takes : Update F → Nat
  | .aggregate portIds _ _ selectActions =>
    takesChoices (selectActions.map Prod.snd) + 2 * portIds.length
  | .aggregateAdd _ selectActions _ => takesAll selectActions + 1
  | .missing | .aggregateDel _ | .aggregateAlgo _ _ => 0

def Fits (t₀ : Table O) (s : State O F) : Update F → Prop
  | .missing | .aggregateDel _ | .aggregateAlgo _ _ => True
  | .aggregateAdd portId selectActions _ =>
    s.group.memberMap.lookup (memberID portId) = none →
      match refsOfAll kinds t₀ selectActions with
      | none => spilledAll kinds t₀ selectActions = []
      | some refs => fwdport.finds kinds t₀ portId = none → refs = []
  | .aggregate portIds hash _ selectActions =>
    hash ≠ .unspecified →
      match refsOfChoices kinds t₀ (selectActions.map Prod.snd) with
      | none => spilledChoices kinds t₀ (selectActions.map Prod.snd) = []
      | some refs =>
        match portIds with
        | [] => NoneReplaced kinds t₀ selectActions
        | first :: _ => fwdport.finds kinds t₀ first = none ∧ refs = []

-- How a request is served: the references are those of the members, and some that are lost if it does
-- not fit.
def Served (t₀ : Table O) (s : State O F) (n : Nat) (fits : Prop)
    (result : Outcome (State O F × Option String)) : Prop :=
  ∃ s' err lost, result = .ok (s', err) ∧
    s'.table = raised t₀ (owed s'.group.memberMap ++ lost) ∧ s'.group.Selected ∧
    (lost = [] ↔ fits) ∧ (lost = [] → Ready t₀ (owed s'.group.memberMap) n) ∧
    (err ≠ none → s'.group.memberMap = s.group.memberMap ∧ s'.group.members = s.group.members)

variable {kinds} {t₀ : Table O} {s : State O F} {n : Nat}

theorem served_kept (selected : s.group.Selected) {m : Nat} (ready : Ready t₀ (owed s.group.memberMap) m)
    (enough : n ≤ m) {group : Group O F} (sameMap : group.memberMap = s.group.memberMap)
    (sameList : group.members = s.group.members) (err : Option String) (lost : List O) {fits : Prop}
    (iff : lost = [] ↔ fits) :
    Served t₀ s n fits (.ok ({ table := raised t₀ (owed s.group.memberMap ++ lost), group }, err)) := by
  refine ⟨_, err, lost, rfl, by rw [sameMap], ?_, iff, fun _ => ?_, fun _ => ⟨sameMap, sameList⟩⟩
  · constructor
    · simpa only [sameMap, sameList] using selected.listed
    · simpa only [sameMap, sameList] using selected.counted
  · rw [sameMap]
    exact ready.less enough

theorem served_refused (selected : s.group.Selected) {m : Nat}
    (holding : Holding t₀ s.table (owed s.group.memberMap) m) (enough : n ≤ m) {group : Group O F}
    (sameMap : group.memberMap = s.group.memberMap) (sameList : group.members = s.group.members)
    (err : Option String) : Served t₀ s n True (.ok ({ table := s.table, group }, err)) := by
  have kept := served_kept selected holding.ready enough sameMap sameList err []
    (show ([] : List O) = [] ↔ True by simp)
  rwa [List.append_nil, ← holding.table] at kept

theorem removeGroupMember_served (selected : s.group.Selected)
    (holding : Holding t₀ s.table (owed s.group.memberMap) n) (order : Shuffle (Record O))
    (portId : ObjectRef) : Served t₀ s n True (removeGroupMember kind print order s portId) := by
  rw [removeGroupMember]
  cases found : s.group.memberMap.lookup (memberID portId) with
  | none => exact served_refused selected holding (Nat.le_refl n) rfl rfl _
  | some m =>
    have perm := owed_erase found
    have held := holding.perm perm
    have released := releaseRefs_raised kind
      (fun o member => held.ready.live o (List.mem_append_left _ member))
      (owed (s.group.memberMap.erase (memberID portId)))
    simp only [held.table, released, Outcome.ok_bind, Outcome.pure_eq]
    refine ⟨_, none, [], rfl, ?_, recompute_selected _ _, by simp, fun _ => ?_, fun failed => absurd rfl failed⟩
    · rw [List.append_nil]
      rfl
    · exact held.ready.right

theorem addGroupMember_served (selected : s.group.Selected) (portId : ObjectRef)
    (selectActions : List ActionDesc) (instanceCount : Nat)
    (holding : Holding t₀ s.table (owed s.group.memberMap) (takesAll selectActions + (1 + n)))
    (order : Shuffle (Record O)) :
    Served t₀ s n (Fits kinds t₀ s (.aggregateAdd portId selectActions instanceCount))
      (addGroupMember kind kinds print order s portId selectActions instanceCount) := by
  have enough : n ≤ takesAll selectActions + (1 + n) := by omega
  rw [addGroupMember, Fits]
  cases isMember : s.group.memberMap.lookup (memberID portId) with
  | some m =>
    simp only [reduceCtorEq, false_implies]
    exact served_refused selected holding enough rfl rfl _
  | none =>
    cases isBuilt : refsOfAll kinds t₀ selectActions with
    | none =>
      obtain ⟨err, failed⟩ := holding.newActions_none kind print.toTexts isBuilt
      simp only [failed, Outcome.ok_bind, Outcome.pure_eq, forall_const]
      exact served_kept selected holding.ready enough rfl rfl _ _ Iff.rfl
    | some refs =>
      obtain ⟨t', actions, run, rfl, held⟩ := holding.newActions_some kind print.toTexts isBuilt
      simp only [run, Outcome.ok_bind, newGroupMember, forall_const]
      cases found : fwdport.finds kinds t₀ portId with
      | none =>
        obtain ⟨err, failed⟩ := held.acquire_none kind print.toTexts found
        simp only [failed, Outcome.ok_bind, Outcome.pure_eq, forall_const]
        rw [held.table]
        exact served_kept selected holding.ready enough rfl rfl _ _ Iff.rfl
      | some o =>
        obtain ⟨t'', acquired, held'⟩ := held.acquire_found kind print.toTexts found
        simp only [acquired, Outcome.ok_bind, Outcome.pure_eq, reduceCtorEq, false_implies]
        let m : Member O := ⟨o, actions, instanceCount⟩
        have perm : (owed s.group.memberMap ++ refsAll actions ++ [o]).Perm
            (owed (s.group.memberMap.insert (memberID portId) m)) := by
          rw [owed_insert isMember, Member.refs, List.perm_iff_count]
          intro x
          simp only [List.count_append, List.cons_append, List.count_cons, List.count_nil, m]
          omega
        have final := held'.perm perm
        refine ⟨_, none, [], rfl, ?_, recompute_selected _ _, by simp, fun _ => final.ready,
          fun failed => absurd rfl failed⟩
        rw [List.append_nil]
        exact final.table

omit [DecidableEq O] in
theorem updateAlgorithm_kept (p : Group O F) (fields : List F) (hash : AggregateHashAlgorithm) :
    (p.updateAlgorithm print fields hash).1.memberMap = p.memberMap ∧
    (p.updateAlgorithm print fields hash).1.members = p.members ∧
    ((p.updateAlgorithm print fields hash).2 = none ↔ hash ≠ .unspecified) := by
  cases hash <;> simp [Group.updateAlgorithm]

variable {lost : List O}

theorem replaced_served {group : Group O F} (sameMap : group.memberMap = s.group.memberMap)
    {actions : GoMap ID (List (Action O))} {memberMap : GoMap ID (Member O)} {t : Table O}
    (holding : Holding t₀ t (owed s.group.memberMap ++ (unused actions ++ (owed memberMap ++ lost))) n)
    (orders : Orders O) {fits : Prop} (iff : lost = [] ↔ fits) :
    Served t₀ s n fits (do
      let table ← cleanupMembers kind t (orders.curr.arrange group.memberMap.entries)
      let table ← cleanupUnused kind table (orders.actions.arrange actions.entries)
      return ({ table, group := { group with memberMap }.recompute orders.members }, none)) := by
  have live := holding.ready.live
  have onward := holding.ready.right.right
  have members := cleanupMembers_owed kind orders.curr
    (fun o member => live o (List.mem_append_left _ member)) (unused actions ++ (owed memberMap ++ lost))
  have others : cleanupUnused kind (raised t₀ (unused actions ++ (owed memberMap ++ lost)))
      (orders.actions.arrange actions.entries) = .ok (raised t₀ (owed memberMap ++ lost)) := by
    rw [cleanupUnused_eq]
    exact releaseRefs_arranged kind orders.actions
      (fun o member => live o (List.mem_append_right _ (List.mem_append_left _ member))) _
  simp only [sameMap, holding.table, members, others, Outcome.ok_bind, Outcome.pure_eq]
  refine ⟨_, none, lost, rfl, rfl, recompute_selected _ _, iff, fun noLost => ?_,
    fun failed => absurd rfl failed⟩
  rw [noLost, List.append_nil] at onward
  exact onward

theorem updateGroup_served (selected : s.group.Selected) (portIds : List ObjectRef)
    (hash : AggregateHashAlgorithm) (fieldIds : List F)
    (selectActions : List (ObjectRef × List ActionDesc))
    (holding : Holding t₀ s.table (owed s.group.memberMap)
      (takesChoices (selectActions.map Prod.snd) + (2 * portIds.length + n)))
    (orders : Orders O) :
    Served t₀ s n (Fits kinds t₀ s (.aggregate portIds hash fieldIds selectActions))
      (updateGroup kind kinds print orders s portIds hash fieldIds selectActions) := by
  have enough : n ≤ takesChoices (selectActions.map Prod.snd) + (2 * portIds.length + n) := by omega
  obtain ⟨sameMap, sameList, known⟩ := updateAlgorithm_kept print s.group fieldIds hash
  rw [updateGroup, Fits]
  rcases algorithm : s.group.updateAlgorithm print fieldIds hash with ⟨group, err⟩
  rw [algorithm] at sameMap sameList known
  cases err with
  | some err =>
    have unknown : hash = .unspecified := by simpa using known
    simpa [unknown] using served_refused selected holding enough sameMap sameList (some err)
  | none =>
    have isKnown : hash ≠ .unspecified := known.mp rfl
    simp only [ne_eq, isKnown, not_false_eq_true, forall_const]
    have start : Holding t₀ s.table (owed s.group.memberMap ++ unused ∅ ++ [])
        (takesChoices (selectActions.map Prod.snd) + (2 * portIds.length + n)) := by
      simpa [unused] using holding
    have built := selectActionsLoop_spec kind kinds print _ selectActions s.table ∅ [] start
    cases isBuilt : refsOfChoices kinds t₀ (selectActions.map Prod.snd) with
    | none =>
      rw [isBuilt] at built
      obtain ⟨err, lost, run, perm⟩ := built
      simp only [run, Outcome.ok_bind, Outcome.pure_eq]
      refine served_kept selected holding.ready enough sameMap sameList (some err) lost ?_
      simpa [unused] using perm_nil_iff perm
    | some refs =>
      rw [isBuilt] at built
      obtain ⟨t, actions, lost, run, held, perm, replaced⟩ := built
      simp only [run, Outcome.ok_bind]
      cases portIds with
      | nil =>
        simp only [membersLoop, Outcome.ok_bind]
        have final : Holding t₀ t (owed s.group.memberMap ++ (unused actions ++ (owed ∅ ++ lost))) n := by
          simpa [owed] using held
        exact replaced_served kind sameMap final orders (by simpa [unusedAt, refsAll] using replaced)
      | cons first rest =>
        have held : Holding t₀ t (owed s.group.memberMap ++ (unused actions ++ owed ∅ ++ lost))
            (2 * (first :: rest).length + n) := by
          simpa [owed] using held
        cases found : fwdport.finds kinds t₀ first with
        | none =>
          have one : Holding t₀ t (owed s.group.memberMap ++ (unused actions ++ owed ∅ ++ lost)) (1 + n) :=
            ⟨held.ready.less (by rw [List.length_cons]; omega), held.table⟩
          obtain ⟨err, failed⟩ := membersLoop_missing kind kinds print one found actions
            (show (∅ : GoMap ID (Member O)).lookup (memberID first) = none from rfl) rest
          simp only [failed, Outcome.ok_bind, Outcome.pure_eq, found, true_and]
          rw [held.table]
          refine served_kept selected holding.ready enough sameMap sameList (some err) _ ?_
          simpa [owed, unused] using perm_nil_iff perm
        | some o =>
          -- The port is acquired twice, so that a reference is lost whether or not the rest is found.
          have starts : StartsNew kinds t₀ ∅ (first :: rest) := ⟨rfl, by simp [found]⟩
          rcases membersLoop_spec kind kinds print _ (first :: rest) t actions ∅ lost held with
            ⟨err, all, more, failed, same, isLost⟩ | ⟨t', actions', memberMap, more, run, final, isLost⟩
          · simp only [failed, Outcome.ok_bind, Outcome.pure_eq]
            refine served_kept selected holding.ready enough sameMap sameList (some err) all ?_
            simp [perm_nil_iff same, isLost starts, found]
          · simp only [run, Outcome.ok_bind]
            rw [List.append_assoc (unused actions')] at final
            exact replaced_served kind sameMap final orders (by simp [isLost starts, found])

theorem update_served (selected : s.group.Selected) (upd : Update F)
    (holding : Holding t₀ s.table (owed s.group.memberMap) (upd.takes + n)) (orders : Orders O) :
    Served t₀ s n (Fits kinds t₀ s upd) (update kind kinds print orders s upd) := by
  cases upd with
  | missing => exact served_refused selected holding (Nat.le_add_left _ _) rfl rfl _
  | aggregate portIds hash fieldIds selectActions =>
    rw [Update.takes, Nat.add_assoc] at holding
    exact updateGroup_served kind print selected portIds hash fieldIds selectActions holding orders
  | aggregateAdd portId selectActions instanceCount =>
    rw [Update.takes, Nat.add_assoc] at holding
    exact addGroupMember_served kind print selected portId selectActions instanceCount holding
      orders.members
  | aggregateDel portId =>
    rw [Update.takes, Nat.zero_add] at holding
    exact removeGroupMember_served kind print selected holding orders.members portId
  | aggregateAlgo hash fieldIds =>
    obtain ⟨sameMap, sameList, _⟩ := updateAlgorithm_kept print s.group fieldIds hash
    exact served_refused selected holding (Nat.le_add_left _ _) sameMap sameList _

-- Each object has one reference more for every member that is on it, and one for every action.
def Balanced (t₀ : Table O) (s : State O F) : Prop :=
  ∀ o, (s.table.objects o).refCount = (t₀.objects o).refCount +
    s.group.memberMap.entries.countP (fun m => m.2.port = o) +
    (s.group.memberMap.entries.flatMap fun m => refsAll m.2.actions).count o

theorem count_owed (memberMap : GoMap ID (Member O)) (o : O) :
    (owed memberMap).count o = memberMap.entries.countP (fun m => m.2.port = o) +
      (memberMap.entries.flatMap fun m => refsAll m.2.actions).count o := by
  rw [owed]
  induction memberMap.entries with
  | nil => rfl
  | cons m rest ih =>
    rw [List.flatMap_cons, List.count_append, ih]
    simp only [List.flatMap_cons, List.count_append, Member.refs, List.count_cons, List.countP_cons,
      beq_iff_eq, decide_eq_true_eq]
    omega

theorem balanced_iff (table : s.table = raised t₀ (owed s.group.memberMap ++ lost)) :
    Balanced t₀ s ↔ lost = [] := by
  rw [← raised_eq_iff (raised t₀ (owed s.group.memberMap)) lost, raised_raised, ← table, Balanced]
  simp only [raised_refCount, count_owed, Nat.add_assoc]

variable (kinds) (t₀)

def step (s : State O F) (call : Orders O × Update F) : Option (State O F) :=
  match update kind kinds print call.1 s call.2 with
  | .ok (s', _) => some s'
  | _ => none

-- The books of a group are right after a request: each member has one reference to its port and is
-- selected as often as it has instances, a cleanup leaves the counts of the beginning, and an error
-- changes neither members nor counts.
def Right (s : State O F) (call : Orders O × Update F) : Prop :=
  ∃ s' err, update kind kinds print call.1 s call.2 = .ok (s', err) ∧
    Balanced t₀ s' ∧ s'.group.Selected ∧
    (∀ order, ∃ final, s'.cleanup kind order = .ok final ∧ SameCounts t₀ final.table) ∧
    (err ≠ none → s'.group.memberMap = s.group.memberMap ∧ s'.group.members = s.group.members ∧
      SameCounts s.table s'.table)

variable {kinds} {t₀}

theorem right_iff (selected : s.group.Selected) (call : Orders O × Update F)
    (holding : Holding t₀ s.table (owed s.group.memberMap) (call.2.takes + n)) :
    Right kind kinds print t₀ s call ↔ Fits kinds t₀ s call.2 := by
  have served : Served t₀ s n (Fits kinds t₀ s call.2) (update kind kinds print call.1 s call.2) :=
    update_served kind print selected call.2 holding call.1
  obtain ⟨s', err, lost, run, table, selected', iff, ready, kept⟩ := served
  constructor
  · rintro ⟨_, _, run', balanced, _⟩
    cases run.symm.trans run'
    exact iff.mp ((balanced_iff table).mp balanced)
  · intro fits
    have noLost := iff.mpr fits
    subst noLost
    refine ⟨s', err, run, (balanced_iff table).mpr rfl, selected', fun order => ?_, fun failed => ?_⟩
    · rw [State.cleanup, table, cleanupMembers_owed kind order (ready rfl).live, raised_nil]
      exact ⟨_, rfl, fun _ => rfl⟩
    · obtain ⟨sameMap, sameList⟩ := kept failed
      refine ⟨sameMap, sameList, ?_⟩
      rw [table, sameMap, List.append_nil, ← holding.table]
      exact fun _ => rfl

def Keeping (t₀ : Table O) (s : State O F) (calls : List (Orders O × Update F)) : Prop :=
  s.group.Selected ∧
    Holding t₀ s.table (owed s.group.memberMap) (calls.map fun call => call.2.takes).sum

theorem Keeping.step {call : Orders O × Update F} {rest : List (Orders O × Update F)}
    (keeping : Keeping t₀ s (call :: rest)) (fits : Fits kinds t₀ s call.2) {s' : State O F}
    (goes : step kind kinds print s call = some s') : Keeping t₀ s' rest := by
  obtain ⟨selected, holding⟩ := keeping
  rw [List.map_cons, List.sum_cons] at holding
  have served : Served t₀ s (rest.map fun call => call.2.takes).sum (Fits kinds t₀ s call.2)
      (update kind kinds print call.1 s call.2) :=
    update_served kind print selected call.2 holding call.1
  obtain ⟨next, err, lost, run, table, selected', iff, ready, _⟩ := served
  rw [Ports.step, run] at goes
  cases goes
  have noLost := iff.mpr fits
  refine ⟨selected', ready noLost, ?_⟩
  rw [table, noLost, List.append_nil]

theorem bookkeeping_iff (calls : List (Orders O × Update F))
    (room : ∀ o, (t₀.objects o).refCount + (calls.map fun call => call.2.takes).sum < 2 ^ 64) :
    Interleaving.Along (step kind kinds print) (Right kind kinds print t₀) ⟨t₀, .new O F⟩ calls ↔
      Interleaving.Along (step kind kinds print) (fun s call => Fits kinds t₀ s call.2)
        ⟨t₀, .new O F⟩ calls := by
  refine Interleaving.along_iff_left (I := Keeping t₀) ?_ ?_ ?_
  · intro s call rest s' keeping right goes
    have holding := keeping.2
    rw [List.map_cons, List.sum_cons] at holding
    exact keeping.step kind print ((right_iff kind print keeping.1 call holding).mp right) goes
  · intro s call rest keeping
    have holding := keeping.2
    rw [List.map_cons, List.sum_cons] at holding
    exact right_iff kind print keeping.1 call holding
  · refine ⟨⟨nofun, nofun⟩, ⟨nofun, fun o => ?_⟩, by rw [Group.new]; exact (raised_nil t₀).symm⟩
    simpa [Group.new, owed] using room o

end Requests

section Samples

def plainPrint : Printing (Fin 2) Nat := ⟨blank, fun _ => "", fun _ => ""⟩

def anyOrders : Orders (Fin 2) := ⟨.id, .id, .id⟩

theorem added_and_removed :
    Interleaving.Along (step noParts allPorts plainPrint) (Right noParts allPorts plainPrint onePort)
      ⟨onePort, .new (Fin 2) Nat⟩
      [(anyOrders, .aggregateAdd (some (some "p")) [] 2), (anyOrders, .aggregateDel (some (some "p")))] := by
  refine (bookkeeping_iff noParts plainPrint _ (by decide)).mpr ?_
  refine ⟨fun _ => ?_, fun _ _ => ⟨trivial, fun _ _ => trivial⟩⟩
  simp [refsOfAll]

-- A group update with one port takes two references to it, and cleaning up releases one.
theorem updated_member_counted_twice :
    ∃ s final : State (Fin 2) Nat,
      update noParts allPorts plainPrint anyOrders ⟨onePort, .new (Fin 2) Nat⟩
        (.aggregate [some (some "p")] .crc32 [] []) = .ok (s, none) ∧
      s.group.memberMap.entries.countP (fun m => m.2.port = 0) = 1 ∧
      (onePort.objects 0).refCount = 1 ∧ (s.table.objects 0).refCount = 3 ∧
      s.cleanup noParts .id = .ok final ∧ (final.table.objects 0).refCount = 2 := by
  refine ⟨_, _, rfl, ?_, ?_, ?_, rfl, ?_⟩ <;> decide +kernel

end Samples

end Lemming.Ports

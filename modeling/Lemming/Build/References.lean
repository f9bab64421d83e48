import Lemming.Build.Actions

set_option autoImplicit false

namespace Lemming.Build

open Shared
open Object (Table Kind newID)

variable {O : Type} [DecidableEq O] {kind : Kind O} {kinds : O → ObjectKind} {texts : Texts}

def raised (t : Table O) (refs : List O) : Table O :=
  { t with
    objects := fun o => { t.objects o with refCount := (t.objects o).refCount + refs.count o } }

@[simp] theorem raised_nil (t : Table O) : raised t [] = t := by
  simp [raised]

@[simp] theorem raised_refCount (t : Table O) (refs : List O) (o : O) :
    ((raised t refs).objects o).refCount = (t.objects o).refCount + refs.count o := rfl

theorem raised_raised (t : Table O) (first second : List O) :
    raised (raised t first) second = raised t (first ++ second) := by
  simp [raised, List.count_append, Nat.add_assoc]

theorem raised_perm (t : Table O) {first second : List O} (perm : first.Perm second) :
    raised t first = raised t second := by
  simp [raised, perm.count_eq]

theorem raised_eq_iff (t : Table O) (refs : List O) :
    (∀ o, ((raised t refs).objects o).refCount = (t.objects o).refCount) ↔ refs = [] := by
  constructor
  · intro same
    rw [List.eq_nil_iff_forall_not_mem]
    intro o member
    have positive := List.count_pos_iff.mpr member
    have unchanged := same o
    rw [raised_refCount] at unchanged
    omega
  · rintro rfl
    simp

variable {t : Table O}

theorem acquireBase_live {o : O} (live : (t.objects o).refCount ≠ 0)
    (room : (t.objects o).refCount + 1 < 2 ^ 64) : t.acquireBase o = (raised t [o], none) := by
  rw [Table.acquireBase, if_neg live]
  simp only [Prod.mk.injEq, and_true, Table.setBase, raised, Table.mk.injEq, true_and]
  funext other
  by_cases same : other = o
  · subst same
    simpa using room
  · simp [same, Ne.symm same]

theorem release_raised (kind : Kind O) {o : O} (live : (t.objects o).refCount ≠ 0) (rest : List O) :
    (raised t (o :: rest)).release kind o false = .ok (raised t rest, none) := by
  have counted : ((raised t (o :: rest)).objects o).refCount =
      (t.objects o).refCount + rest.count o + 1 := by
    simp [Nat.add_assoc]
  rw [Table.release, Table.releaseBase]
  simp only [counted, Nat.add_eq_zero_iff, Nat.one_ne_zero, and_false, if_false, Nat.add_sub_cancel,
    live, false_and, Bool.false_eq_true, or_false]
  simp only [Table.setBase, raised, Outcome.ok.injEq, Prod.mk.injEq, and_true, Table.mk.injEq, true_and]
  funext other
  by_cases same : other = o
  · subst same
    simp
  · simp [same, Ne.symm same]

theorem releaseRefs_raised (kind : Kind O) {refs : List O}
    (live : ∀ o ∈ refs, (t.objects o).refCount ≠ 0) (rest : List O) :
    releaseRefs kind (raised t (refs ++ rest)) refs = .ok (raised t rest) := by
  induction refs with
  | nil => rfl
  | cons o refs ih =>
    rw [List.forall_mem_cons] at live
    rw [releaseRefs, List.cons_append, release_raised kind live.1]
    exact ih live.2

def Package.finds (p : Package) (kinds : O → ObjectKind) (t : Table O) : ObjectRef → Option O
  | some (some oid) =>
    match t.ids (newID oid) with
    | some o => if (t.objects o).refCount ≠ 0 ∧ p.test (kinds o) = true then some o else none
    | none => none
  | _ => none

variable {ref : ObjectRef}

omit [DecidableEq O] in
theorem Package.finds_spec {p : Package} {o : O} (found : p.finds kinds t ref = some o) :
    (t.objects o).refCount ≠ 0 ∧ p.test (kinds o) = true ∧
      ∃ oid, ref = some (some oid) ∧ t.ids (newID oid) = some o := by
  unfold Package.finds at found
  split at found
  · next oid =>
    split at found
    · next isObject =>
      obtain ⟨⟨live, test⟩, ⟨⟩⟩ := Option.ite_none_right_eq_some.mp found
      exact ⟨live, test, oid, rfl, isObject⟩
    · cases found
  · cases found

theorem Package.finds_raised {p : Package} {held : List O}
    (live : ∀ o ∈ held, (t.objects o).refCount ≠ 0) (ref : ObjectRef) :
    p.finds kinds (raised t held) ref = p.finds kinds t ref := by
  -- Only live objects are held, so that no object comes to life by it.
  have same (o : O) : ((raised t held).objects o).refCount ≠ 0 ↔ (t.objects o).refCount ≠ 0 := by
    rw [raised_refCount]
    by_cases member : o ∈ held
    · have isLive := live o member
      omega
    · rw [List.count_eq_zero_of_not_mem member, Nat.add_zero]
  unfold Package.finds
  split
  · simp only [same]
    rfl
  · rfl

theorem Package.acquire_found (p : Package) {o : O} (room : (t.objects o).refCount + 1 < 2 ^ 64)
    (found : p.finds kinds t ref = some o) :
    p.acquire kind kinds texts t ref = .ok (raised t [o], .ok o) := by
  obtain ⟨live, test, oid, rfl, isObject⟩ := Package.finds_spec found
  simp only [Package.acquire, Table.acquire, isObject, acquireBase_live live room, test, if_true]

theorem Package.acquire_none (p : Package) (room : ∀ o, (t.objects o).refCount + 1 < 2 ^ 64)
    (absent : p.finds kinds t ref = none) :
    ∃ err, p.acquire kind kinds texts t ref = .ok (t, .error err) := by
  rcases ref with _ | _ | oid
  · exact ⟨_, rfl⟩
  · exact ⟨_, rfl⟩
  · simp only [Package.acquire, Table.acquire]
    simp only [Package.finds] at absent
    cases isObject : t.ids (newID oid) with
    | none => exact ⟨_, rfl⟩
    | some o =>
      by_cases live : (t.objects o).refCount = 0
      · exact ⟨Object.acquireText, by simp only [Table.acquireBase, live, if_true]⟩
      · -- The object is of another kind, and its new reference is released again.
        have other : p.test (kinds o) = false := by
          by_contra right
          simp [isObject, live, right] at absent
        have back := release_raised kind live []
        rw [raised_nil] at back
        simp only [acquireBase_live live (room o), other, Bool.false_eq_true, if_false, back]
        exact ⟨_, rfl⟩

def joined : Option (List O) → Option (List O) → Option (List O)
  | some refs, some more => some (refs ++ more)
  | _, _ => none

section References

variable (kinds) (t : Table O)

mutual

def refsOf : ActionDesc → Option (List O)
  | .continue | .plain none => some []
  | .missing | .unregistered | .plain (some _) | .mirrorMissing | .selectMissing => none
  | .transmit port => (port.bind (fwdport.finds kinds t)).map fun o => [o]
  | .lookup table => (table.bind (fwdtable.finds kinds t)).map fun o => [o]
  | .learn table =>
    ((table.bind (fwdtable.finds kinds t)).filter fun o => kinds o = .bridge).map fun o => [o]
  | .flowCounter counter => (counter.bind (fwdflowcounter.finds kinds t)).map fun o => [o]
  | .mirror actions port =>
    match refsOfAll actions, port with
    | none, _ => none
    | some refs, none => some refs
    | some refs, some _ => (fwdport.finds kinds t port).map fun o => o :: refs
  | .select algorithm actionLists =>
    if algorithm = .unspecified then none else refsOfChoices actionLists

def refsOfAll : List ActionDesc → Option (List O)
  | [] => some []
  | desc :: rest => joined (refsOf desc) (refsOfAll rest)

def refsOfChoices : List (List ActionDesc) → Option (List O)
  | [] => some []
  | descs :: rest => joined (refsOfAll descs) (refsOfChoices rest)

end

mutual

-- The references that are left over when a description cannot be built: those of the action lists
-- before the one that fails, in the select that fails.
def spilled : ActionDesc → List O
  | .mirror actions _ => if (refsOfAll kinds t actions).isNone then spilledAll actions else []
  | .select algorithm actionLists =>
    if algorithm = .unspecified then [] else spilledChoices actionLists
  | _ => []

def spilledAll : List ActionDesc → List O
  | [] => []
  | desc :: rest => if (refsOf kinds t desc).isNone then spilled desc else spilledAll rest

def spilledChoices : List (List ActionDesc) → List O
  | [] => []
  | descs :: rest =>
    match refsOfAll kinds t descs with
    | none => spilledAll descs
    | some refs => refs ++ spilledChoices rest

end

end References

mutual

def takes : ActionDesc → Nat
  | .mirror actions _ => takesAll actions + 1
  | .select _ actionLists => takesChoices actionLists
  | _ => 1

def takesAll : List ActionDesc → Nat
  | [] => 0
  | desc :: rest => takes desc + takesAll rest

def takesChoices : List (List ActionDesc) → Nat
  | [] => 0
  | descs :: rest => takesAll descs + takesChoices rest

end

section Bounds

omit [DecidableEq O]

variable (kinds) (t : Table O)

def Bounded (refs : Option (List O)) (n : Nat) : Prop :=
  ∀ found, refs = some found → (∀ o ∈ found, (t.objects o).refCount ≠ 0) ∧ found.length ≤ n

theorem bounded_one (p : Package) (ref : Option ObjectRef) :
    Bounded t ((ref.bind (p.finds kinds t)).map fun o => [o]) 1 := by
  intro refs isSome
  obtain ⟨o, found, rfl⟩ := Option.map_eq_some_iff.mp isSome
  obtain ⟨_, _, found⟩ := Option.bind_eq_some_iff.mp found
  simpa using (Package.finds_spec found).1

theorem Bounded.joined {first second : Option (List O)} {n m : Nat} (left : Bounded t first n)
    (right : Bounded t second m) : Bounded t (joined first second) (n + m) := by
  cases first with
  | none => nofun
  | some refs =>
    cases second with
    | none => nofun
    | some more =>
      intro found isFound
      cases isFound
      obtain ⟨live, short⟩ := left refs rfl
      obtain ⟨live', short'⟩ := right more rfl
      refine ⟨fun o member => (List.mem_append.mp member).elim (live o) (live' o), ?_⟩
      rw [List.length_append]
      exact Nat.add_le_add short short'

mutual

theorem refsOf_bounded : ∀ desc : ActionDesc, Bounded t (refsOf kinds t desc) (takes desc)
  | .missing | .unregistered | .mirrorMissing | .selectMissing | .plain (some _) => by
    intro refs isSome
    simp [refsOf] at isSome
  | .continue | .plain none => by
    intro refs isSome
    simp only [refsOf, Option.some.injEq] at isSome
    simp [← isSome]
  | .transmit port => by
    simpa only [refsOf, takes] using bounded_one kinds t fwdport port
  | .lookup table => by
    simpa only [refsOf, takes] using bounded_one kinds t fwdtable table
  | .flowCounter counter => by
    simpa only [refsOf, takes] using bounded_one kinds t fwdflowcounter counter
  | .learn table => by
    intro refs isSome
    simp only [refsOf] at isSome
    obtain ⟨o, found, rfl⟩ := Option.map_eq_some_iff.mp isSome
    have found := (Option.filter_eq_some_iff.mp found).1
    exact bounded_one kinds t fwdtable table [o] (by simp [found])
  | .mirror actions port => by
    have bound := refsOfAll_bounded actions
    intro refs isSome
    simp only [refsOf] at isSome
    cases inner : refsOfAll kinds t actions with
    | none => simp [inner] at isSome
    | some found =>
      obtain ⟨live, short⟩ := bound found inner
      rw [inner] at isSome
      cases port with
      | none =>
        cases isSome
        exact ⟨live, Nat.le_succ_of_le short⟩
      | some oid =>
        obtain ⟨o, isPort, rfl⟩ := Option.map_eq_some_iff.mp isSome
        refine ⟨List.forall_mem_cons.mpr ⟨(Package.finds_spec isPort).1, live⟩, ?_⟩
        exact Nat.succ_le_succ short
  | .select algorithm actionLists => by
    have bound := refsOfChoices_bounded actionLists
    intro refs isSome
    simp only [refsOf] at isSome
    split at isSome
    · cases isSome
    · exact bound refs isSome

theorem refsOfAll_bounded :
    ∀ descs : List ActionDesc, Bounded t (refsOfAll kinds t descs) (takesAll descs)
  | [] => by
    intro refs isSome
    simp only [refsOfAll, Option.some.injEq] at isSome
    simp [← isSome]
  | desc :: rest => by
    simpa only [refsOfAll, takesAll] using (refsOf_bounded desc).joined t (refsOfAll_bounded rest)

theorem refsOfChoices_bounded :
    ∀ lists : List (List ActionDesc), Bounded t (refsOfChoices kinds t lists) (takesChoices lists)
  | [] => by
    intro refs isSome
    simp only [refsOfChoices, Option.some.injEq] at isSome
    simp [← isSome]
  | descs :: rest => by
    simpa only [refsOfChoices, takesChoices] using
      (refsOfAll_bounded descs).joined t (refsOfChoices_bounded rest)

end

end Bounds

omit [DecidableEq O] in
theorem refsAll_append (first second : List (Action O)) :
    refsAll (first ++ second) = refsAll first ++ refsAll second := by
  induction first with
  | nil => simp [refsAll]
  | cons a rest ih => simp [refsAll, ih]

omit [DecidableEq O] in
theorem refsChoices_append (first second : List (List (Action O))) :
    refsChoices (first ++ second) = refsChoices first ++ refsChoices second := by
  induction first with
  | nil => simp [refsChoices]
  | cons actions rest ih => simp [refsChoices, ih]

structure Ready (t : Table O) (held : List O) (n : Nat) : Prop where
  live : ∀ o ∈ held, (t.objects o).refCount ≠ 0
  room : ∀ o, (t.objects o).refCount + (held.length + n) < 2 ^ 64

section Ready

variable {t : Table O} {held : List O} {n : Nat}

omit [DecidableEq O] in
theorem Ready.less {m : Nat} (ready : Ready t held n) (smaller : m ≤ n) : Ready t held m :=
  ⟨ready.live, fun o => Nat.lt_of_le_of_lt
    (Nat.add_le_add_left (Nat.add_le_add_left smaller _) _) (ready.room o)⟩

omit [DecidableEq O] in
theorem Ready.take {m : Nat} {refs : Option (List O)} {found : List O} (ready : Ready t held (n + m))
    (bounded : Bounded t refs n) (isFound : refs = some found) : Ready t (held ++ found) m := by
  obtain ⟨live, short⟩ := bounded found isFound
  constructor
  · intro o member
    exact (List.mem_append.mp member).elim (ready.live o) (live o)
  · intro o
    have room := ready.room o
    rw [List.length_append]
    omega

omit [DecidableEq O] in
theorem Ready.right {first second : List O} (ready : Ready t (first ++ second) n) :
    Ready t second n := by
  constructor
  · intro o member
    exact ready.live o (List.mem_append_right first member)
  · intro o
    have room := ready.room o
    rw [List.length_append] at room
    omega

theorem Ready.next (ready : Ready t held (n + 1)) (o : O) :
    ((raised t held).objects o).refCount + 1 < 2 ^ 64 := by
  have room := ready.room o
  have short := List.count_le_length (a := o) (l := held)
  rw [raised_refCount]
  omega

theorem Ready.acquire_found {p : Package} {ref : ObjectRef} {o : O} (ready : Ready t held (n + 1))
    (found : p.finds kinds t ref = some o) :
    p.acquire kind kinds texts (raised t held) ref = .ok (raised t (held ++ [o]), .ok o) := by
  rw [← Package.finds_raised ready.live] at found
  rw [p.acquire_found (ready.next o) found, raised_raised]

theorem Ready.acquire_none (kind : Kind O) (texts : Texts) {p : Package} {ref : ObjectRef}
    (ready : Ready t held (n + 1)) (absent : p.finds kinds t ref = none) :
    ∃ err, p.acquire kind kinds texts (raised t held) ref = .ok (raised t held, .error err) := by
  rw [← Package.finds_raised ready.live] at absent
  exact p.acquire_none ready.next absent

theorem releaseRefs_held (kind : Kind O) (held : List O) {refs : List O} (more : List O)
    (live : ∀ o ∈ refs, (t.objects o).refCount ≠ 0) :
    releaseRefs kind (raised t (held ++ refs ++ more)) refs = .ok (raised t (held ++ more)) := by
  have perm : (held ++ refs ++ more).Perm (refs ++ (held ++ more)) := by
    rw [List.append_assoc]
    exact List.perm_append_comm_assoc held refs more
  rw [raised_perm t perm, releaseRefs_raised kind live]

end Ready

def Builds {R : Type} (t : Table O) (held : List O) (refs : Option (List O)) (left : List O)
    (references : R → List O) (result : Outcome (Table O × Except String R)) : Prop :=
  match refs with
  | some refs => ∃ built, result = .ok (raised t (held ++ refs), .ok built) ∧ references built = refs
  | none => ∃ err, result = .ok (raised t (held ++ left), .error err)

def references (action : Option (Action O)) : List O := refsAll action.toList

section Building

variable (kind kinds texts) {t : Table O} {held : List O}

theorem newSingle_builds (ready : Ready t held 1) (p : Package) (missing failed : String)
    (desc : Option ObjectRef) :
    Builds t held ((desc.bind (p.finds kinds t)).map fun o => [o]) [] references
      (newSingle kind kinds texts p missing failed (raised t held) desc) := by
  cases desc with
  | none => exact ⟨missing, by rw [List.append_nil]; rfl⟩
  | some ref =>
    rw [newSingle, Option.bind_some]
    cases found : p.finds kinds t ref with
    | none =>
      obtain ⟨err, failed⟩ := ready.acquire_none kind texts found
      rw [failed]
      exact ⟨_, by rw [List.append_nil]; rfl⟩
    | some o =>
      rw [ready.acquire_found found]
      exact ⟨some (.single o), rfl, rfl⟩

theorem newLearn_builds (ready : Ready t held 1) (desc : Option ObjectRef) :
    Builds t held (((desc.bind (fwdtable.finds kinds t)).filter fun o => kinds o = .bridge).map
      fun o => [o]) [] references (newLearn kind kinds texts (raised t held) desc) := by
  cases desc with
  | none => exact ⟨_, by rw [List.append_nil]; rfl⟩
  | some ref =>
    rw [newLearn, Option.bind_some]
    cases found : fwdtable.finds kinds t ref with
    | none =>
      obtain ⟨err, failed⟩ := ready.acquire_none kind texts found
      rw [failed]
      exact ⟨_, by rw [List.append_nil]; rfl⟩
    | some o =>
      rw [ready.acquire_found found]
      by_cases bridge : kinds o = .bridge
      · simp only [bridge, Option.filter_some, decide_true, if_true, Outcome.ok_bind]
        exact ⟨some (.single o), rfl, rfl⟩
      · -- A table that is no bridge is let go again.
        have back := release_raised kind (Package.finds_spec found).1 held
        rw [← raised_perm t (List.perm_append_singleton o held)] at back
        simp only [bridge, Option.filter_some, decide_false, if_false, Bool.false_eq_true,
          Outcome.ok_bind, back]
        exact ⟨_, by rw [List.append_nil]; rfl⟩

theorem mirrorPort_builds {actions : List (Action O)} (ready : Ready t (held ++ refsAll actions) 1)
    (port : ObjectRef) :
    Builds t held (match port with
      | none => some (refsAll actions)
      | some _ => (fwdport.finds kinds t port).map fun o => o :: refsAll actions) [] references
      (mirrorPort kind kinds texts (raised t (held ++ refsAll actions)) actions port) := by
  cases port with
  | none => exact ⟨some (.mirror none actions), rfl, by simp [references, refsAll, Action.refs]⟩
  | some oid =>
    rw [mirrorPort]
    cases found : fwdport.finds kinds t (some oid) with
    | none =>
      obtain ⟨err, failed⟩ := ready.acquire_none kind texts found
      have back := releaseRefs_held kind held []
        (fun o member => ready.live o (List.mem_append_right held member))
      rw [List.append_nil] at back
      simp only [failed, Outcome.ok_bind, cleanup, back]
      exact ⟨_, rfl⟩
    | some o =>
      simp only [ready.acquire_found found, Outcome.ok_bind]
      refine ⟨some (.mirror (some o) actions), ?_, by simp [references, refsAll, Action.refs]⟩
      have perm : (held ++ refsAll actions ++ [o]).Perm (held ++ o :: refsAll actions) := by
        rw [List.append_assoc]
        exact (List.perm_append_singleton o _).append_left held
      rw [raised_perm t perm]
      rfl

mutual

theorem newAction_builds (held : List O) : ∀ desc : ActionDesc, Ready t held (takes desc) →
    Builds t held (refsOf kinds t desc) (spilled kinds t desc) references
      (newAction kind kinds texts (raised t held) desc)
  | .missing, _ | .unregistered, _ | .mirrorMissing, _ | .selectMissing, _ | .plain (some _), _ => by
    simp only [refsOf, spilled, newAction]
    exact ⟨_, by rw [List.append_nil]⟩
  | .continue, _ | .plain none, _ => by
    simp only [refsOf, newAction]
    exact ⟨_, by rw [List.append_nil], rfl⟩
  | .transmit port, ready => by
    simp only [refsOf, spilled, newAction, newTransmit]
    exact newSingle_builds kind kinds texts ready fwdport _ _ port
  | .lookup table, ready => by
    simp only [refsOf, spilled, newAction, newLookup]
    exact newSingle_builds kind kinds texts ready fwdtable _ _ table
  | .flowCounter counter, ready => by
    simp only [refsOf, spilled, newAction, newFlowCounter]
    exact newSingle_builds kind kinds texts ready fwdflowcounter _ _ counter
  | .learn table, ready => by
    simp only [refsOf, spilled, newAction]
    exact newLearn_builds kind kinds texts ready table
  | .mirror actions port, ready => by
    have inner := newActionsLoop_builds held [] actions (by
      simpa [refsAll] using ready.less (Nat.le_succ _))
    simp only [refsAll, List.append_nil, List.nil_append] at inner
    simp only [refsOf, spilled, newAction]
    cases isBuilt : refsOfAll kinds t actions with
    | none =>
      rw [isBuilt] at inner
      obtain ⟨err, failed⟩ := inner
      rw [failed]
      exact ⟨_, rfl⟩
    | some refs =>
      rw [isBuilt] at inner
      obtain ⟨built, run, rfl⟩ := inner
      rw [run]
      have onward := mirrorPort_builds kind kinds texts
        (ready.take (refsOfAll_bounded kinds t actions) isBuilt) port
      cases port with
      | none | some oid => exact onward
  | .select algorithm actionLists, ready => by
    simp only [refsOf, spilled, newAction]
    by_cases unknown : algorithm = .unspecified
    · simp only [unknown, if_true]
      exact ⟨_, by rw [List.append_nil]⟩
    · have inner := newChoices_builds held [] actionLists (by
        simpa [refsChoices, takes] using ready)
      simpa [unknown, refsChoices] using inner

theorem newActionsLoop_builds (held : List O) (built : List (Action O)) :
    ∀ descs : List ActionDesc, Ready t (held ++ refsAll built) (takesAll descs) →
    Builds t held ((refsOfAll kinds t descs).map (refsAll built ++ ·)) (spilledAll kinds t descs)
      refsAll (newActionsLoop kind kinds texts (raised t (held ++ refsAll built)) built descs)
  | [], _ => by
    simp only [refsOfAll, newActionsLoop]
    exact ⟨built, by simp, by simp⟩
  | desc :: rest, ready => by
    have first := newAction_builds (held ++ refsAll built) desc (ready.less (Nat.le_add_right _ _))
    simp only [refsOfAll, spilledAll, newActionsLoop]
    cases isBuilt : refsOf kinds t desc with
    | none =>
      rw [isBuilt] at first
      obtain ⟨err, failed⟩ := first
      have back := releaseRefs_held kind held (spilled kinds t desc)
        (fun o member => ready.live o (List.mem_append_right held member))
      -- The actions before the failed one are cleaned up, and what it left over itself stays.
      simp only [failed, Outcome.ok_bind, cleanup, back]
      exact ⟨err, rfl⟩
    | some refs =>
      rw [isBuilt] at first
      obtain ⟨action, run, rfl⟩ := first
      have grown : held ++ refsAll built ++ references action =
          held ++ refsAll (built ++ action.toList) := by
        rw [refsAll_append, List.append_assoc]
        rfl
      have onward := newActionsLoop_builds held (built ++ action.toList) rest (by
        rw [← grown]
        exact ready.take (refsOf_bounded kinds t desc) isBuilt)
      rw [← grown] at onward
      simp only [run, Outcome.ok_bind]
      cases restBuilt : refsOfAll kinds t rest with
      | none =>
        rw [restBuilt] at onward
        exact onward
      | some more =>
        rw [restBuilt] at onward
        simpa [joined, refsAll_append, references] using onward

theorem newChoices_builds (held : List O) (built : List (List (Action O))) :
    ∀ lists : List (List ActionDesc), Ready t (held ++ refsChoices built) (takesChoices lists) →
    Builds t held ((refsOfChoices kinds t lists).map (refsChoices built ++ ·))
      (refsChoices built ++ spilledChoices kinds t lists) references
      (newChoices kind kinds texts (raised t (held ++ refsChoices built)) built lists)
  | [], _ => by
    simp only [refsOfChoices, newChoices]
    exact ⟨some (.select built), by simp, by simp [references, refsAll, Action.refs]⟩
  | descs :: rest, ready => by
    have first := newActionsLoop_builds (held ++ refsChoices built) [] descs (by
      simpa [refsAll] using ready.less (Nat.le_add_right _ _))
    simp only [refsAll, List.append_nil, List.nil_append] at first
    simp only [refsOfChoices, spilledChoices, newChoices]
    cases isBuilt : refsOfAll kinds t descs with
    | none =>
      rw [isBuilt] at first
      obtain ⟨err, failed⟩ := first
      -- The lists before the failed one are not cleaned up.
      rw [failed]
      exact ⟨_, by rw [← List.append_assoc]; rfl⟩
    | some refs =>
      rw [isBuilt] at first
      obtain ⟨actions, run, rfl⟩ := first
      have grown : held ++ refsChoices built ++ refsAll actions =
          held ++ refsChoices (built ++ [actions]) := by
        simp [refsChoices_append, refsChoices]
      have onward := newChoices_builds held (built ++ [actions]) rest (by
        rw [← grown]
        exact ready.take (refsOfAll_bounded kinds t descs) isBuilt)
      rw [← grown] at onward
      simp only [run, Outcome.ok_bind]
      cases restBuilt : refsOfChoices kinds t rest with
      | none | some more =>
        rw [restBuilt] at onward
        simpa [joined, refsChoices_append, refsChoices] using onward

end

def SameCounts (before after : Table O) : Prop :=
  ∀ o, (after.objects o).refCount = (before.objects o).refCount

def HasRoom (t : Table O) (descs : List ActionDesc) : Prop :=
  ∀ o, (t.objects o).refCount + takesAll descs < 2 ^ 64

theorem newActions_builds (t : Table O) (descs : List ActionDesc) (room : HasRoom t descs) :
    Builds t [] (refsOfAll kinds t descs) (spilledAll kinds t descs) refsAll
      (newActions kind kinds texts t descs) := by
  have ready : Ready t [] (takesAll descs) := by
    refine ⟨by simp, fun o => ?_⟩
    simpa using room o
  have builds := newActionsLoop_builds kind kinds texts [] [] descs ready
  simpa [refsAll, newActions] using builds

def refuses (t : Table O) : ObjectRef → Bool
  | some (some oid) => (t.ids (newID oid)).isSome
  | _ => true

-- What a table with default actions needs so that a failure to create it takes nothing: no select gives
-- up after a list with references, and with references the table itself has a free id.
def TableDesc.Tidy (t : Table O) (desc : TableDesc) : Prop :=
  desc.tableType ≠ .unregistered → (desc.tableType = .action ∨ desc.given = true) →
    match refsOfAll kinds t desc.actions with
    | none => spilledAll kinds t desc.actions = []
    | some refs => refuses t desc.tableId = true → refs = []

theorem releaseAll_eq (refs : List O) (t : Table O) :
    Object.releaseAll (fun t o => t.release kind o false) refs t = releaseRefs kind t refs := by
  induction refs generalizing t with
  | nil => rfl
  | cons o rest ih =>
    rw [Object.releaseAll, releaseRefs]
    exact congrArg (t.release kind o false >>= ·) (funext fun released => ih released.1)

theorem cleanupComposite_holding (t : Table O) (self : O) {refs : List O}
    (live : ∀ o ∈ refs, (t.objects o).refCount ≠ 0) :
    Object.cleanupComposite (holding kind self refs)
      (fun t o => t.release (holding kind self refs) o false) (raised t refs) self = .ok t := by
  have back := releaseRefs_raised (holding kind self refs) live []
  rw [List.append_nil, raised_nil, ← releaseAll_eq] at back
  simpa [Object.cleanupComposite, holding] using back

theorem insert_holding (t : Table O) {self : O} (fresh : t.objects self = .zero) {refs : List O}
    (live : ∀ o ∈ refs, (t.objects o).refCount ≠ 0) (oid : Option String) :
    ∃ after err, (raised t refs).insert (holding kind self refs) self oid = .ok (after, err) ∧
      (err ≠ none → (SameCounts t after ↔ (refuses t (some oid) = true → refs = []))) := by
  cases oid with
  | none =>
    refine ⟨raised t refs, _, rfl, fun _ => ?_⟩
    rw [SameCounts, raised_eq_iff]
    simp [refuses]
  | some oid =>
    have isNew : ((raised t refs).objects self).id = Object.InvalidID ∧
        ((raised t refs).objects self).nid = Object.InvalidNID := by
      simp [raised, fresh, Object.Base.zero]
    rw [Table.insert]
    simp only [isNew.1, isNew.2, ne_eq, not_true_eq_false, if_false]
    have sameIds : (raised t refs).ids = t.ids := rfl
    rw [sameIds]
    cases isTaken : t.ids (newID oid) with
    | some current =>
      -- The table is given up without a cleanup.
      refine ⟨raised t refs, _, rfl, fun _ => ?_⟩
      rw [SameCounts, raised_eq_iff]
      simp [refuses, isTaken]
    | none =>
      have samePool : (raised t refs).pool = t.pool := rfl
      rw [samePool]
      rcases acquired : t.pool.acquire with ⟨pool, err | nid⟩
      · simp only [cleanupComposite_holding kind t self live, Outcome.ok_bind]
        refine ⟨t, _, rfl, fun _ => ?_⟩
        simp [SameCounts, refuses, isTaken]
      · exact ⟨_, _, rfl, fun failed => absurd rfl failed⟩

theorem newTable_counts (t : Table O) {self : O} (fresh : t.objects self = .zero) (desc : TableDesc)
    (room : HasRoom t desc.actions) (printed : String) :
    ∃ after result, newTable kind kinds texts t self (some desc) printed = .ok (after, result) ∧
      ∀ err, result = .error err → (SameCounts t after ↔ desc.Tidy kinds t) := by
  have unchanged : SameCounts t t := fun _ => rfl
  by_cases known : desc.tableType = .unregistered
  · refine ⟨t, _, by rw [newTable, if_pos known], fun err _ => ?_⟩
    simp [unchanged, TableDesc.Tidy, known]
  rw [newTable, if_neg known, buildTable]
  by_cases missing : desc.tableType ≠ .action ∧ desc.given = false
  · rw [if_pos missing]
    refine ⟨t, _, rfl, fun err _ => ?_⟩
    simp [unchanged, TableDesc.Tidy, missing]
  have described : desc.tableType = .action ∨ desc.given = true := by
    by_contra neither
    simp_all
  rw [if_neg missing]
  have builds := newActions_builds kind kinds texts t desc.actions room
  simp only [TableDesc.Tidy, ne_eq, known, not_false_eq_true, described, forall_const]
  cases isBuilt : refsOfAll kinds t desc.actions with
  | none =>
    rw [isBuilt] at builds
    obtain ⟨err, failed⟩ := builds
    rw [failed]
    refine ⟨_, _, rfl, fun _ _ => ?_⟩
    exact raised_eq_iff t _
  | some refs =>
    obtain ⟨live, _⟩ := refsOfAll_bounded kinds t desc.actions refs isBuilt
    rw [isBuilt] at builds
    obtain ⟨actions, run, rfl⟩ := builds
    rw [run]
    simp only [Outcome.ok_bind, Outcome.pure_eq, List.nil_append]
    cases desc.tableId with
    | none =>
      refine ⟨_, _, rfl, fun _ _ => ?_⟩
      rw [SameCounts, raised_eq_iff]
      simp [refuses]
    | some oid =>
      obtain ⟨after, err, inserted, counts⟩ := insert_holding kind t fresh live oid
      simp only [inserted, Outcome.ok_bind]
      cases err with
      | none => exact ⟨_, _, rfl, nofun⟩
      | some err => exact ⟨_, _, rfl, fun _ _ => counts (by simp)⟩

theorem failed_build_keeps_counts_iff (t : Table O) :
    (∀ descs, HasRoom t descs →
      ∃ after result, newActions kind kinds texts t descs = .ok (after, result) ∧
        ∀ err, result = .error err → (SameCounts t after ↔ spilledAll kinds t descs = [])) ∧
    (∀ self (desc : Option TableDesc) printed, t.objects self = .zero →
      (∀ given ∈ desc, HasRoom t given.actions) →
      ∃ after result, newTable kind kinds texts t self desc printed = .ok (after, result) ∧
        ∀ err, result = .error err →
          (SameCounts t after ↔ ∀ given ∈ desc, given.Tidy kinds t)) := by
  constructor
  · intro descs room
    have builds := newActions_builds kind kinds texts t descs room
    cases isBuilt : refsOfAll kinds t descs with
    | none =>
      rw [isBuilt] at builds
      obtain ⟨err, failed⟩ := builds
      exact ⟨_, _, failed, fun _ _ => raised_eq_iff t _⟩
    | some refs =>
      rw [isBuilt] at builds
      obtain ⟨actions, run, _⟩ := builds
      exact ⟨_, _, run, nofun⟩
  · intro self desc printed fresh room
    cases desc with
    | none => exact ⟨t, _, rfl, fun _ _ => ⟨fun _ => nofun, fun _ _ => rfl⟩⟩
    | some given =>
      simpa using newTable_counts kind kinds texts t fresh given (room given rfl) printed

end Building

section OnePort

def onePort : Table (Fin 2) where
  pool := ⟨1, [], 2 ^ 64 - 1⟩
  nids := fun nid => if nid = 1 then some 0 else none
  ids := fun id => if id = "p" then some 0 else none
  objects := fun o => if o = 0 then ⟨"p", 1, 1, .closure 1⟩ else .zero
  cleanups := fun _ => 0

def noParts : Kind (Fin 2) := ⟨fun _ => false, fun _ _ => [], fun _ _ => ""⟩

def allPorts : Fin 2 → ObjectKind := fun _ => .port

def blank : Texts := ⟨fun _ => "", fun _ => "", fun _ => "", fun _ => ""⟩

def toPort : ActionDesc := .transmit (some (some (some "p")))

theorem plain_list_keeps_counts :
    (∃ after err, newActions noParts allPorts blank onePort [toPort, .missing] =
      .ok (after, .error err) ∧ SameCounts onePort after) ∧
    (∃ after err, newTable noParts allPorts blank onePort 1
      (some ⟨.exact, true, [toPort, .missing], some (some "t")⟩) "" = .ok (after, .error err) ∧
      SameCounts onePort after) := by
  have room : HasRoom onePort [toPort, .missing] := by
    unfold HasRoom
    decide
  obtain ⟨onList, onTable⟩ := failed_build_keeps_counts_iff noParts allPorts blank onePort
  constructor
  · obtain ⟨after, result, run, counts⟩ := onList [toPort, .missing] room
    have failed : newActions noParts allPorts blank onePort [toPort, .missing] =
        .ok (_, .error "fwdaction: new failed, no descriptor for action") := rfl
    cases failed.symm.trans run
    exact ⟨_, _, failed, (counts _ rfl).mpr rfl⟩
  · obtain ⟨after, result, run, counts⟩ :=
      onTable 1 (some ⟨.exact, true, [toPort, .missing], some (some "t")⟩) "" rfl (by
        rintro _ ⟨⟩
        exact room)
    have failed : newTable noParts allPorts blank onePort 1
        (some ⟨.exact, true, [toPort, .missing], some (some "t")⟩) "" =
          .ok (_, .error _) := rfl
    cases failed.symm.trans run
    exact ⟨_, _, failed, (counts _ rfl).mpr (by
      rintro _ ⟨⟩ _ _
      rfl)⟩

-- A select whose second list fails, and a table whose id is taken, keep a reference on the port.
theorem failed_build_keeps_reference :
    (∃ after err, newActions noParts allPorts blank onePort
      [.select .random [[toPort], [.missing]]] = .ok (after, .error err) ∧
      (onePort.objects 0).refCount = 1 ∧ (after.objects 0).refCount = 2) ∧
    (∃ after err, newTable noParts allPorts blank onePort 1
      (some ⟨.exact, true, [toPort], some (some "p")⟩) "" = .ok (after, .error err) ∧
      (after.objects 0).refCount = 2) := by
  refine ⟨⟨_, _, rfl, ?_, ?_⟩, ⟨_, _, rfl, ?_⟩⟩ <;> decide +kernel

end OnePort

end Lemming.Build

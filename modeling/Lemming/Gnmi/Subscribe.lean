import Lemming.Shared.Interleaving
import Lemming.Gnmi.Set

set_option autoImplicit false

namespace Lemming.Gnmi

open Shared.Interleaving

section

variable {R E : Type}

-- A local `Subscribe` call: `left` is what the server has still to send, `err` what its goroutine has
-- still to put on `errCh` once the server has returned, and `got` what `Recv` has returned so far.
structure LocalStream (R E : Type) where
  left : List R
  respCh : List R
  err : Option E
  got : List (Except E R)

namespace LocalStream

def subscribe (responses : List R) (err : Option E) : LocalStream R E := ⟨responses, [], err, []⟩

inductive Action where
  | send
  | recvResp
  | recvErr

-- `respCh` has room for ten responses. `errCh` has no buffer, and a nil error is not put on it.
def step (s : LocalStream R E) : Action → Option (LocalStream R E)
  | .send =>
    match s.left with
    | [] => none
    | resp :: left =>
      if s.respCh.length < 10 then some { s with left, respCh := s.respCh ++ [resp] } else none
  | .recvResp =>
    match s.respCh with
    | [] => none
    | resp :: respCh => some { s with respCh, got := s.got ++ [.ok resp] }
  | .recvErr =>
    match s.left, s.err with
    | [], some err => some { s with err := none, got := s.got ++ [.error err] }
    | _, _ => none

-- The select of `Recv` does not take the error while there are responses.
def Drained (s : LocalStream R E) : Action → Prop
  | .recvErr => s.respCh = []
  | _ => True

variable {s t : LocalStream R E} {action : Action} {actions : List Action}

def coming (s : LocalStream R E) : List (Except E R) := (s.respCh ++ s.left).map .ok

def work (s : LocalStream R E) : Nat := s.left.length + s.coming.length + s.err.toList.length

theorem step_cases (goes : s.step action = some t) :
    t.work < s.work ∧
      ((t.err = s.err ∧ s.Drained action ∧ t.got ++ t.coming = s.got ++ s.coming) ∨
      ∃ err, s.err = some err ∧ s.left = [] ∧ action = .recvErr ∧ t.err = none ∧
        t.got ++ t.coming = s.got ++ .error err :: s.coming) := by
  cases action with
  | send =>
    rw [step] at goes
    split at goes
    · cases goes
    · next isLeft =>
      split at goes <;> cases goes
      exact ⟨by simp [work, coming, isLeft], Or.inl ⟨rfl, trivial, by simp [coming, isLeft]⟩⟩
  | recvResp =>
    rw [step] at goes
    split at goes <;> cases goes
    next isResp =>
    exact ⟨by simp [work, coming, isResp], Or.inl ⟨rfl, trivial, by simp [coming, isResp]⟩⟩
  | recvErr =>
    rw [step] at goes
    split at goes <;> cases goes
    next err isLeft isErr =>
    exact ⟨by simp [work, coming, isErr], Or.inr ⟨err, isErr, isLeft, rfl, rfl, by simp [coming]⟩⟩

theorem atRest_coming (rest : ∀ action, s.step action = none) : s.coming = [] ∧ s.err = none := by
  have noResp := rest .recvResp
  have noSend := rest .send
  have noErr := rest .recvErr
  simp only [step] at noResp noSend noErr
  split at noResp <;> cases noResp
  next isResp =>
  split at noSend
  · next isLeft =>
    rw [isLeft] at noErr
    refine ⟨by simp [coming, isLeft, isResp], ?_⟩
    cases isErr : s.err with
    | none => rfl
    | some err => simp [isErr] at noErr
  · simp [isResp] at noSend

theorem got_of_sent (noErr : s.err = none) (ends : run step s actions = some t)
    (rest : ∀ action, t.step action = none) :
    t.got = s.got ++ s.coming ∧ Along step Drained s actions := by
  induction actions generalizing s with
  | nil =>
    cases ends
    simp [(atRest_coming rest).1, Along]
  | cons action later ih =>
    obtain ⟨next, goes, ends⟩ := run_cons ends
    rcases (step_cases goes).2 with ⟨same, drained, kept⟩ | ⟨err, isErr, -⟩
    · obtain ⟨got, along⟩ := ih (same.trans noErr) ends
      refine ⟨got.trans kept, drained, fun other goes' => ?_⟩
      cases goes.symm.trans goes'
      exact along
    · cases noErr.symm.trans isErr

theorem got_iff_drained {err : E} (isErr : s.err = some err) (ends : run step s actions = some t)
    (rest : ∀ action, t.step action = none) :
    t.got = s.got ++ s.coming ++ [.error err] ↔ Along step Drained s actions := by
  induction actions generalizing s with
  | nil =>
    cases ends
    cases isErr.symm.trans (atRest_coming rest).2
  | cons action later ih =>
    obtain ⟨next, goes, ended⟩ := run_cons ends
    have along : Along step Drained s (action :: later) ↔
        s.Drained action ∧ Along step Drained next later := by
      simp [Along, goes]
    rw [along]
    rcases (step_cases goes).2 with ⟨same, drained, kept⟩ | ⟨err', isErr', isLeft, rfl, noErr, kept⟩
    · rw [← kept, ih (same.trans isErr) ended, and_iff_right drained]
    · cases isErr.symm.trans isErr'
      obtain ⟨got, along⟩ := got_of_sent noErr ended rest
      rw [got, kept, and_iff_left along, List.append_assoc, List.append_cancel_left_eq]
      cases isResp : s.respCh with
      | nil => simp [Drained, coming, isResp, isLeft]
      | cons resp respCh => simp [Drained, coming, isResp]

theorem recv_all_iff (eof : E) (responses : List R) (err : Option E) (actions : List Action)
    (s : LocalStream R E) (ends : run step (subscribe responses err) actions = some s) :
    actions.length ≤ 2 * responses.length + 1 ∧ ((∀ action, s.step action = none) →
      (s.got = responses.map .ok ++ [.error (err.getD eof)] ↔
        err ≠ none ∧ Along step Drained (subscribe responses err) actions)) := by
  constructor
  · have bound := length_le_rank (fun _ _ _ (_ : True) goes => (step_cases goes).1)
      (fun _ _ => trivial) ends
    cases err <;> simp [work, subscribe, coming] at bound ⊢ <;> omega
  · intro rest
    cases err with
    | none =>
      have got := (got_of_sent rfl ends rest).1
      simp [got, subscribe, coming]
    | some err => simpa [subscribe, coming] using got_iff_drained rfl ends rest

theorem recv_all_single :
    ∃ s, run step (subscribe [5] (some 7)) [.send, .recvResp, .recvErr] = some s ∧
      (s.got = [.ok 5, .error 7] ↔ some 7 ≠ none ∧
        Along step Drained (subscribe [5] (some 7)) [.send, .recvResp, .recvErr]) := by
  have ran : run step (subscribe [5] (some 7)) [.send, .recvResp, .recvErr] = some _ := rfl
  exact ⟨_, ran, (recv_all_iff 0 [5] (some 7) _ _ ran).2 fun action => by cases action <;> rfl⟩

-- A server that returns nil leaves the client waiting. One that returns an error has it taken before
-- its response.
theorem recv_not_all :
    (∃ s : LocalStream Nat Nat, run step (subscribe [5] none) [.send, .recvResp] = some s ∧
        (∀ action, s.step action = none) ∧ s.got = [.ok 5]) ∧
      ∃ s, run step (subscribe [5] (some 7)) [.send, .recvErr, .recvResp] = some s ∧
        s.got = [.error 7, .ok 5] :=
  ⟨⟨_, rfl, fun action => by cases action <;> rfl, rfl⟩, _, rfl, rfl⟩

end LocalStream

end

variable {V : Type}

section Send

-- `permits` is what `CheckPermit` answers for the user of the stream.
variable (joinPaths : Option GPath → Option GPath → Except String GPath) (permits : Acl.Path → Bool)

def permittedItems {α : Type} (pathPrefix : Option GPath) (path : α → Option GPath) :
    List α → Except String (List α)
  | [] => .ok []
  | item :: rest =>
    match joinPaths pathPrefix (path item) with
    | .error message => .error message
    | .ok p =>
      match permittedItems pathPrefix path rest with
      | .error message => .error message
      | .ok kept => .ok (if permits p.elem then item :: kept else kept)

def subscribeSend (n : Notification V) : Except String (Option (Notification V)) :=
  match permittedItems joinPaths permits n.pathPrefix some n.delete with
  | .error message => .error message
  | .ok delete =>
    match permittedItems joinPaths permits n.pathPrefix Update.path n.update with
    | .error message => .error message
    | .ok update =>
      if delete.isEmpty && update.isEmpty then .ok none else .ok (some { n with delete, update })

-- An error ends the stream.
def messages : List (Notification V) → List (Notification V)
  | [] => []
  | n :: rest =>
    match subscribeSend joinPaths permits n with
    | .error _ => []
    | .ok none => messages rest
    | .ok (some message) => message :: messages rest

abbrev Tree (V : Type) := Acl.Path → Option V

def restrict (tree : Tree V) : Tree V := fun p => if permits p then tree p else none

variable (n : Notification V)

def Notification.target (item : Option GPath) : Acl.Path :=
  match joinPaths n.pathPrefix item with
  | .error _ => []
  | .ok p => p.elem

def Notification.edits : List (Acl.Path × Option V) :=
  n.delete.map (fun d => (n.target joinPaths (some d), none)) ++
    n.update.map fun u => (n.target joinPaths u.path, some u.val)

def Notification.clear (tree : Tree V) : Tree V := fun p =>
  if n.atomic ∧ n.pathPrefix.elim [] GPath.elem <+: p then none else tree p

-- The tree after a notification, whose items name leaves. An atomic one has all the leaves that there
-- are below its prefix.
def Notification.apply (tree : Tree V) : Tree V :=
  (n.edits joinPaths).foldl (fun tree edit => Function.update tree edit.1 edit.2) (n.clear tree)

def Notification.share : Notification V :=
  { n with
    delete := n.delete.filter fun d => permits (n.target joinPaths (some d))
    update := n.update.filter fun u => permits (n.target joinPaths u.path) }

def Notification.shared : Option (Notification V) :=
  let kept := n.share joinPaths permits
  if kept.delete.isEmpty && kept.update.isEmpty then none else some kept

def Notification.Joins : Prop := ∀ item ∈ n.items, ∃ p, joinPaths n.pathPrefix item = .ok p

def noTrees : Tree V × Tree V := (fun _ => none, fun _ => none)

def watch (trees : Tree V × Tree V) (n : Notification V) : Option (Tree V × Tree V) :=
  match subscribeSend joinPaths permits n with
  | .error _ => none
  | .ok none => some (n.apply joinPaths trees.1, trees.2)
  | .ok (some message) => some (n.apply joinPaths trees.1, message.apply joinPaths trees.2)

def Agree (trees : Tree V × Tree V) : Prop := trees.2 = restrict permits trees.1

def Harmless (trees : Tree V × Tree V) (n : Notification V) : Prop :=
  n.atomic = true → n.shared joinPaths permits = none →
    ∀ p, n.pathPrefix.elim [] GPath.elem <+: p → permits p = true → trees.1 p = none

variable {joinPaths permits n} {trees : Tree V × Tree V}

theorem permittedItems_eq {α : Type} {path : α → Option GPath} {items : List α}
    (joins : ∀ item ∈ items, ∃ p, joinPaths n.pathPrefix (path item) = .ok p) :
    permittedItems joinPaths permits n.pathPrefix path items =
      .ok (items.filter fun item => permits (n.target joinPaths (path item))) := by
  induction items with
  | nil => rfl
  | cons item rest ih =>
    obtain ⟨⟨p, isPath⟩, later⟩ := List.forall_mem_cons.mp joins
    rw [permittedItems, isPath, ih later, List.filter_cons, Notification.target, isPath]

theorem subscribeSend_eq (joins : n.Joins joinPaths) :
    subscribeSend joinPaths permits n = .ok (n.shared joinPaths permits) := by
  rw [Notification.Joins, Notification.items, List.forall_mem_append, List.forall_mem_map,
    List.forall_mem_map] at joins
  rw [subscribeSend, permittedItems_eq joins.1, permittedItems_eq joins.2, Notification.shared,
    apply_ite Except.ok]
  rfl

theorem messages_eq {ns : List (Notification V)} (joins : ∀ n ∈ ns, n.Joins joinPaths) :
    messages joinPaths permits ns = ns.filterMap (·.shared joinPaths permits) := by
  induction ns with
  | nil => rfl
  | cons n rest ih =>
    obtain ⟨first, later⟩ := List.forall_mem_cons.mp joins
    rw [messages, subscribeSend_eq first, ih later]
    cases isShared : n.shared joinPaths permits <;> simp [isShared]

theorem edits_share :
    (n.share joinPaths permits).edits joinPaths = (n.edits joinPaths).filter (permits ·.1) := by
  rw [Notification.edits, Notification.edits, List.filter_append, List.filter_map, List.filter_map]
  rfl

theorem restrict_edits (edits : List (Acl.Path × Option V)) (tree : Tree V) :
    restrict permits (edits.foldl (fun tree edit => Function.update tree edit.1 edit.2) tree) =
      (edits.filter (permits ·.1)).foldl (fun tree edit => Function.update tree edit.1 edit.2)
        (restrict permits tree) := by
  induction edits generalizing tree with
  | nil => rfl
  | cons edit rest ih =>
    rw [List.foldl_cons, ih, List.filter_cons]
    have first : restrict permits (Function.update tree edit.1 edit.2) =
        if permits edit.1 then Function.update (restrict permits tree) edit.1 edit.2
          else restrict permits tree := by
      funext p
      by_cases same : p = edit.1
      · subst same
        by_cases readable : permits edit.1 <;> simp [restrict, readable]
      · by_cases readable : permits edit.1 <;> simp [restrict, readable, same]
    rw [first]
    split <;> rfl

theorem restrict_apply (tree : Tree V) :
    restrict permits (n.apply joinPaths tree) =
      (n.share joinPaths permits).apply joinPaths (restrict permits tree) := by
  rw [Notification.apply, Notification.apply, restrict_edits, edits_share]
  congr 1
  funext p
  by_cases readable : permits p <;>
    simp [restrict, Notification.clear, Notification.share, readable]

theorem watch_agree_iff (joins : n.Joins joinPaths)
    (agree : Agree permits trees) :
    (∃ after, watch joinPaths permits trees n = some after ∧ Agree permits after) ↔
      Harmless joinPaths permits trees n := by
  rw [watch, subscribeSend_eq joins, Harmless]
  rw [Agree] at agree
  cases isShared : n.shared joinPaths permits with
  | some message =>
    rw [Notification.shared] at isShared
    split at isShared <;> cases isShared
    simp [Agree, agree, restrict_apply]
  | none =>
    rw [Notification.shared] at isShared
    split at isShared <;> cases isShared
    next empty =>
    have none : (n.share joinPaths permits).edits joinPaths = [] := by
      simpa [Notification.edits] using empty
    simp only [Option.some.injEq, exists_eq_left', Agree, forall_const]
    rw [agree, restrict_apply, Notification.apply, none, List.foldl_nil, funext_iff]
    constructor
    · intro same atomic p below readable
      simpa [restrict, Notification.clear, Notification.share, atomic, below, readable] using same p
    · intro harmless p
      by_cases readable : permits p = true
      · rw [Notification.clear]
        split
        · next cleared => simp [restrict, readable, harmless cleared.1 p cleared.2 readable]
        · rfl
      · simp [Notification.clear, restrict, readable]

theorem subscriber_share_iff (joinPaths : Option GPath → Option GPath → Except String GPath)
    (permits : Acl.Path → Bool) (ns : List (Notification V)) (joins : ∀ n ∈ ns, n.Joins joinPaths) :
    (Along (watch joinPaths permits) (fun trees n => ∃ after,
          watch joinPaths permits trees n = some after ∧ Agree permits after) noTrees ns ∧
      ∀ ns' : List (Notification V), (∀ n ∈ ns', n.Joins joinPaths) →
        ns.filterMap (·.shared joinPaths permits) = ns'.filterMap (·.shared joinPaths permits) →
        messages joinPaths permits ns = messages joinPaths permits ns') ↔
      Along (watch joinPaths permits) (Harmless joinPaths permits) noTrees ns := by
  refine (and_iff_left fun ns' joins' same => ?_).trans
    (along_iff_left (I := fun trees ns => (∀ n ∈ ns, n.Joins joinPaths) ∧ Agree permits trees)
      ?_ ?_ ⟨joins, by simp [Agree, restrict, noTrees, funext_iff]⟩)
  · rw [messages_eq joins, messages_eq joins', same]
  · rintro trees n rest next ⟨joins, -⟩ ⟨after, goes, agree⟩ goes'
    cases goes.symm.trans goes'
    exact ⟨(List.forall_mem_cons.mp joins).2, agree⟩
  · rintro trees n rest ⟨joins, agree⟩
    exact watch_agree_iff (List.forall_mem_cons.mp joins).1 agree

end Send

def leafAt (name : Char) : GPath := ⟨"", "", [⟨[name], ∅⟩]⟩

def setLeaf (name : Char) (atomic : Bool) : Notification Nat :=
  ⟨none, [], [⟨some (leafAt name), 5⟩], 0, atomic⟩

def itself (_ item : Option GPath) : Except String GPath := .ok (item.getD .empty)

-- The leaf a can be read, the leaf b cannot.
theorem subscriber_share_denied :
    Along (watch itself (· = (leafAt 'a').elem)) (fun trees n => ∃ after,
      watch itself (· = (leafAt 'a').elem) trees n = some after ∧ Agree (· = (leafAt 'a').elem) after)
      noTrees [setLeaf 'a' false, setLeaf 'b' false] :=
  ((subscriber_share_iff itself _ [setLeaf 'a' false, setLeaf 'b' false] fun _ _ _ _ => ⟨_, rfl⟩).mpr
    ⟨nofun, fun _ _ => ⟨nofun, fun _ _ => trivial⟩⟩).1

-- The atomic notification takes the leaf a away and names only the leaf b.
theorem subscriber_keeps_leaf :
    ∃ trees, run (watch itself (· = (leafAt 'a').elem)) noTrees [setLeaf 'a' false, setLeaf 'b' true] =
      some trees ∧ trees.1 (leafAt 'a').elem = none ∧ trees.2 (leafAt 'a').elem = some 5 := by
  have ran : run (watch itself (· = (leafAt 'a').elem)) noTrees
      [setLeaf 'a' false, setLeaf 'b' true] = some _ := rfl
  exact ⟨_, ran, rfl, rfl⟩

-- An external stream. `left` are the items of a notification that `Send` has still to check and `kept`
-- those of the response. `opened` and the numbers of the items are history: how many policies had been
-- rotated in when the stream opened, and when the item was last looked at.
structure Subscriber where
  user : String
  opened : Nat
  filtered : Bool
  left : List Acl.Path
  kept : List (Acl.Path × Nat)

structure Subscriptions (Policy : Type) where
  active : Option Policy
  rotations : Nat
  streams : List Subscriber

inductive Subscriptions.Action (Policy : Type) where
  | rotate (policy : Policy)
  | subscribe (user : String)
  | notify (stream : Nat) (items : List Acl.Path)
  | check (stream : Nat)
  | deliver (stream : Nat)

namespace Subscriptions

variable {Policy : Type} (permits : Policy → Acl.Path → String → Bool)

def onStream (s : Subscriptions Policy) (i : Nat) (act : Subscriber → Option Subscriber) :
    Option (Subscriptions Policy) :=
  (s.streams[i]?.bind act).map fun stream => { s with streams := s.streams.set i stream }

-- Whether a stream is filtered is decided when it opens. A user has to give a name only then.
def step (s : Subscriptions Policy) : Action Policy → Option (Subscriptions Policy)
  | .rotate policy => some { s with active := some policy, rotations := s.rotations + 1 }
  | .subscribe user =>
    if s.active.isSome && user == "" then none
    else some { s with streams := s.streams ++ [⟨user, s.rotations, s.active.isSome, [], []⟩] }
  | .notify i items => s.onStream i fun stream =>
    if !stream.left.isEmpty || !stream.kept.isEmpty then none
    else if stream.filtered then some { stream with left := items }
    else some { stream with kept := items.map (·, s.rotations) }
  | .check i => s.onStream i fun stream =>
    match stream.left with
    | [] => none
    | p :: left =>
      if s.active.any (permits · p stream.user) then
        some { stream with left, kept := stream.kept ++ [(p, s.rotations)] }
      else some { stream with left }
  | .deliver i => s.onStream i fun stream =>
    if stream.left.isEmpty then some { stream with kept := [] } else none

def Delivers (P : Subscriptions Policy → Subscriber → Acl.Path × Nat → Prop) (s : Subscriptions Policy) :
    Action Policy → Prop
  | .deliver i => ∀ stream, s.streams[i]? = some stream → stream.left = [] →
    ∀ item ∈ stream.kept, P s stream item
  | _ => True

def Permitted (s : Subscriptions Policy) (stream : Subscriber) (item : Acl.Path × Nat) : Prop :=
  ∀ policy ∈ s.active, permits policy item.1 stream.user = true

-- There is no policy yet, or the stream opened under one and none came since the item was looked at.
def Timely (s : Subscriptions Policy) (stream : Subscriber) (item : Acl.Path × Nat) : Prop :=
  s.rotations = 0 ∨ 0 < stream.opened ∧ item.2 = s.rotations

structure Filtered (s : Subscriptions Policy) (stream : Subscriber) : Prop where
  late : 0 < stream.opened → stream.filtered = true
  past : ∀ item ∈ stream.kept, item.2 ≤ s.rotations
  checked : stream.filtered = true →
    ∀ item ∈ stream.kept, item.2 = s.rotations → s.Permitted permits stream item

structure Consistent (s : Subscriptions Policy) : Prop where
  counted : s.active.isSome = true ↔ 0 < s.rotations
  streams : ∀ stream ∈ s.streams, s.Filtered permits stream

variable {permits} {s t : Subscriptions Policy}

theorem Consistent.onStream (consistent : s.Consistent permits) {i : Nat}
    {act : Subscriber → Option Subscriber} (goes : s.onStream i act = some t)
    (keeps : ∀ stream next, s.Filtered permits stream → act stream = some next →
      s.Filtered permits next) : t.Consistent permits := by
  obtain ⟨next, acts, rfl⟩ := Option.map_eq_some_iff.mp goes
  obtain ⟨stream, isStream, acts⟩ := Option.bind_eq_some_iff.mp acts
  refine ⟨consistent.counted, fun other member => ?_⟩
  have filtered : s.Filtered permits other := by
    rcases List.mem_or_eq_of_mem_set member with old | rfl
    · exact consistent.streams other old
    · exact keeps stream other (consistent.streams stream (List.mem_of_getElem? isStream)) acts
  exact ⟨filtered.late, filtered.past, filtered.checked⟩

theorem Consistent.step {action : Action Policy} (consistent : s.Consistent permits)
    (goes : s.step permits action = some t) : t.Consistent permits := by
  cases action with
  | rotate policy =>
    cases goes
    -- What was checked before is out of date.
    refine ⟨by simp, fun stream member => ?_⟩
    obtain ⟨late, past, -⟩ := consistent.streams stream member
    refine ⟨late, fun item isItem => (past item isItem).trans (Nat.le_succ _), ?_⟩
    intro _ item isItem current
    have before := past item isItem
    exact absurd (show item.2 = s.rotations + 1 from current) (by omega)
  | subscribe user =>
    rw [Subscriptions.step] at goes
    split at goes <;> cases goes
    refine ⟨consistent.counted, fun stream member => ?_⟩
    rcases List.mem_append.mp member with old | new
    · obtain ⟨late, past, checked⟩ := consistent.streams stream old
      exact ⟨late, past, checked⟩
    · rw [List.mem_singleton.mp new]
      exact ⟨consistent.counted.mpr, by simp, by simp⟩
  | notify i items =>
    refine consistent.onStream goes fun stream next filtered acts => ?_
    split at acts
    · cases acts
    · split at acts <;> cases acts
      · exact ⟨filtered.late, filtered.past, filtered.checked⟩
      · next unfiltered => exact ⟨filtered.late, by simp, fun isFiltered => absurd isFiltered unfiltered⟩
  | check i =>
    refine consistent.onStream goes fun stream next filtered acts => ?_
    split at acts
    · cases acts
    · next p left isLeft =>
      split at acts <;> cases acts
      · next permitted =>
        refine ⟨filtered.late, ?_, fun isFiltered => ?_⟩
        · rw [List.forall_mem_append]
          exact ⟨filtered.past, by simp⟩
        · rw [List.forall_mem_append]
          refine ⟨filtered.checked isFiltered, fun item isNew _ policy isActive => ?_⟩
          rw [Option.mem_def.mp isActive] at permitted
          rw [List.mem_singleton.mp isNew]
          exact permitted
      · exact ⟨filtered.late, filtered.past, filtered.checked⟩
  | deliver i =>
    refine consistent.onStream goes fun stream next filtered acts => ?_
    split at acts <;> cases acts
    exact ⟨filtered.late, by simp, by simp⟩

theorem Consistent.permitted (consistent : s.Consistent permits) {stream : Subscriber}
    (member : stream ∈ s.streams) {item : Acl.Path × Nat} (isItem : item ∈ stream.kept)
    (timely : s.Timely stream item) : s.Permitted permits stream item := by
  obtain ⟨late, -, checked⟩ := consistent.streams stream member
  rcases timely with never | ⟨opened, current⟩
  · intro policy isActive
    have some := consistent.counted.mp (by rw [Option.mem_def.mp isActive]; rfl)
    omega
  · exact checked (late opened) item isItem current

-- Each policy permits the paths that begin with its letter. The second one takes over before the
-- second notification.
def byLetter (letter : Char) (path : Acl.Path) (_ : String) : Bool := path.head?.any (·.name = [letter])

def twoPolicies : List (Action Char) :=
  [.rotate 'a', .subscribe "u", .notify 0 [[⟨['a'], ∅⟩], [⟨['b'], ∅⟩]], .check 0, .check 0, .deliver 0,
    .rotate 'b', .notify 0 [[⟨['a'], ∅⟩], [⟨['b'], ∅⟩]], .check 0, .check 0, .deliver 0]

end Subscriptions

end Lemming.Gnmi

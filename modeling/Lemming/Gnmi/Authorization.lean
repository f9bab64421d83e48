import Lemming.Gnmi.Set

set_option autoImplicit false

namespace Lemming.Gnmi

open Shared

variable {V Root Cache : Type}

structure View (V Root Cache : Type) where
  leafOf : Root → Acl.Path → Option V
  cached : Cache → Acl.Path → Option V

inductive Store where
  | config
  | state
  | cache
deriving DecidableEq

variable (view : View V Root Cache)

variable (server : Server V Root Cache)

def Server.leaf (p : Acl.Path) :
    Store → Option V
  | .config => server.configSchema.bind fun root => view.leafOf root p
  | .state => server.stateSchema.bind fun root => view.leafOf root p
  | .cache => view.cached server.cache p

def Changes (before after : Server V Root Cache) (p : Acl.Path) : Prop :=
  ∃ store, before.leaf view p store ≠ after.leaf view p store

def Names (lib : Library V Root Cache) (nos : List (Notification V)) (p : Acl.Path) : Prop :=
  ∃ n ∈ nos, ∃ item ∈ n.items, ∃ q, lib.joinPaths n.pathPrefix item = .ok q ∧ q.elem = p

-- What the request makes of the stored root in config mode, if it gets as far as the policy, and the
-- notifications that the policy is asked about.
structure Attempt (lib : Library V Root Cache) (server : Server V Root Cache) (req : SetRequest V)
    (root dirty : Root) (nos : List (Notification V)) : Prop where
  schema : server.configSchema = some root
  copied : lib.deepCopy root = .ok root
  unmarshalled : unmarshalSetRequest lib root req.filled true = (dirty, none)
  valid : validateRoot lib server.validators dirty = none
  listed : cacheNotifs lib dirty (some root) true 0 = .ok nos

def Server.sent (lib : Library V Root Cache) (clock : Nat → Int) (server : Server V Root Cache)
    (req : SetRequest V) (nos : List (Notification V)) : Cache × Option GoError :=
  updateCacheNotifs lib server.name clock (req.filled.pathPrefix.elim "" GPath.origin) 1 nos server.cache

-- A leaf that changes in the root or in the cache, and that no notification names.
def Unnamed (lib : Library V Root Cache) (clock : Nat → Int) (server : Server V Root Cache)
    (req : SetRequest V) (p : Acl.Path) : Prop :=
  ∃ root dirty nos, Attempt lib server req root dirty nos ∧ ¬ Names lib nos p ∧
    ((server.sent lib clock req nos).2 = none ∧ view.leafOf root p ≠ view.leafOf dirty p ∨
      view.cached server.cache p ≠ view.cached (server.sent lib clock req nos).1 p)

theorem Attempt.unique {lib : Library V Root Cache} {server : Server V Root Cache} {req : SetRequest V}
    {root dirty root' dirty' : Root} {nos nos' : List (Notification V)}
    (first : Attempt lib server req root dirty nos) (second : Attempt lib server req root' dirty' nos') :
    root = root' ∧ dirty = dirty' ∧ nos = nos' := by
  obtain rfl := Option.some.inj (first.schema.symm.trans second.schema)
  have same := first.unmarshalled.symm.trans second.unmarshalled
  obtain rfl : dirty = dirty' := congrArg Prod.fst same
  exact ⟨rfl, rfl, Except.ok.inj (first.listed.symm.trans second.listed)⟩

variable {lib : Library V Root Cache} {auth : PathAuth} {user : String}

theorem checkItems_true_iff {pathPrefix : Option GPath} {items : List (Option GPath)} :
    checkItems lib auth user pathPrefix items = .ok true ↔ ∀ item ∈ items,
      ∃ q, lib.joinPaths pathPrefix item = .ok q ∧ auth.checkPermit q.elem user true = true := by
  induction items with
  | nil => simp [checkItems]
  | cons item rest ih =>
    rw [checkItems, List.forall_mem_cons, ← ih]
    cases lib.joinPaths pathPrefix item with
    | error message => simp
    | ok q => cases permitted : auth.checkPermit q.elem user true <;> simp [permitted]

variable {nos : List (Notification V)}

theorem checkWritePermission_true_iff : checkWritePermission lib auth user nos = .ok true ↔
    ∀ n ∈ nos, ∀ item ∈ n.items,
      ∃ q, lib.joinPaths n.pathPrefix item = .ok q ∧ auth.checkPermit q.elem user true = true := by
  induction nos with
  | nil => simp [checkWritePermission]
  | cons no rest ih =>
    rw [checkWritePermission, List.forall_mem_cons, ← ih, ← checkItems_true_iff]
    split
    · next outcome => rw [outcome, eq_self_iff_true, true_and]
    · next denied => exact ⟨fun same => absurd same denied, fun both => both.1⟩

theorem authorize_ok_iff (active : auth.isInitialized = true) :
    authorize lib (some auth) user nos = .ok () ↔ ∀ n ∈ nos, ∀ item ∈ n.items,
      ∃ q, lib.joinPaths n.pathPrefix item = .ok q ∧ auth.checkPermit q.elem user true = true := by
  rw [← checkWritePermission_true_iff, authorize, active]
  simp only [Bool.not_true, Bool.false_eq_true, if_false]
  split <;> simp_all

theorem authorize_names (active : auth.isInitialized = true)
    (allowed : authorize lib (some auth) user nos = .ok ()) {p : Acl.Path}
    (named : Names lib nos p) : auth.checkPermit p user true = true := by
  obtain ⟨n, member, item, isItem, q, joined, rfl⟩ := named
  obtain ⟨q', joined', permitted⟩ := (authorize_ok_iff active).mp allowed n member item isItem
  cases joined.symm.trans joined'
  exact permitted

open Classical in
-- The policy that permits the paths which the notifications name, and no others.
noncomputable def namedOnly (lib : Library V Root Cache) (nos : List (Notification V)) : PathAuth :=
  ⟨fun p _ _ => decide (Names lib nos p), true⟩

@[simp] theorem namedOnly_permits {p : Acl.Path} {write : Bool} :
    (namedOnly lib nos).checkPermit p user write = true ↔ Names lib nos p := by
  simp [namedOnly]

theorem authorize_namedOnly (active : auth.isInitialized = true)
    (allowed : authorize lib (some auth) user nos = .ok ()) :
    authorize lib (some (namedOnly lib nos)) user nos = .ok () := by
  refine (authorize_ok_iff rfl).mpr fun n member item isItem => ?_
  obtain ⟨q, joined, -⟩ := (authorize_ok_iff active).mp allowed n member item isItem
  exact ⟨q, joined, namedOnly_permits.mpr ⟨n, member, item, isItem, q, joined, rfl⟩⟩

section Diff

variable {timestamp : Int} {view : View V Root Cache} {clock : Nat → Int} {req : SetRequest V} {name origin : String}
  {shadow : Bool} {validators : List (Root → Option String)} {root dirty root' : Root} {cache cache' : Cache}
  {err : Option GoError}

theorem setDiff_cases {auth : Option PathAuth}
    (copies : ∀ root copy, lib.deepCopy root = .ok copy → copy = root)
    (result : setDiff lib name clock req origin shadow validators timestamp user auth root cache =
      (root', cache', err)) :
    (root' = root ∧ cache' = cache) ∨ ∃ dirty nos sendErr,
      (lib.deepCopy root = .ok root ∧ unmarshalSetRequest lib root req shadow = (dirty, none) ∧
        (if shadow then validateRoot lib validators dirty else none) = none ∧
        cacheNotifs lib dirty (some root) shadow timestamp = .ok nos ∧
        authorize lib auth user nos = .ok ()) ∧
      updateCacheNotifs lib name clock origin 1 nos cache = (cache', sendErr) ∧
      ((∃ failure, sendErr = some failure) ∧ root' = root ∨ err = none ∧ root' = dirty) := by
  rw [setDiff] at result
  split at result
  · cases result
    exact .inl ⟨rfl, rfl⟩
  · next prevRoot copied =>
    obtain rfl := copies root prevRoot copied
    split at result
    · cases result
      exact .inl ⟨rfl, rfl⟩
    · next dirty unmarshalled =>
      cases valid : (if shadow then validateRoot lib validators dirty else none) with
      | some failure =>
        simp only [valid] at result
        cases result
        exact .inl ⟨rfl, rfl⟩
      | none =>
        simp only [valid, updateCache] at result
        cases listed : cacheNotifs lib dirty (some prevRoot) shadow timestamp with
        | error failure =>
          simp only [listed] at result
          cases result
          exact .inl ⟨rfl, rfl⟩
        | ok nos =>
          cases allowed : authorize lib auth user nos with
          | error failure =>
            simp only [listed, allowed] at result
            cases result
            exact .inl ⟨rfl, rfl⟩
          | ok =>
            simp only [listed, allowed] at result
            split at result
            · next sent =>
              cases result
              exact .inr ⟨dirty, nos, _, ⟨copied, unmarshalled, valid, listed, allowed⟩, sent,
                .inl ⟨⟨_, rfl⟩, rfl⟩⟩
            · next sent =>
              cases result
              exact .inr ⟨_, nos, _, ⟨copied, unmarshalled, valid, listed, allowed⟩, sent,
                .inr ⟨rfl, rfl⟩⟩

theorem setDiff_attempt {auth : Option PathAuth} (copied : lib.deepCopy root = .ok root)
    (unmarshalled : unmarshalSetRequest lib root req shadow = (dirty, none))
    (valid : (if shadow then validateRoot lib validators dirty else none) = none)
    (listed : cacheNotifs lib dirty (some root) shadow timestamp = .ok nos)
    (allowed : authorize lib auth user nos = .ok ())
    (sent : updateCacheNotifs lib name clock origin 1 nos cache = (cache', err)) :
    setDiff lib name clock req origin shadow validators timestamp user auth root cache =
      (if err = none then dirty else root, cache', err.map fun err => .status .internal err.text) := by
  rw [setDiff]
  simp only [copied, unmarshalled, valid, updateCache, listed, allowed, sent]
  cases err <;> rfl

end Diff

variable {timestamp : Int} {view : View V Root Cache} {clock : Nat → Int} {req : SetRequest V}

def Update.isInternal (update : Update V) : Bool :=
  update.path.elim false fun path => decide (path.origin = internalOrigin)

def SetRequest.hasInternal (req : SetRequest V) : Bool :=
  req.delete.any (fun del => decide (del.origin = internalOrigin)) ||
    (req.replace ++ req.update).any Update.isInternal

def Update.isExternal (update : Update V) : Bool :=
  update.path.elim false fun path => decide (path.origin ≠ internalOrigin)

theorem splitUpdates_parts {updates internal : List (Update V)} {external : Bool}
    (parts : splitUpdates updates = some (internal, external)) :
    internal = updates.filter Update.isInternal ∧ external = updates.any Update.isExternal := by
  induction updates generalizing internal external with
  | nil =>
    cases parts
    exact ⟨rfl, rfl⟩
  | cons update rest ih =>
    rw [splitUpdates] at parts
    split at parts
    · cases parts
    · next path isPath =>
      split at parts
      · cases parts
      · next more others later =>
        obtain ⟨rfl, rfl⟩ := ih later
        split at parts
        · next origin =>
          cases parts
          simp [Update.isInternal, Update.isExternal, isPath, origin]
        · next origin =>
          cases parts
          simp [Update.isInternal, Update.isExternal, isPath, origin]

theorem not_isEmpty_filter {α : Type} (p : α → Bool) (xs : List α) :
    (!(xs.filter p).isEmpty) = xs.any p := by
  induction xs with
  | nil => rfl
  | cons x rest ih => cases holds : p x <;> simp [holds, ← ih]

theorem handleInternalOrigin_external (lib : Library V Root Cache) (name : String)
    (clock : Nat → Int) (cache : Cache) (none : req.hasInternal = false) :
    handleInternalOrigin lib name clock req cache = (cache, .leave) ∨
      handleInternalOrigin lib name clock req cache = (cache, .panic) := by
  obtain ⟨noDelete, noUpdate⟩ := Bool.or_eq_false_iff.mp none
  have deletes : (req.delete.filter fun del => decide (del.origin = internalOrigin)) = [] := by
    simpa using noDelete
  rw [handleInternalOrigin]
  simp only [internalDeletes, deletes, List.isEmpty_nil, Bool.not_true, Bool.false_eq_true,
    if_false, Bool.false_or]
  rcases parts : splitUpdates (req.replace ++ req.update) with _ | ⟨internal, external⟩
  · exact Or.inr rfl
  · left
    have empty : internal = [] := by
      rw [(splitUpdates_parts parts).1, List.filter_eq_nil_iff]
      intro update member isInternal
      rw [List.any_eq_false] at noUpdate
      exact noUpdate update member isInternal
    rw [empty]
    rfl

theorem handleInternalOrigin_internal (lib : Library V Root Cache) (name : String)
    (clock : Nat → Int) (cache : Cache) (some : req.hasInternal = true) :
    (handleInternalOrigin lib name clock req cache).2 ≠ .leave := by
  rw [handleInternalOrigin]
  dsimp only
  split
  · simp
  split
  · simp
  case h_2 internal external parts =>
    have found : (!(req.delete.filter fun del => decide (del.origin = internalOrigin)).isEmpty ||
        !internal.isEmpty) = true := by
      rw [(splitUpdates_parts parts).1]
      rcases Bool.or_eq_true_iff.mp some with delete | update
      · rw [not_isEmpty_filter, delete, Bool.true_or]
      · rw [not_isEmpty_filter _ (req.replace ++ req.update), update, Bool.or_true]
    simp only [internalDeletes, found, Bool.not_true, Bool.false_eq_true, if_false, sendInternal]
    split
    · simp
    · split <;> simp

def SelectsState (md : Metadata) : Prop :=
  Mode.config.text ∉ md.get gnmiModeMetadataKey ∧ Mode.state.text ∈ md.get gnmiModeMetadataKey

variable {md : Metadata}

theorem selectMode_state {mode : Mode}
    (selected : selectMode md = .ok (mode, timestamp)) : mode = .state ↔ SelectsState md := by
  rw [selectMode] at selected
  split at selected
  case isTrue config =>
    cases selected
    simp [SelectsState, config]
  case isFalse notConfig =>
    split at selected
    case isFalse notState =>
      cases selected
      simp [SelectsState, notState]
    case isTrue state =>
      have isState : mode = .state := by
        split at selected
        · cases selected
          rfl
        · split at selected
          · cases selected
            rfl
          · cases selected
      exact iff_of_true isState ⟨notConfig, state⟩

theorem selectMode_config {mode : Mode} (selected : selectMode md = .ok (mode, timestamp))
    (config : ¬ SelectsState md) : mode = .config ∧ timestamp = 0 := by
  rw [SelectsState, not_and_or, not_not] at config
  rw [selectMode] at selected
  split at selected
  · cases selected
    exact ⟨rfl, rfl⟩
  · next notConfig =>
    rw [if_neg (config.resolve_left notConfig)] at selected
    cases selected
    exact ⟨rfl, rfl⟩

theorem selectUser_ok (selected : selectUser md = .ok user) :
    md.get usernameKey = [user] := by
  rw [selectUser] at selected
  split at selected
  case h_1 name isName =>
    split at selected
    · cases selected
    · cases selected
      exact isName
  case h_2 => cases selected

def Server.withAuth (auth : PathAuth) : Server V Root Cache :=
  { server with pathAuth := some auth }

@[simp] theorem Server.leaf_withAuth
    (auth : PathAuth) : (server.withAuth auth).leaf view = server.leaf view := by
  funext p store
  cases store <;> rfl

theorem readContext_external {server : Server V Root Cache} {ctx : Context}
    (active : auth.isInitialized = true) (isMetadata : ctx.metadata = some md) (external : ctx.hasAddr = true) :
    (server.withAuth auth).readContext ctx =
      match selectMode md with
      | .error err => .error err
      | .ok (mode, timestamp) =>
        match selectUser md with
        | .error err => .error err
        | .ok user => .ok (mode, timestamp, user) := by
  have isActive : (server.withAuth auth).authActive = true := active
  rw [Server.readContext, isMetadata]
  cases isMode : selectMode md with
  | error err => simp [isMode]
  | ok choice => cases isUser : selectUser md <;> simp [isActive, external, isMode, isUser]

section Attempts

variable {server : Server V Root Cache} {root dirty : Root}

theorem Attempt.setMode (attempt : Attempt lib server req root dirty nos)
    (allowed : authorize lib (some auth) user nos = .ok ()) :
    ((server.withAuth auth).setMode lib clock req.filled 0 user .config).1 =
      { server.withAuth auth with
        cache := (server.sent lib clock req nos).1
        configSchema := some (if (server.sent lib clock req nos).2 = none then dirty else root) } := by
  have schema : (server.withAuth auth).configSchema = some root := attempt.schema
  have result := setDiff_attempt attempt.copied attempt.unmarshalled attempt.valid attempt.listed
    allowed (show server.sent lib clock req nos = (_, _) from rfl)
  rw [Server.setMode, schema]
  -- With the shadow paths preferred the request never takes the fast path.
  simp only [set, Bool.not_true, Bool.false_and, Bool.false_eq_true, if_false]
  exact congrArg (fun r => { server.withAuth auth with cache := r.2.1, configSchema := some r.1 }) result

theorem Attempt.changes_iff (attempt : Attempt lib server req root dirty nos)
    (allowed : authorize lib (some auth) user nos = .ok ()) (p : Acl.Path) :
    Changes view (server.withAuth auth)
        ((server.withAuth auth).setMode lib clock req.filled 0 user .config).1 p ↔
      (server.sent lib clock req nos).2 = none ∧ view.leafOf root p ≠ view.leafOf dirty p ∨
        view.cached server.cache p ≠ view.cached (server.sent lib clock req nos).1 p := by
  rw [attempt.setMode allowed]
  constructor
  · rintro ⟨store, differs⟩
    cases store with
    | config =>
      left
      by_cases sent : (server.sent lib clock req nos).2 = none
      · simpa [Server.leaf, Server.withAuth, attempt.schema, sent] using differs
      · simp [Server.leaf, Server.withAuth, attempt.schema, sent] at differs
    | state => exact absurd rfl differs
    | cache => exact Or.inr differs
  · rintro (⟨sent, differs⟩ | differs)
    · exact ⟨.config, by simpa [Server.leaf, Server.withAuth, attempt.schema, sent] using differs⟩
    · exact ⟨.cache, differs⟩

theorem attempt_of_changes (copies : ∀ root copy, lib.deepCopy root = .ok copy → copy = root)
    {p : Acl.Path} (changed : Changes view (server.withAuth auth)
      ((server.withAuth auth).setMode lib clock req.filled 0 user .config).1 p) :
    ∃ root dirty nos, Attempt lib server req root dirty nos ∧
      authorize lib (some auth) user nos = .ok () := by
  rw [Server.setMode] at changed
  split at changed
  · obtain ⟨store, differs⟩ := changed
    exact absurd rfl differs
  · next root schema =>
    split at changed
    next root' cache' err result =>
    rw [set] at result
    simp only [Bool.not_true, Bool.false_and, Bool.false_eq_true, if_false] at result
    rcases setDiff_cases copies result with ⟨rfl, rfl⟩ |
      ⟨dirty, nos, sendErr, ⟨copied, unmarshalled, valid, listed, allowed⟩, -, -⟩
    · obtain ⟨store, differs⟩ := changed
      cases store with
      | config => simp [Server.leaf, schema] at differs
      | state | cache => exact absurd rfl differs
    · exact ⟨root, dirty, nos, ⟨schema, copied, unmarshalled, valid, listed⟩, allowed⟩

end Attempts

section Call

variable {lib : Library V Root Cache} {view : View V Root Cache} {clock : Nat → Int}
  {server : Server V Root Cache} {ctx : Context} {req : SetRequest V} {md : Metadata}

theorem not_changes (server : Server V Root Cache) (p : Acl.Path) : ¬ Changes view server server p := by
  rintro ⟨store, differs⟩
  exact differs rfl

-- In config mode and without internal paths every policy sees the same attempt of the same user.
theorem set_config_cases (lib : Library V Root Cache) (clock : Nat → Int) (server : Server V Root Cache)
    (isMetadata : ctx.metadata = some md) (external : ctx.hasAddr = true) (config : ¬ SelectsState md)
    (noInternal : req.hasInternal = false) :
    (∀ auth : PathAuth, auth.isInitialized = true →
      ((server.withAuth auth).set lib clock ctx req).1 = server.withAuth auth) ∨
    ∃ user, md.get usernameKey = [user] ∧ ∀ auth : PathAuth, auth.isInitialized = true →
      (server.withAuth auth).set lib clock ctx req =
        (server.withAuth auth).setMode lib clock req.filled 0 user .config := by
  cases selected : selectMode md with
  | error err =>
    left
    intro auth active
    rw [Server.set, readContext_external active isMetadata external, selected]
  | ok choice =>
    obtain ⟨mode, timestamp⟩ := choice
    obtain ⟨rfl, rfl⟩ := selectMode_config selected config
    cases named : selectUser md with
    | error err =>
      left
      intro auth active
      rw [Server.set, readContext_external active isMetadata external, selected]
      simp only [named]
    | ok user =>
      rcases handleInternalOrigin_external lib server.name clock server.cache noInternal with
        handled | handled
      · right
        refine ⟨user, selectUser_ok named, fun auth active => ?_⟩
        rw [Server.set, readContext_external active isMetadata external, selected]
        simp only [named]
        have same : handleInternalOrigin lib (server.withAuth auth).name clock req
          (server.withAuth auth).cache = (server.cache, .leave) := handled
        rw [same]
      · left
        intro auth active
        rw [Server.set, readContext_external active isMetadata external, selected]
        simp only [named]
        have same : handleInternalOrigin lib (server.withAuth auth).name clock req
          (server.withAuth auth).cache = (server.cache, .panic) := handled
        rw [same]
        rfl

theorem set_ignores_policy (isMetadata : ctx.metadata = some md) (external : ctx.hasAddr = true)
    (unchecked : SelectsState md ∨ req.hasInternal = true) {auth other : PathAuth}
    (active : auth.isInitialized = true) (otherActive : other.isInitialized = true) :
    ((server.withAuth other).set lib clock ctx req).1 =
      ((server.withAuth auth).set lib clock ctx req).1.withAuth other := by
  rw [Server.set, Server.set, readContext_external active isMetadata external,
    readContext_external otherActive isMetadata external]
  cases selected : selectMode md with
  | error err => rfl
  | ok choice =>
    obtain ⟨mode, timestamp⟩ := choice
    cases named : selectUser md with
    | error err => rfl
    | ok user =>
      simp only
      rcases handled : handleInternalOrigin lib server.name clock req server.cache with
        ⟨after, _ | _ | _⟩
      · simp only [Server.withAuth, handled]
      · simp only [Server.withAuth, handled]
        split <;> simp_all
      · have isState : mode = .state := by
          rcases unchecked with state | internal
          · exact (selectMode_state selected).mpr state
          · have never := handleInternalOrigin_internal lib server.name clock server.cache internal
            rw [handled] at never
            exact absurd rfl never
        subst isState
        simp only [Server.withAuth, handled, Server.setMode]
        cases server.stateSchema <;> rfl

def denyAll : PathAuth := ⟨fun _ _ _ => false, true⟩

end Call

section OneLeaf

def leafPath : Acl.Path := [⟨['a'], ∅⟩]

def leafUpdate (origin : String) (value : Nat) : Update Nat := ⟨some ⟨origin, "", leafPath⟩, value⟩

def oneLeaf : Library Nat (Option Nat) (Option Nat) where
  unmarshalSetRequest := fun _ req root =>
    ((req.replace ++ req.update).foldl (fun _ update => some update.val)
      (if req.delete.isEmpty then root else none), none)
  populateDefaults := fun root => root
  validate := fun _ => none
  newRoot := none
  deepCopy := fun root => .ok root
  togNMINotifications := fun root timestamp =>
    .ok (root.elim [] fun value => [⟨none, [], [leafUpdate "" value], timestamp, false⟩])
  diffWithAtomic := fun root dirty _ =>
    .ok (if root = dirty then []
      else dirty.elim [⟨none, [⟨"", "", leafPath⟩], [], 0, false⟩] fun value =>
        [⟨none, [], [leafUpdate "" value], 0, false⟩])
  joinPaths := fun pathPrefix item =>
    .ok ⟨"", "", pathPrefix.elim [] GPath.elem ++ item.elim [] GPath.elem⟩
  pathToString := fun _ => .ok ""
  gnmiUpdate := fun n cache =>
    (n.update.foldl (fun _ update => some update.val) (if n.delete.isEmpty then cache else none),
      none)
  formatRequest := fun _ => "request"
  formatNotification := fun _ => "notification"
  stack := "stack"

def oneLeafView : View Nat (Option Nat) (Option Nat) where
  leafOf := fun root p => if p = leafPath then root else none
  cached := fun cache p => if p = leafPath then cache else none

def emptyServer (auth : PathAuth) : Server Nat (Option Nat) (Option Nat) where
  name := "device"
  cache := none
  configSchema := some none
  stateSchema := some none
  validators := []
  pathAuth := some auth

def externalCall (mode : List String) : Context where
  metadata := some (AList.insert usernameKey ["mallory"] (AList.insert gnmiModeMetadataKey mode ∅))
  peer := some (some "192.0.2.1")

def permitAll : PathAuth := ⟨fun _ _ _ => true, true⟩

def writeLeaf (origin : String) : SetRequest Nat := ⟨none, [], [], [leafUpdate origin 7]⟩

def otherPath : Acl.Path := [⟨['b'], ∅⟩]

-- Two leaves, present or not, of a list that is ordered by the user. A change of it is one atomic
-- notification with the leaves that remain.
def orderedList : Library Unit (Bool × Bool) (Bool × Bool) where
  unmarshalSetRequest := fun _ req root =>
    ((root.1 && !req.delete.any (decide <| GPath.elem · = leafPath),
      root.2 && !req.delete.any (decide <| GPath.elem · = otherPath)), none)
  populateDefaults := fun root => root
  validate := fun _ => none
  newRoot := (false, false)
  deepCopy := fun root => .ok root
  togNMINotifications := fun _ _ => .ok []
  diffWithAtomic := fun root dirty _ =>
    .ok (if root = dirty then []
      else [⟨none, [], (if dirty.1 then [⟨some ⟨"", "", leafPath⟩, ()⟩] else []) ++
        if dirty.2 then [⟨some ⟨"", "", otherPath⟩, ()⟩] else [], 0, true⟩])
  joinPaths := oneLeaf.joinPaths
  pathToString := oneLeaf.pathToString
  gnmiUpdate := fun n _ =>
    ((n.update.any (fun update => decide (update.path.elim [] GPath.elem = leafPath)),
      n.update.any (fun update => decide (update.path.elim [] GPath.elem = otherPath))), none)
  formatRequest := fun _ => "request"
  formatNotification := fun _ => "notification"
  stack := "stack"

def orderedListView : View Unit (Bool × Bool) (Bool × Bool) where
  leafOf := fun root p => if p = leafPath ∧ root.1 ∨ p = otherPath ∧ root.2 then some () else none
  cached := fun cache p => if p = leafPath ∧ cache.1 ∨ p = otherPath ∧ cache.2 then some () else none

def firstOnly : PathAuth := ⟨fun p _ _ => decide (p = leafPath), true⟩

def listServer : Server Unit (Bool × Bool) (Bool × Bool) where
  name := "device"
  cache := (true, true)
  configSchema := some (true, true)
  stateSchema := none
  validators := []
  pathAuth := some firstOnly

theorem oneLeaf_names (p : Acl.Path) :
    ¬ Unnamed oneLeafView oneLeaf (fun _ => 1) (emptyServer denyAll) (writeLeaf "openconfig") p := by
  rintro ⟨root, dirty, nos, attempt, unnamed, changed⟩
  cases attempt.schema
  obtain rfl : some 7 = dirty := congrArg Prod.fst attempt.unmarshalled
  cases attempt.listed
  by_cases here : p = leafPath
  · subst here
    exact unnamed ⟨_, List.mem_cons_self, _, List.mem_cons_self, _, rfl, rfl⟩
  · simp [oneLeafView, here] at changed

end OneLeaf

end Lemming.Gnmi

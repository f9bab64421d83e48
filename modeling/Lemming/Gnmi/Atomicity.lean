import Lemming.Gnmi.Authorization

set_option autoImplicit false

namespace Lemming.Gnmi

open Shared

variable {V Root Cache : Type}

section Untorn

variable (lib : Library V Root Cache) (name : String) (clock : Nat → Int) (req : SetRequest V) (origin : String)
  (shadow : Bool) (validators : List (Root → Option String)) (timestamp : Int) (user : String)
  (auth : Option PathAuth) (nos : List (Notification V)) (root : Root) (cache : Cache)

def Taken (now : Int) (n : Notification V) (cache : Cache) : Prop :=
  (collectorUpdate lib name now n cache).2 = none

def Stays (now : Int) (n : Notification V) (cache : Cache) : Prop :=
  (collectorUpdate lib name now n cache).1 = cache

def TakesAll : Nat → List (Notification V) → Cache → Prop
  | _, [], _ => True
  | tick, n :: rest, cache =>
    (∃ texts, n.delete.mapM lib.pathToString = .ok texts) ∧
      Taken lib name (clock tick) (withOrigin n origin) cache ∧
        TakesAll (tick + 1) rest (collectorUpdate lib name (clock tick) (withOrigin n origin) cache).1

-- No notification changes the cache, up to the one that is refused.
def Idle : Nat → List (Notification V) → Cache → Prop
  | _, [], _ => True
  | tick, n :: rest, cache =>
    (∃ message, n.delete.mapM lib.pathToString = .error message) ∨
      Stays lib name (clock tick) (withOrigin n origin) cache ∧
        (Taken lib name (clock tick) (withOrigin n origin) cache → Idle (tick + 1) rest cache)

def Untorn : Prop :=
  TakesAll lib name clock origin 1 nos cache ∨ Idle lib name clock origin 1 nos cache

-- What the schema library makes of the request for a stored root does not tear, if it gets as far as
-- the cache.
def DiffUntorn : Prop :=
  ∀ dirty nos, lib.deepCopy root = .ok root →
    unmarshalSetRequest lib root req shadow = (dirty, none) →
    (if shadow then validateRoot lib validators dirty else none) = none →
    cacheNotifs lib dirty (some root) shadow timestamp = .ok nos →
    authorize lib auth user nos = .ok () →
    Untorn lib name clock origin nos cache

-- Here the stored root can refuse what the cache has taken.
def FastUntorn : Prop :=
  ∀ scratch nos, unmarshalSetRequest lib lib.newRoot req false = (scratch, none) →
    lib.togNMINotifications scratch timestamp = .ok nos →
    TakesAll lib name clock origin 1 nos cache ∧ (unmarshalSetRequest lib root req false).2 = none ∨
      Idle lib name clock origin 1 nos cache ∧
        (TakesAll lib name clock origin 1 nos cache → (unmarshalSetRequest lib root req false).1 = root)

def SetUntorn : Prop :=
  let origin := req.pathPrefix.elim "" GPath.origin
  if !shadow && req.delete.length + req.replace.length == 0 then
    FastUntorn lib name clock req origin timestamp root cache
  else DiffUntorn lib name clock req origin shadow validators timestamp user auth root cache

def SetRequest.hasExternal (req : SetRequest V) : Bool :=
  req.delete.any (fun del => decide (del.origin ≠ internalOrigin)) ||
    (req.replace ++ req.update).any Update.isExternal

def UpdatesUntorn (internal : List (Update V)) (start middle : Cache) : Prop :=
  req.hasExternal = false ∧ Taken lib name (clock 2) (internalUpdates name clock req internal) middle ∨
    middle = start ∧ Stays lib name (clock 2) (internalUpdates name clock req internal) start

-- The two notifications for internal paths do not tear, and nothing but internal paths comes with those
-- that change the cache.
@[mk_iff internalUntorn_fields] structure InternalUntorn : Prop where
  refused : (internalDeletes clock req).delete ≠ [] →
    ¬ Taken lib name (clock 1) (internalDeletes clock req) cache →
    Stays lib name (clock 1) (internalDeletes clock req) cache
  deletes : (internalDeletes clock req).delete ≠ [] →
    Taken lib name (clock 1) (internalDeletes clock req) cache → ∀ internal external,
    splitUpdates (req.replace ++ req.update) = some (internal, external) →
    UpdatesUntorn lib name clock req internal cache
      (collectorUpdate lib name (clock 1) (internalDeletes clock req) cache).1
  updates : (internalDeletes clock req).delete = [] → ∀ internal external,
    splitUpdates (req.replace ++ req.update) = some (internal, external) → internal ≠ [] →
    UpdatesUntorn lib name clock req internal cache cache

-- The calls that cannot fail after they have written: what they send to the cache and unmarshal into
-- the stored root does not tear.
structure Clean (server : Server V Root Cache) (ctx : Context) (req : SetRequest V) : Prop where
  internal : ∀ choice, server.readContext ctx = .ok choice →
    InternalUntorn lib server.name clock req server.cache
  config : ∀ timestamp user, server.readContext ctx = .ok (.config, timestamp, user) →
    (handleInternalOrigin lib server.name clock req server.cache).2 = .leave →
    ∀ root, server.configSchema = some root →
      SetUntorn lib server.name clock req.filled true server.validators timestamp user
        server.pathAuth root server.cache
  state : ∀ timestamp user, server.readContext ctx = .ok (.state, timestamp, user) →
    (handleInternalOrigin lib server.name clock req server.cache).2 = .leave →
    ∀ root, server.stateSchema = some root →
      SetUntorn lib server.name clock req.filled false [] timestamp user none root server.cache

end Untorn

variable {lib : Library V Root Cache} {name : String} {clock : Nat → Int} {req : SetRequest V} {origin : String}
  {shadow : Bool} {validators : List (Root → Option String)} {timestamp : Int} {user : String}
  {auth : Option PathAuth} {nos : List (Notification V)} {root : Root} {cache after : Cache} {err : GoError}

theorem collectorUpdate_cache (lib : Library V Root Cache) (name : String) (now : Int)
    (n : Notification V) (cache : Cache) :
    (collectorUpdate lib name now n cache).1 = (lib.gnmiUpdate (fill name now n) cache).1 := by
  rw [collectorUpdate]
  rcases lib.gnmiUpdate (fill name now n) cache with ⟨after, _ | _ | _⟩ <;> rfl

theorem withOrigin_delete (n : Notification V) (origin : String) :
    (withOrigin n origin).delete = n.delete := rfl

theorem takesAll_iff {tick : Nat} : TakesAll lib name clock origin tick nos cache ↔
    (updateCacheNotifs lib name clock origin tick nos cache).2 = none := by
  induction nos generalizing tick cache with
  | nil => simp [TakesAll, updateCacheNotifs]
  | cons n rest ih =>
    rw [TakesAll, updateCacheNotifs, withOrigin_delete]
    simp only [Taken, ih]
    cases n.delete.mapM lib.pathToString with
    | error message => simp
    | ok texts =>
      rcases collectorUpdate lib name (clock tick) (withOrigin n origin) cache with ⟨after, _ | err⟩ <;>
        simp

theorem Idle.updateCacheNotifs {tick : Nat} (idle : Idle lib name clock origin tick nos cache) :
    (updateCacheNotifs lib name clock origin tick nos cache).1 = cache := by
  induction nos generalizing tick with
  | nil => rfl
  | cons n rest ih =>
    rw [Gnmi.updateCacheNotifs, withOrigin_delete]
    rcases idle with ⟨message, unprintable⟩ | ⟨stays, onward⟩
    · rw [unprintable]
    · cases n.delete.mapM lib.pathToString with
      | error message => rfl
      | ok texts =>
        simp only [Stays, Taken] at stays onward
        rcases sent : collectorUpdate lib name (clock tick) (withOrigin n origin) cache with ⟨after, _ | err⟩
        · rw [sent] at stays onward
          obtain rfl : after = cache := stays
          exact ih (onward rfl)
        · rw [sent] at stays
          exact stays

-- The cache does not come back to what it was before a change.
structure Onward (lib : Library V Root Cache) (later : Cache → Cache → Prop) : Prop where
  irrefl : ∀ cache, ¬ later cache cache
  trans : ∀ a b c, later a b → later b c → later a c
  forward : ∀ n cache after err, lib.gnmiUpdate n cache = (after, err) →
    after = cache ∨ later cache after

section Cache

variable {later : Cache → Cache → Prop} (onward : Onward lib later)
include onward

theorem Onward.back {a b : Cache} (first : b = a ∨ later a b) (second : a = b ∨ later b a) : b = a := by
  rcases first with same | moved
  · exact same
  · rcases second with same | back
    · exact same.symm
    · exact absurd (onward.trans _ _ _ moved back) (onward.irrefl _)

theorem collectorUpdate_forward (name : String) (now : Int) (n : Notification V) (cache : Cache) :
    (collectorUpdate lib name now n cache).1 = cache ∨
      later cache (collectorUpdate lib name now n cache).1 := by
  rw [collectorUpdate_cache]
  exact onward.forward _ _ _ _ rfl

theorem updateCacheNotifs_forward (name : String) (clock : Nat → Int) (origin : String) (tick : Nat)
    (nos : List (Notification V)) (cache : Cache) :
    (updateCacheNotifs lib name clock origin tick nos cache).1 = cache ∨
      later cache (updateCacheNotifs lib name clock origin tick nos cache).1 := by
  induction nos generalizing tick cache with
  | nil => exact .inl rfl
  | cons n rest ih =>
    rw [updateCacheNotifs, withOrigin_delete]
    cases n.delete.mapM lib.pathToString with
    | error message => exact .inl rfl
    | ok texts =>
      have first := collectorUpdate_forward onward name (clock tick) (withOrigin n origin) cache
      rcases sent : collectorUpdate lib name (clock tick) (withOrigin n origin) cache with ⟨after, _ | err⟩
      · rw [sent] at first
        rcases first with same | moved
        · obtain rfl : after = cache := same
          exact ih (tick + 1) after
        · refine .inr ((ih (tick + 1) after).elim (fun same => ?_) (onward.trans _ _ _ moved))
          exact same.symm ▸ moved
      · rw [sent] at first
        exact first

theorem idle_of_same {tick : Nat}
    (same : (updateCacheNotifs lib name clock origin tick nos cache).1 = cache) :
    Idle lib name clock origin tick nos cache := by
  induction nos generalizing tick with
  | nil => trivial
  | cons n rest ih =>
    rw [updateCacheNotifs, withOrigin_delete] at same
    rw [Idle]
    cases printed : n.delete.mapM lib.pathToString with
    | error message => exact .inl ⟨message, rfl⟩
    | ok texts =>
      rw [printed] at same
      have first := collectorUpdate_forward onward name (clock tick) (withOrigin n origin) cache
      rw [Stays, Taken]
      rcases sent : collectorUpdate lib name (clock tick) (withOrigin n origin) cache with ⟨after, _ | err⟩
      · rw [sent] at same first
        have onwards := updateCacheNotifs_forward onward name clock origin (tick + 1) rest after
        obtain rfl : after = cache :=
          onward.back first (onwards.imp (fun eq => same.symm.trans eq) fun moved => same ▸ moved)
        exact .inr ⟨rfl, fun _ => ih same⟩
      · rw [sent] at same
        exact .inr ⟨same, nofun⟩

end Cache

theorem Untorn.failed (untorn : Untorn lib name clock origin nos cache)
    (sent : updateCacheNotifs lib name clock origin 1 nos cache = (after, some err)) :
    after = cache := by
  rcases untorn with takes | idle
  · rw [takesAll_iff, sent] at takes
    cases takes
  · have same := idle.updateCacheNotifs
    rwa [sent] at same

theorem untorn_of_failed {later : Cache → Cache → Prop} (onward : Onward lib later)
    (holds : ∀ after err, updateCacheNotifs lib name clock origin 1 nos cache = (after, some err) →
      after = cache) : Untorn lib name clock origin nos cache := by
  rcases sent : updateCacheNotifs lib name clock origin 1 nos cache with ⟨after, _ | err⟩
  · exact .inl (takesAll_iff.mpr (by rw [sent]))
  · exact .inr (idle_of_same onward (by rw [sent, holds after err sent]))

variable {internal : List (Update V)} {external : Bool}

theorem hasExternal_eq
    (parts : splitUpdates (req.replace ++ req.update) = some (internal, external)) :
    ((req.delete.any fun del => decide (del.origin ≠ internalOrigin)) || external) =
      req.hasExternal := by
  rw [(splitUpdates_parts parts).2]
  rfl

theorem handleInternalOrigin_deletes {middle : Cache}
    (deletes : (internalDeletes clock req).delete ≠ [])
    (sent : collectorUpdate lib name (clock 1) (internalDeletes clock req) cache = (middle, none))
    (parts : splitUpdates (req.replace ++ req.update) = some (internal, external)) :
    handleInternalOrigin lib name clock req cache =
      sendInternal lib name clock req internal req.hasExternal middle := by
  have found : (!(internalDeletes clock req).delete.isEmpty) = true := by simpa using deletes
  have mixed := hasExternal_eq parts
  rw [handleInternalOrigin]
  simp only [found, if_true, sent, parts, Bool.true_or, Bool.not_true, Bool.false_eq_true,
    if_false, mixed]

theorem handleInternalOrigin_updates (noDelete : (internalDeletes clock req).delete = [])
    (parts : splitUpdates (req.replace ++ req.update) = some (internal, external))
    (some : internal ≠ []) :
    handleInternalOrigin lib name clock req cache =
      sendInternal lib name clock req internal req.hasExternal cache := by
  have found : (!internal.isEmpty) = true := by simpa using some
  have mixed := hasExternal_eq parts
  rw [handleInternalOrigin]
  simp only [noDelete, List.isEmpty_nil, Bool.not_true, Bool.false_eq_true, if_false,
    Bool.false_or, parts, found, mixed]

section Keeps

variable {later : Cache → Cache → Prop}

theorem DiffUntorn.keeps (copies : ∀ root copy, lib.deepCopy root = .ok copy → copy = root)
    (untorn : DiffUntorn lib name clock req origin shadow validators timestamp user auth root cache)
    {root' : Root} {cache' : Cache}
    (failed : setDiff lib name clock req origin shadow validators timestamp user auth root cache =
      (root', cache', some err)) : root' = root ∧ cache' = cache := by
  rcases setDiff_cases copies failed with same | ⟨dirty, nos, _, reached, sent, isRoot⟩
  · exact same
  · obtain ⟨copied, unmarshalled, valid, listed, allowed⟩ := reached
    rcases isRoot with ⟨⟨failure, rfl⟩, rfl⟩ | ⟨isNone, -⟩
    · exact ⟨rfl, (untorn dirty nos copied unmarshalled valid listed allowed).failed sent⟩
    · cases isNone

theorem diffUntorn_of_keeps (onward : Onward lib later)
    (keeps : ∀ root' cache' err, setDiff lib name clock req origin shadow validators timestamp user
      auth root cache = (root', cache', some err) → root' = root ∧ cache' = cache) :
    DiffUntorn lib name clock req origin shadow validators timestamp user auth root cache := by
  intro dirty nos copied unmarshalled valid listed allowed
  refine untorn_of_failed onward fun cache' refused sent => ?_
  exact (keeps root cache' (.status .internal refused.text)
    (setDiff_attempt copied unmarshalled valid listed allowed sent)).2

theorem FastUntorn.keeps (untorn : FastUntorn lib name clock req origin timestamp root cache)
    {root' : Root} {cache' : Cache}
    (failed : setFast lib name clock req origin timestamp root cache = (root', cache', some err)) :
    root' = root ∧ cache' = cache := by
  rw [setFast] at failed
  split at failed
  · cases failed
    exact ⟨rfl, rfl⟩
  · next scratch scratched =>
    split at failed
    · cases failed
      exact ⟨rfl, rfl⟩
    · next nos listed =>
      have untorn := untorn scratch nos scratched listed
      split at failed
      · next middle refused sent =>
        cases failed
        exact ⟨rfl, Untorn.failed (untorn.imp And.left And.left) sent⟩
      · next middle sent =>
        have takes : TakesAll lib name clock origin 1 nos cache := takesAll_iff.mpr (by rw [sent])
        simp only [Prod.mk.injEq] at failed
        obtain ⟨isRoot, rfl, isErr⟩ := failed
        rcases untorn with ⟨-, accepts⟩ | ⟨idle, same⟩
        · rw [accepts] at isErr
          cases isErr
        · have kept := idle.updateCacheNotifs
          rw [sent] at kept
          exact ⟨isRoot ▸ same takes, kept⟩

theorem fastUntorn_of_keeps (onward : Onward lib later)
    (keeps : ∀ root' cache' err, setFast lib name clock req origin timestamp root cache =
      (root', cache', some err) → root' = root ∧ cache' = cache) :
    FastUntorn lib name clock req origin timestamp root cache := by
  intro scratch nos scratched listed
  rw [takesAll_iff]
  rcases sent : updateCacheNotifs lib name clock origin 1 nos cache with ⟨cache', _ | refused⟩
  · rcases stored : unmarshalSetRequest lib root req false with ⟨root', _ | refused⟩
    · exact .inl ⟨rfl, rfl⟩
    · obtain ⟨rfl, rfl⟩ := keeps root' cache' refused (by
        rw [setFast]
        simp only [scratched, listed, sent, stored])
      exact .inr ⟨idle_of_same onward (by rw [sent]), fun _ => rfl⟩
  · obtain ⟨-, rfl⟩ := keeps root cache' refused (by
      rw [setFast]
      simp only [scratched, listed, sent])
    exact .inr ⟨idle_of_same onward (by rw [sent]), nofun⟩

theorem SetUntorn.keeps (copies : ∀ root copy, lib.deepCopy root = .ok copy → copy = root)
    (untorn : SetUntorn lib name clock req shadow validators timestamp user auth root cache)
    {root' : Root} {cache' : Cache}
    (failed : set lib name clock req shadow validators timestamp user auth root cache =
      (root', cache', some err)) : root' = root ∧ cache' = cache := by
  rw [set] at failed
  unfold SetUntorn at untorn
  split at failed
  · next fast =>
    rw [if_pos fast] at untorn
    exact untorn.keeps failed
  · next diff =>
    rw [if_neg diff] at untorn
    exact untorn.keeps copies failed

theorem setUntorn_of_keeps (onward : Onward lib later)
    (keeps : ∀ root' cache' err, set lib name clock req shadow validators timestamp user auth root cache =
      (root', cache', some err) → root' = root ∧ cache' = cache) :
    SetUntorn lib name clock req shadow validators timestamp user auth root cache := by
  rw [SetUntorn]
  simp only [set] at keeps
  split
  · next fast =>
    simp only [if_pos fast] at keeps
    exact fastUntorn_of_keeps onward keeps
  · next diff =>
    simp only [if_neg diff] at keeps
    exact diffUntorn_of_keeps onward keeps

theorem UpdatesUntorn.keeps {start : Cache}
    (untorn : UpdatesUntorn lib name clock req internal start cache)
    (failed : sendInternal lib name clock req internal req.hasExternal cache =
      (after, .settled (some err))) : after = start := by
  rw [sendInternal] at failed
  rcases untorn with ⟨notMixed, taken⟩ | ⟨rfl, stays⟩
  · rw [Taken] at taken
    rcases sent : collectorUpdate lib name (clock 2) (internalUpdates name clock req internal) cache with
      ⟨last, err⟩
    rw [sent] at taken failed
    obtain rfl : err = none := taken
    simp [notMixed] at failed
  · rw [Stays] at stays
    rcases sent : collectorUpdate lib name (clock 2) (internalUpdates name clock req internal) cache with
      ⟨last, _ | err⟩
    · rw [sent] at stays failed
      dsimp only at failed
      split at failed
      · cases failed
        exact stays
      · cases failed
    · rw [sent] at stays failed
      cases failed
      exact stays

theorem updatesUntorn_of_keeps (onward : Onward lib later) {start : Cache}
    (first : cache = start ∨ later start cache)
    (keeps : ∀ after err, sendInternal lib name clock req internal req.hasExternal cache =
      (after, .settled (some err)) → after = start) :
    UpdatesUntorn lib name clock req internal start cache := by
  have second := collectorUpdate_forward onward name (clock 2)
    (internalUpdates name clock req internal) cache
  rw [UpdatesUntorn, Taken, Stays]
  rw [sendInternal] at keeps
  rcases sent : collectorUpdate lib name (clock 2) (internalUpdates name clock req internal) cache with
    ⟨last, err⟩
  rw [sent] at second keeps
  -- If the call fails here, the cache is what it was, and so it was in between.
  have back (same : last = start) : cache = start ∧
      (collectorUpdate lib name (clock 2) (internalUpdates name clock req internal) start).1 = start := by
    subst same
    obtain rfl : cache = last := onward.back first second
    exact ⟨rfl, by rw [sent]⟩
  cases err with
  | none =>
    cases mixed : req.hasExternal with
    | false => exact .inl ⟨rfl, rfl⟩
    | true =>
      rw [mixed] at keeps
      exact .inr (back (keeps last _ rfl))
  | some refused => exact .inr (back (keeps last refused rfl))

theorem InternalUntorn.keeps (untorn : InternalUntorn lib name clock req cache)
    (failed : handleInternalOrigin lib name clock req cache = (after, .settled (some err))) :
    after = cache := by
  by_cases deletes : (internalDeletes clock req).delete = []
  · rcases parts : splitUpdates (req.replace ++ req.update) with _ | ⟨internal, external⟩
    · simp [handleInternalOrigin, deletes, parts] at failed
    · by_cases empty : internal = []
      · simp [handleInternalOrigin, deletes, parts, empty] at failed
      · rw [handleInternalOrigin_updates deletes parts empty] at failed
        exact (untorn.updates deletes internal external parts empty).keeps failed
  · rcases sent : collectorUpdate lib name (clock 1) (internalDeletes clock req) cache with
      ⟨middle, _ | refused⟩
    · rcases parts : splitUpdates (req.replace ++ req.update) with _ | ⟨internal, external⟩
      · simp [handleInternalOrigin, deletes, parts, sent] at failed
      · have updates := untorn.deletes deletes (by rw [Taken, sent]) internal external parts
        rw [handleInternalOrigin_deletes deletes sent parts] at failed
        rw [sent] at updates
        exact updates.keeps failed
    · have stays := untorn.refused deletes (by simp [Taken, sent])
      rw [Stays, sent] at stays
      simp [handleInternalOrigin, deletes, sent] at failed
      exact failed.1 ▸ stays

theorem internalUntorn_of_keeps (onward : Onward lib later)
    (keeps : ∀ after err, handleInternalOrigin lib name clock req cache =
      (after, .settled (some err)) → after = cache) : InternalUntorn lib name clock req cache := by
  constructor
  · intro deletes refuses
    rw [Taken] at refuses
    rw [Stays]
    rcases sent : collectorUpdate lib name (clock 1) (internalDeletes clock req) cache with
      ⟨middle, _ | refused⟩
    · rw [sent] at refuses
      exact absurd rfl refuses
    · exact keeps middle refused (by simp [handleInternalOrigin, deletes, sent])
  · intro deletes taken internal external parts
    have first := collectorUpdate_forward onward name (clock 1) (internalDeletes clock req) cache
    rw [Taken] at taken
    rcases sent : collectorUpdate lib name (clock 1) (internalDeletes clock req) cache with ⟨middle, err⟩
    rw [sent] at taken first
    obtain rfl : err = none := taken
    rw [handleInternalOrigin_deletes deletes sent parts] at keeps
    exact updatesUntorn_of_keeps onward first keeps
  · intro noDelete internal external parts some
    rw [handleInternalOrigin_updates noDelete parts some] at keeps
    exact updatesUntorn_of_keeps onward (.inl rfl) keeps

end Keeps

section Call

variable {server : Server V Root Cache} {ctx : Context}

theorem set_of_leave {mode : Mode} (context : server.readContext ctx = .ok (mode, timestamp, user))
    (left : (handleInternalOrigin lib server.name clock req server.cache).2 = .leave) :
    server.set lib clock ctx req = server.setMode lib clock req.filled timestamp user mode := by
  rw [Server.set, context]
  rcases handled : handleInternalOrigin lib server.name clock req server.cache with ⟨middle, end'⟩
  rw [handled] at left
  simp only at left
  subst left
  rfl

theorem Clean.keeps (copies : ∀ root copy, lib.deepCopy root = .ok copy → copy = root)
    (clean : Clean lib clock server ctx req) {after : Server V Root Cache}
    (failed : server.set lib clock ctx req = (after, .fail err)) :
    after.configSchema = server.configSchema ∧ after.stateSchema = server.stateSchema ∧
      after.cache = server.cache := by
  cases context : server.readContext ctx with
  | error err =>
    rw [Server.set, context] at failed
    cases failed
    exact ⟨rfl, rfl, rfl⟩
  | ok choice =>
    obtain ⟨mode, timestamp, user⟩ := choice
    rcases handled : handleInternalOrigin lib server.name clock req server.cache with
      ⟨middle, _ | (_ | err) | _⟩
    case leave =>
      have left : (handleInternalOrigin lib server.name clock req server.cache).2 = .leave := by
        rw [handled]
      rw [set_of_leave context left] at failed
      cases mode
      all_goals
        rw [Server.setMode] at failed
        split at failed
        · cases failed
          exact ⟨rfl, rfl, rfl⟩
        · next root schema =>
          split at failed
          next root' cache' refused result =>
          cases refused with
          | none => cases failed
          | some refused =>
            have untorn := by first
              | exact clean.config timestamp user context left root schema
              | exact clean.state timestamp user context left root schema
            obtain ⟨rfl, rfl⟩ := untorn.keeps copies result
            cases failed
            simp [schema]
    all_goals
      simp only [Server.set, context, handled] at failed
      cases failed
    exact ⟨rfl, rfl, (clean.internal _ context).keeps handled⟩

theorem clean_of_keeps {later : Cache → Cache → Prop} (onward : Onward lib later)
    (keeps : ∀ after err, server.set lib clock ctx req = (after, .fail err) →
      after.configSchema = server.configSchema ∧ after.stateSchema = server.stateSchema ∧
        after.cache = server.cache) : Clean lib clock server ctx req := by
  constructor
  · rintro ⟨mode, timestamp, user⟩ context
    refine internalUntorn_of_keeps onward fun middle err handled => ?_
    have failed : server.set lib clock ctx req = ({ server with cache := middle }, .fail (.status .internal
        ("error handling set request with internal origin: " ++ err.text))) := by
      rw [Server.set, context]
      simp only [handled]
    exact (keeps _ _ failed).2.2
  all_goals
    intro timestamp user context left root schema
    refine setUntorn_of_keeps onward fun root' cache' err failed => ?_
    have whole := set_of_leave context left
    simp only [Server.setMode, schema, failed, replyOf] at whole
    have kept := keeps _ _ whole
    simp only [schema, Option.some_inj, true_and] at kept
    exact kept

end Call

section OneLeaf

def mixedWrite : SetRequest Nat :=
  ⟨none, [], [], [leafUpdate internalOrigin 7, leafUpdate "openconfig" 8]⟩

-- The cache also counts what it is handed, as the target's metadata do.
def Library.counting (lib : Library V Root Cache) : Library V Root (Cache × Nat) where
  unmarshalSetRequest := lib.unmarshalSetRequest
  populateDefaults := lib.populateDefaults
  validate := lib.validate
  newRoot := lib.newRoot
  deepCopy := lib.deepCopy
  togNMINotifications := lib.togNMINotifications
  diffWithAtomic := lib.diffWithAtomic
  joinPaths := lib.joinPaths
  pathToString := lib.pathToString
  gnmiUpdate := fun n cache =>
    let (after, err) := lib.gnmiUpdate n cache.1
    ((after, cache.2 + 1), err)
  formatRequest := lib.formatRequest
  formatNotification := lib.formatNotification
  stack := lib.stack

theorem Library.counting_onward (lib : Library V Root Cache) :
    Onward lib.counting fun before after => before.2 < after.2 where
  irrefl := fun _ => Nat.lt_irrefl _
  trans := fun _ _ _ => Nat.lt_trans
  forward := by
    rintro n cache after err ⟨⟩
    exact .inr (Nat.lt_succ_self _)

-- A validator refuses every configuration.
def strictServer : Server Nat (Option Nat) (Option Nat × Nat) where
  name := "device"
  cache := (some 3, 0)
  configSchema := some (some 3)
  stateSchema := some none
  validators := [fun _ => some "no"]
  pathAuth := none

end OneLeaf

end Lemming.Gnmi

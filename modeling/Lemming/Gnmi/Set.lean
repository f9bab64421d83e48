import Lemming.Acl.Trie

set_option autoImplicit false

namespace Lemming.Gnmi

open Shared

structure GPath where
  origin : String
  target : String
  elem : Acl.Path

def GPath.empty : GPath := ⟨"", "", []⟩

variable {V Root Cache : Type}

-- A protobuf message leaves a field out by a nil pointer.
structure Update (V : Type) where
  path : Option GPath
  val : V

structure SetRequest (V : Type) where
  pathPrefix : Option GPath
  delete : List GPath
  replace : List (Update V)
  update : List (Update V)

structure Notification (V : Type) where
  pathPrefix : Option GPath
  delete : List GPath
  update : List (Update V)
  timestamp : Int
  atomic : Bool

inductive Code where
  | invalidArgument
  | permissionDenied
  | unimplemented
  | internal
  | unauthenticated
deriving DecidableEq

def Code.name : Code → String
  | .invalidArgument => "InvalidArgument"
  | .permissionDenied => "PermissionDenied"
  | .unimplemented => "Unimplemented"
  | .internal => "Internal"
  | .unauthenticated => "Unauthenticated"

inductive GoError where
  | plain (message : String)
  | status (code : Code) (message : String)
deriving DecidableEq

def GoError.text : GoError → String
  | .plain message => message
  | .status code message => "rpc error: code = " ++ code.name ++ " desc = " ++ message

inductive Reply where
  | ok
  | fail (error : GoError)
  | panic
deriving DecidableEq

inductive CacheError where
  | stale
  | failure (message : String)

-- The schema library and the subscription cache. A call that changes an object in place gives back the
-- object it leaves behind, also when it fails.
structure Library (V Root Cache : Type) where
  unmarshalSetRequest : Bool → SetRequest V → Root → Root × Option String
  populateDefaults : Root → Root
  validate : Root → Option String
  newRoot : Root
  deepCopy : Root → Except String Root
  togNMINotifications : Root → Int → Except String (List (Notification V))
  diffWithAtomic : Root → Root → Bool → Except String (List (Notification V))
  joinPaths : Option GPath → Option GPath → Except String GPath
  pathToString : GPath → Except String String
  gnmiUpdate : Notification V → Cache → Cache × Option CacheError
  formatRequest : SetRequest V → String
  formatNotification : Notification V → String
  stack : String

structure PathAuth where
  checkPermit : Acl.Path → String → Bool → Bool
  isInitialized : Bool

def openConfigOrigin : String := "openconfig"

def internalOrigin : String := "lemming-internal"

def fillTarget (name : String) (n : Notification V) : Notification V :=
  if n.pathPrefix.elim "" GPath.target = "" then
    { n with pathPrefix := some { n.pathPrefix.getD .empty with target := name } }
  else n

def fill (name : String) (now : Int) (n : Notification V) : Notification V :=
  let n := fillTarget name n
  if n.timestamp = 0 then { n with timestamp := now } else n

variable (lib : Library V Root Cache)

def collectorUpdate (name : String) (now : Int) (n : Notification V)
    (cache : Cache) : Cache × Option GoError :=
  match lib.gnmiUpdate (fill name now n) cache with
  | (cache, none) => (cache, none)
  | (cache, some .stale) => (cache, none)
  | (cache, some (.failure message)) => (cache, some (.plain message))

def withOrigin (n : Notification V) (origin : String) : Notification V :=
  let origin := if origin = "" then openConfigOrigin else origin
  { n with pathPrefix := some { n.pathPrefix.getD .empty with origin := origin } }

-- `clock` gives the readings of the wall clock in the order they are taken.
def updateCacheNotifs (lib : Library V Root Cache) (name : String) (clock : Nat → Int)
    (origin : String) : Nat → List (Notification V) → Cache → Cache × Option GoError
  | _, [], cache => (cache, none)
  | tick, n :: rest, cache =>
    let n := withOrigin n origin
    match n.delete.mapM lib.pathToString with
    | .error message =>
      (cache, some (.plain ("cannot convert deleted path to string: " ++ message)))
    | .ok _ =>
      match collectorUpdate lib name (clock tick) n cache with
      | (cache, some err) =>
        -- The collector has filled in the notification by then.
        (cache, some (.plain (err.text ++ ": notification:\n" ++
          lib.formatNotification (fill name (clock tick) n) ++ "\n" ++ lib.stack)))
      | (cache, none) => updateCacheNotifs lib name clock origin (tick + 1) rest cache

def Notification.items (n : Notification V) : List (Option GPath) :=
  n.delete.map some ++ n.update.map Update.path

def checkItems (lib : Library V Root Cache) (auth : PathAuth) (user : String)
    (pathPrefix : Option GPath) : List (Option GPath) → Except GoError Bool
  | [] => .ok true
  | item :: rest =>
    match lib.joinPaths pathPrefix item with
    | .error message => .error (.plain message)
    | .ok p =>
      if !auth.checkPermit p.elem user true then .ok false
      else checkItems lib auth user pathPrefix rest

def checkWritePermission (lib : Library V Root Cache) (auth : PathAuth) (user : String) :
    List (Notification V) → Except GoError Bool
  | [] => .ok true
  | no :: rest =>
    match checkItems lib auth user no.pathPrefix no.items with
    | .ok true => checkWritePermission lib auth user rest
    | result => result

def cacheNotifs (dirtyRoot : Root) (root : Option Root)
    (preferShadowPath : Bool) (timestamp : Int) : Except GoError (List (Notification V)) :=
  match root with
  | none =>
    match lib.togNMINotifications dirtyRoot timestamp with
    | .error message => .error (.plain ("gnmi: " ++ message))
    | .ok nos => .ok nos
  | some root =>
    match lib.diffWithAtomic root dirtyRoot preferShadowPath with
    | .error message =>
      .error (.plain ("gnmi: error while creating update notification for Set: " ++ message))
    | .ok nos => .ok (nos.map fun n => { n with timestamp := timestamp })

def authorize (auth : Option PathAuth) (user : String)
    (nos : List (Notification V)) : Except GoError Unit :=
  match auth with
  | none => .ok ()
  | some auth =>
    if !auth.isInitialized then .ok ()
    else
      match checkWritePermission lib auth user nos with
      | .error err => .error err
      | .ok false => .error (.status .permissionDenied "cannot set all paths in request")
      | .ok true => .ok ()

def updateCache (name : String) (clock : Nat → Int)
    (dirtyRoot : Root) (root : Option Root) (origin : String) (preferShadowPath : Bool)
    (timestamp : Int) (user : String) (auth : Option PathAuth) (cache : Cache) :
    Cache × Option GoError :=
  match cacheNotifs lib dirtyRoot root preferShadowPath timestamp with
  | .error err => (cache, some err)
  | .ok nos =>
    match authorize lib auth user nos with
    | .error err => (cache, some err)
    | .ok () => updateCacheNotifs lib name clock origin 1 nos cache

def unmarshalSetRequest (root : Root) (req : SetRequest V)
    (preferShadowPath : Bool) : Root × Option GoError :=
  match lib.unmarshalSetRequest preferShadowPath req root with
  | (root, some message) =>
    (root, some (.status .invalidArgument ("failed to unmarshal set request " ++ message)))
  | (root, none) => (if preferShadowPath then lib.populateDefaults root else root, none)

def runValidators (root : Root) : List (Root → Option String) → Option GoError
  | [] => none
  | validator :: rest =>
    match validator root with
    | some message => some (.status .invalidArgument ("validation error: " ++ message))
    | none => runValidators root rest

def validateRoot (validators : List (Root → Option String))
    (root : Root) : Option GoError :=
  match lib.validate root with
  | some message => some (.status .invalidArgument ("invalid SetRequest: " ++ message))
  | none => runValidators root validators

-- The part of `set` for state updates: the cache is written from a scratch root, and only then the
-- request is unmarshalled into the stored root.
def setFast (name : String) (clock : Nat → Int) (req : SetRequest V)
    (origin : String) (timestamp : Int) (root : Root) (cache : Cache) :
    Root × Cache × Option GoError :=
  match unmarshalSetRequest lib lib.newRoot req false with
  | (_, some err) =>
    (root, cache, some (.plain ("error while unmarshalling SetRequest: " ++ err.text)))
  | (scratch, none) =>
    match lib.togNMINotifications scratch timestamp with
    | .error message => (root, cache, some (.plain message))
    | .ok notifs =>
      match updateCacheNotifs lib name clock origin 1 notifs cache with
      | (cache, some err) => (root, cache, some err)
      | (cache, none) =>
        let (root, err) := unmarshalSetRequest lib root req false
        (root, cache, err)

def setDiff (name : String) (clock : Nat → Int) (req : SetRequest V)
    (origin : String) (preferShadowPath : Bool) (validators : List (Root → Option String))
    (timestamp : Int) (user : String) (auth : Option PathAuth) (root : Root) (cache : Cache) :
    Root × Cache × Option GoError :=
  match lib.deepCopy root with
  | .error message =>
    (root, cache,
      some (.status .internal ("failed to ygot.DeepCopy the cached root object: " ++ message)))
  | .ok prevRoot =>
    match unmarshalSetRequest lib root req preferShadowPath with
    | (_, some err) => (prevRoot, cache, some err)
    | (root, none) =>
      match if preferShadowPath then validateRoot lib validators root else none with
      | some err => (prevRoot, cache, some err)
      | none =>
        match updateCache lib name clock root (some prevRoot) origin preferShadowPath timestamp user
            auth cache with
        | (cache, some err) => (prevRoot, cache, some (.status .internal err.text))
        | (cache, none) => (root, cache, none)

-- The prefix of the request is not nil here: handling the internal origin has filled it in.
def set (name : String) (clock : Nat → Int) (req : SetRequest V)
    (preferShadowPath : Bool) (validators : List (Root → Option String)) (timestamp : Int)
    (user : String) (auth : Option PathAuth) (root : Root) (cache : Cache) :
    Root × Cache × Option GoError :=
  let origin := req.pathPrefix.elim "" GPath.origin
  if !preferShadowPath && req.delete.length + req.replace.length == 0 then
    setFast lib name clock req origin timestamp root cache
  else
    setDiff lib name clock req origin preferShadowPath validators timestamp user auth root cache

def splitUpdates : List (Update V) → Option (List (Update V) × Bool)
  | [] => some ([], false)
  | update :: rest =>
    match update.path with
    | none => none
    | some path =>
      match splitUpdates rest with
      | none => none
      | some (internal, external) =>
        if path.origin = internalOrigin then some (update :: internal, external)
        else some (internal, true)

inductive Handled where
  | panic
  | settled (error : Option GoError)
  | leave

def internalDeletes (clock : Nat → Int) (req : SetRequest V) : Notification V where
  pathPrefix := some { req.pathPrefix.getD .empty with origin := internalOrigin }
  delete := req.delete.filter fun del => decide (del.origin = internalOrigin)
  update := []
  timestamp := clock 0
  atomic := false

-- The same notification is sent a second time, and `GnmiUpdate` has written into it by then.
def internalUpdates (name : String) (clock : Nat → Int) (req : SetRequest V)
    (internal : List (Update V)) : Notification V :=
  let notif := internalDeletes clock req
  let notif := if notif.delete.isEmpty then notif else fill name (clock 1) notif
  { notif with delete := [], update := internal }

def SetRequest.filled (req : SetRequest V) : SetRequest V :=
  { req with pathPrefix := some (req.pathPrefix.getD .empty) }

-- Whether the origins are mixed is looked at only when everything internal is written.
def sendInternal (name : String) (clock : Nat → Int)
    (req : SetRequest V) (internal : List (Update V)) (hasExternal : Bool) (cache : Cache) :
    Cache × Handled :=
  match collectorUpdate lib name (clock 2) (internalUpdates name clock req internal) cache with
  | (cache, some err) => (cache, .settled (some err))
  | (cache, none) =>
    if hasExternal then
      (cache, .settled (some (.plain ("error: SetRequest contained both internal and external origins: " ++
        lib.formatRequest req.filled))))
    else (cache, .settled none)

def handleInternalOrigin (name : String) (clock : Nat → Int)
    (req : SetRequest V) (cache : Cache) : Cache × Handled :=
  let hasInternal := !(internalDeletes clock req).delete.isEmpty
  let hasExternal := req.delete.any fun del => decide (del.origin ≠ internalOrigin)
  let (cache, err) :=
    if hasInternal then collectorUpdate lib name (clock 1) (internalDeletes clock req) cache
    else (cache, none)
  match err with
  | some err => (cache, .settled (some err))
  | none =>
    match splitUpdates (req.replace ++ req.update) with
    | none => (cache, .panic)
    | some (internal, external) =>
      let hasInternal := hasInternal || !internal.isEmpty
      let hasExternal := hasExternal || external
      if !hasInternal then (cache, .leave)
      else sendInternal lib name clock req internal hasExternal cache

inductive Mode where
  | config
  | state
deriving DecidableEq

def Mode.text : Mode → String
  | .config => "config"
  | .state => "state"

def gnmiModeMetadataKey : String := "gnmi-mode"

def timestampMetadataKey : String := "gnmi-timestamp"

def usernameKey : String := "username"

abbrev Metadata := GoMap String (List String)

def Metadata.get (md : Metadata) (key : String) : List String := (md.lookup key).getD []

structure Context where
  metadata : Option Metadata
  peer : Option (Option String)

def Context.hasAddr (ctx : Context) : Bool :=
  match ctx.peer with
  | some (some _) => true
  | _ => false

def parseDigits : Nat → List Char → Option Nat
  | value, [] => some value
  | value, c :: rest =>
    if '0' ≤ c ∧ c ≤ '9' then parseDigits (10 * value + (c.toNat - '0'.toNat)) rest else none

def parseInt (text : String) : Except String Int :=
  let invalid := .error ("strconv.ParseInt: parsing " ++ text.quote ++ ": invalid syntax")
  let (negative, digits) := match text.toList with
    | '-' :: rest => (true, rest)
    | '+' :: rest => (false, rest)
    | rest => (false, rest)
  if digits = [] then invalid
  else
    match parseDigits 0 digits with
    | none => invalid
    | some value =>
      let value : Int := if negative then -value else value
      if value < -2 ^ 63 ∨ value ≥ 2 ^ 63 then
        .error ("strconv.ParseInt: parsing " ++ text.quote ++ ": value out of range")
      else .ok value

def selectMode (md : Metadata) : Except GoError (Mode × Int) :=
  if Mode.config.text ∈ md.get gnmiModeMetadataKey then .ok (.config, 0)
  else if Mode.state.text ∈ md.get gnmiModeMetadataKey then
    match md.get timestampMetadataKey with
    | [] => .ok (.state, 0)
    | text :: _ =>
      match parseInt text with
      | .ok timestamp => .ok (.state, timestamp)
      | .error message => .error (.status .invalidArgument
          ("timestamp metadata specified in SetRequest cannot be parsed: " ++ message))
  else .ok (.config, 0)

def selectUser (md : Metadata) : Except GoError String :=
  let missing := .error (.status .unauthenticated "no username set in metadata ")
  match md.get usernameKey with
  | [user] => if user = "" then missing else .ok user
  | _ => missing

structure Server (V Root Cache : Type) where
  name : String
  cache : Cache
  configSchema : Option Root
  stateSchema : Option Root
  validators : List (Root → Option String)
  pathAuth : Option PathAuth

def Server.authActive (server : Server V Root Cache) : Bool :=
  server.pathAuth.elim false PathAuth.isInitialized

def Server.readContext (server : Server V Root Cache) (ctx : Context) :
    Except GoError (Mode × Int × String) :=
  match ctx.metadata with
  | none => .ok (.config, 0, "")
  | some md =>
    match selectMode md with
    | .error err => .error err
    | .ok (mode, timestamp) =>
      if server.authActive && ctx.hasAddr then
        match selectUser md with
        | .error err => .error err
        | .ok user => .ok (mode, timestamp, user)
      else .ok (mode, timestamp, "")

def unimplemented : GoError := .status .unimplemented "method Set not implemented"

def replyOf : Option GoError → Reply
  | none => .ok
  | some err => .fail err

def Server.setMode (clock : Nat → Int) (server : Server V Root Cache)
    (req : SetRequest V) (timestamp : Int) (user : String) : Mode → Server V Root Cache × Reply
  | .config =>
    match server.configSchema with
    | none => (server, .fail unimplemented)
    | some root =>
      let (root, cache, err) := set lib server.name clock req true server.validators timestamp user
        server.pathAuth root server.cache
      ({ server with cache := cache, configSchema := some root }, replyOf err)
  | .state =>
    match server.stateSchema with
    | none => (server, .fail unimplemented)
    | some root =>
      -- State is not authorized.
      let (root, cache, err) := set lib server.name clock req false [] timestamp user none root
        server.cache
      ({ server with cache := cache, stateSchema := some root }, replyOf err)

def Server.set (lib : Library V Root Cache) (clock : Nat → Int) (server : Server V Root Cache)
    (ctx : Context) (req : SetRequest V) : Server V Root Cache × Reply :=
  match server.readContext ctx with
  | .error err => (server, .fail err)
  | .ok (mode, timestamp, user) =>
    match handleInternalOrigin lib server.name clock req server.cache with
    | (cache, .panic) => ({ server with cache := cache }, .panic)
    | (cache, .settled none) => ({ server with cache := cache }, .ok)
    | (cache, .settled (some err)) =>
      ({ server with cache := cache },
        .fail (.status .internal
          ("error handling set request with internal origin: " ++ err.text)))
    | (_, .leave) =>
      server.setMode lib clock req.filled timestamp user mode

end Lemming.Gnmi

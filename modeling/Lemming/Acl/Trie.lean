import Mathlib.Algebra.GroupWithZero.Nat
import Mathlib.Data.Char
import Mathlib.Data.List.Sort
import Lemming.Shared.Iteration
import Lemming.Shared.Outcome

set_option autoImplicit false

namespace Lemming.Acl

open Shared

abbrev Text := List Char

structure PathElem where
  name : Text
  key : GoMap Text Text

instance : DecidableEq PathElem := fun a b =>
  decidable_of_iff (a.name = b.name ∧ a.key.entries = b.key.entries) (by
    cases a
    cases b
    simp [AList.ext_iff])

abbrev Path := List PathElem

-- Protobuf enumerations are open: a message can carry a number that has no name.
inductive Action where
  | unspecified
  | deny
  | permit
  | other (number : Int32)
deriving DecidableEq

inductive Mode where
  | unspecified
  | read
  | write
  | other (number : Int32)
deriving DecidableEq

inductive Principal where
  | unset
  | user (name : Text)
  | group (name : Text)
deriving DecidableEq

def Principal.getUser : Principal → Text
  | .user name => name
  | _ => []

def Principal.getGroup : Principal → Text
  | .group name => name
  | _ => []

structure Rule where
  path : Option Path
  principal : Principal
  mode : Mode
  action : Action

structure Group where
  name : Text
  users : List Text

structure Policy where
  groups : List Group
  rules : List Rule

def wildcard : Text := ['*']

def replaceAll (old : Char) (new text : Text) : Text :=
  text.flatMap fun c => if c = old then new else [c]

def escape (value : Text) : Text :=
  replaceAll ']' ['\\', ']'] (replaceAll '=' ['\\', '='] value)

-- The loop over the key map. At most one key is empty, so which error comes back does not depend on
-- the order of the iteration, and the keys are sorted afterwards.
def setKeys (name : Text) : List (Σ _ : Text, Text) → Except String (List Text)
  | [] => .ok []
  | ⟨k, v⟩ :: rest =>
    if k = [] then
      .error ("empty key name (value: " ++ String.ofList v ++ ") in element " ++ String.ofList name)
    else do
      let keys ← setKeys name rest
      return if v ≠ wildcard then k :: keys else keys

def elemToString (name : Text) (kv : GoMap Text Text) : Except String (Text × Nat) :=
  if name = [] then .error "empty name for PathElem"
  else if kv.entries.length = 0 then .ok (name, 0)
  else do
    let keys ← setKeys name kv.entries
    let keys := keys.insertionSort (· ≤ ·)
    let text := keys.foldl
      (fun name k => name ++ ['['] ++ k ++ ['='] ++ escape ((kv.lookup k).getD []) ++ [']']) name
    return (text, keys.length)

abbrev Policies := GoMap Mode (GoMap Text Action)

def Policies.insert (policies : Policies) (principal : Text) (mode : Mode) (action : Action) :
    Except String Policies :=
  let m := (policies.lookup mode).getD ∅
  if principal ∈ m then .error "policy already contains action for principal"
  else .ok (AList.insert mode (AList.insert principal action m) policies)

structure TrieNode where
  elem : PathElem
  hasPolicy : Bool
  users : Policies
  groups : Policies
  totalSetKeys : Nat

def newNode (elem : PathElem) (totalSetKeys : Nat) : TrieNode where
  elem := elem
  hasPolicy := false
  users := ∅
  groups := ∅
  totalSetKeys := totalSetKeys

abbrev NodeKey := List Text

abbrev Nodes := GoMap NodeKey TrieNode

abbrev Memberships := GoMap Text (GoMap Text Bool)

-- The root is absent until the first rule arrives.
structure Trie where
  nodes : Nodes
  memberships : Memberships

def Memberships.has (memberships : Memberships) (group user : Text) : Bool :=
  match memberships.lookup group with
  | none => false
  | some users => (users.lookup user).isSome

def addUser (group : Text) (memberships : Memberships) (user : Text) : Memberships :=
  AList.insert group (AList.insert user true ((memberships.lookup group).getD ∅)) memberships

def addGroup (memberships : Memberships) (group : Group) : Memberships :=
  let memberships :=
    if group.name ∈ memberships then memberships else AList.insert group.name ∅ memberships
  group.users.foldl (addUser group.name) memberships

def Nodes.root (nodes : Nodes) : Nodes :=
  if [] ∈ nodes then nodes else AList.insert [] (newNode ⟨[], ∅⟩ 0) nodes

-- The loop of `Insert` over the elements of the path. The nodes it made before an error stay.
def descend : List PathElem → NodeKey → Nodes → Nodes × Except String NodeKey
  | [], node, nodes => (nodes, .ok node)
  | elem :: rest, node, nodes =>
    if elem.name = wildcard then (nodes, .error "wildcard path names are not permitted")
    else
      match elemToString elem.name elem.key with
      | .error message => (nodes, .error ("invalid path element: " ++ message))
      | .ok (pathStr, keys) =>
        let child := node ++ [pathStr]
        if child ∈ nodes then descend rest child nodes
        else
          let above := (nodes.lookup node).elim 0 TrieNode.totalSetKeys
          descend rest child (AList.insert child (newNode elem (above + keys)) nodes)

def TrieNode.insert (node : TrieNode) (rule : Rule) : Except String TrieNode :=
  match rule.principal with
  | .user name => do
    let users ← Policies.insert node.users name rule.mode rule.action
    return { node with users := users, hasPolicy := true }
  | principal => do
    let groups ← Policies.insert node.groups principal.getGroup rule.mode rule.action
    return { node with groups := groups, hasPolicy := true }

section Insert

-- How protobuf prints a path in an error.
variable (pathText : Path → String)

def Trie.insert (trie : Trie) (rule : Rule) : Trie × Outcome Unit :=
  let trie := { trie with nodes := trie.nodes.root }
  if rule.action = .unspecified then (trie, .error "action unspecified")
  else if rule.action ≠ .deny ∧ rule.action ≠ .permit then (trie, .error "unknown action type")
  else if rule.mode = .unspecified then (trie, .error "mode unspecified")
  else if rule.principal.getGroup = [] ∧ rule.principal.getUser = [] then
    (trie, .error "principal unset")
  else
    match rule.path with
    -- The elements of a path that is not set are read through a nil pointer.
    | none => (trie, .panic)
    | some path =>
      let (nodes, target) := descend path [] trie.nodes
      let trie := { trie with nodes := nodes }
      match target with
      | .error message => (trie, .error message)
      | .ok key =>
        match nodes.lookup key with
        | none => (trie, .panic)
        | some node =>
          match node.insert rule with
          | .error message =>
            (trie, .error ("error inserting policy at " ++ pathText path ++ ": " ++ message))
          | .ok node => ({ trie with nodes := AList.insert key node nodes }, .ok ())

def Trie.insertAll : Trie → List Rule → Outcome Trie
  | trie, [] => .ok trie
  | trie, rule :: rules =>
    match trie.insert pathText rule with
    | (trie, .ok ()) => insertAll trie rules
    | (_, .error message) => .error message
    | (_, .panic) => .panic
    | (_, .diverge) => .diverge

def fromPolicy (policy : Policy) : Outcome Trie :=
  Trie.insertAll pathText ⟨∅, policy.groups.foldl addGroup ∅⟩ policy.rules

end Insert

def Nodes.children (nodes : Nodes) (node : NodeKey) : List NodeKey :=
  nodes.keys.filter fun key => key ≠ [] ∧ key.dropLast = node

-- A call of `Probe` ranges over the children of a node once at most, and over its groups once in the
-- walk and once more at the end.
structure Orders (trie : Trie) where
  children : NodeKey → List NodeKey
  children_perm : ∀ key, (children key).Perm (trie.nodes.children key)
  walkGroups : NodeKey → Shuffle (Σ _ : Text, Action)
  finalGroups : NodeKey → Shuffle (Σ _ : Text, Action)

def groupAction (memberships : Memberships) (user : Text) :
    Action → List (Σ _ : Text, Action) → Action
  | act, [] => act
  | act, ⟨group, action⟩ :: rest =>
    if memberships.has group user then
      if action = .deny then .deny else groupAction memberships user action rest
    else groupAction memberships user act rest

def TrieNode.getAction (node : TrieNode) (order : Shuffle (Σ _ : Text, Action)) (user : Text)
    (mode : Mode) (memberships : Memberships) : Action × Bool :=
  match (node.users.lookup mode).bind (fun m => m.lookup user) with
  | some act => (act, true)
  | none =>
    let groups := (node.groups.lookup mode).getD ∅
    (groupAction memberships user .unspecified (order.arrange groups.entries), false)

def nextPath (path : Path) (node : Option TrieNode) : Nat → Outcome Path
  | 0 => .ok []
  | depth + 1 =>
    match node with
    | none => .panic
    | some node => .ok (path.take depth ++ [node.elem])

-- The loop of `walk`. The head of `stack` is the end of the slice, and `path` is the one path object
-- that all calls of `walkFn` share.
def walkLoop {σ : Type} (nodes : Nodes) (order : NodeKey → List NodeKey)
    (walkFn : σ → NodeKey → Option TrieNode → Path → Outcome (σ × Bool)) :
    Nat → List (NodeKey × Nat) → Path → σ → Outcome σ
  | _, [], _, state => .ok state
  | 0, _ :: _, _, _ => .diverge
  | fuel + 1, (last, depth) :: stack, path, state => do
    let path ← nextPath path (nodes.lookup last) depth
    let (state, cont) ← walkFn state last (nodes.lookup last) path
    if !cont then walkLoop nodes order walkFn fuel stack path state
    else
      let children := (order last).map fun c => (c, depth + 1)
      walkLoop nodes order walkFn fuel (children.reverse ++ stack) path state

inductive CompareRelation where
  | equal
  | disjoint
  | subset
  | superset
  | partialOverlap
deriving DecidableEq

-- A pointer to a node is its key, kept with the node it points to.
structure Matching where
  policies : List (NodeKey × TrieNode)
  longestPolicyLen : Nat

def Matching.add (found : Matching) (key : NodeKey) (node : TrieNode) (len : Nat) : Matching :=
  let found := if len > found.longestPolicyLen then ⟨[], len⟩ else found
  { found with policies := found.policies ++ [(key, node)] }

-- The running maximum starts below every count, and reaching a new one keeps what is there.
def mostSpecificPolicies : Int → List (NodeKey × TrieNode) → List (NodeKey × TrieNode)
  | _, [] => []
  | maxSetKeys, p :: rest =>
    if (p.2.totalSetKeys : Int) ≥ maxSetKeys then p :: mostSpecificPolicies p.2.totalSetKeys rest
    else mostSpecificPolicies maxSetKeys rest

section Probe

variable (comparePaths : Path → Path → CompareRelation)

section

variable (memberships : Memberships) (groups : NodeKey → Shuffle (Σ _ : Text, Action)) (user : Text)
  (mode : Mode)

def probeWalkFn (path : Path) (found : Matching) (key : NodeKey) (node : Option TrieNode)
    (walkPath : Path) : Outcome (Matching × Bool) :=
  let res := comparePaths path walkPath
  if res ≠ .equal ∧ res ≠ .subset then .ok (found, false)
  else
    match node with
    | none => .panic
    | some node =>
      if !node.hasPolicy then .ok (found, true)
      else
        let (act, _) := node.getAction (groups key) user mode memberships
        if act ≠ .unspecified then .ok (found.add key node walkPath.length, true)
        else .ok (found, true)

def finalLoop : Action → List (NodeKey × TrieNode) → Action
  | finalAction, [] => finalAction
  | finalAction, (key, n) :: rest =>
    let (act, isUser) := n.getAction (groups key) user mode memberships
    if isUser ∧ act = .deny then act
    else if isUser then finalLoop act rest
    else if finalAction ≠ .deny then finalLoop act rest
    else finalLoop finalAction rest

end

def Trie.probe (trie : Trie) (fuel : Nat) (orders : Orders trie) (path : Path) (user : Text)
    (mode : Mode) : Outcome Action := do
  let found ← walkLoop trie.nodes orders.children
    (probeWalkFn comparePaths trie.memberships orders.walkGroups user mode path) fuel [([], 0)] [] ⟨[], 0⟩
  if found.policies.length = 0 then return .deny
  return finalLoop trie.memberships orders.finalGroups user mode .unspecified
    (mostSpecificPolicies (-1) found.policies)

end Probe

end Lemming.Acl

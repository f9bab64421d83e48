import Lemming.Acl.Growth

set_option autoImplicit false

namespace Lemming.Acl

open Shared

-- The element with which the path comes to the node on its way down from `above`.
def placed : Path → NodeKey → NodeKey → Option PathElem
  | [], _, _ => none
  | elem :: rest, above, key =>
    if key = above ++ [strOf elem] then some elem else placed rest (above ++ [strOf elem]) key

-- A node keeps the element of the first rule that comes to it.
def firstElem (rules : List Rule) (key : NodeKey) : Option PathElem :=
  rules.findSome? fun rule => rule.path.bind fun path => placed path [] key

def keptPath (rules : List Rule) (key : NodeKey) : Path :=
  (List.range key.length).map fun i => (firstElem rules (key.take (i + 1))).getD ⟨[], ∅⟩

def Policies.find (policies : Policies) (mode : Mode) (principal : Text) : Option Action :=
  (policies.lookup mode).bind fun m => m.lookup principal

def TrieNode.find (node : TrieNode) (mode : Mode) : Principal → Option Action
  | .user name => node.users.find mode name
  | .group name => node.groups.find mode name
  | .unset => none

def Nodes.find (nodes : Nodes) (key : NodeKey) (mode : Mode) (principal : Principal) : Option Action :=
  (nodes.lookup key).bind fun node => node.find mode principal

def Nodes.Marked (nodes : Nodes) : Prop :=
  ∀ key node mode principal act, nodes.lookup key = some node → node.find mode principal = some act →
    node.hasPolicy = true

-- What the nodes hold once the rules were inserted, all of them taken.
structure Kept (rules : List Rule) (nodes : Nodes) : Prop where
  root : [] ∈ nodes ↔ rules ≠ []
  elems : ∀ key ≠ [], (nodes.lookup key).map TrieNode.elem = firstElem rules key
  acts : ∀ key mode principal act, nodes.find key mode principal = some act ↔
    ∃ rule ∈ rules, rule.mode = mode ∧ rule.principal = principal ∧ rule.action = act ∧
      rule.path.map pathStrs = some key
  marked : nodes.Marked
  settled : ∀ rule ∈ rules, rule.action = .deny ∨ rule.action = .permit

section Nodes

variable {nodes nodes' : Nodes} {rule : Rule} {key : NodeKey} {node : TrieNode}

theorem Policies.find_insert {policies policies' : Policies} {principal : Text} {mode : Mode}
    {action : Action} (isOk : policies.insert principal mode action = .ok policies') (mode' : Mode)
    (other : Text) (act : Action) : policies'.find mode' other = some act ↔
      (mode = mode' ∧ principal = other ∧ action = act) ∨ policies.find mode' other = some act := by
  rw [Policies.insert] at isOk
  split at isOk
  · cases isOk
  · rename_i absent
    cases isOk
    rw [Policies.find, Policies.find]
    by_cases sameMode : mode' = mode
    · subst sameMode
      rw [AList.lookup_insert, Option.bind_some]
      by_cases same : other = principal
      · subst same
        have none : (policies.lookup mode').bind (fun m => m.lookup other) = none := by
          cases isMap : AList.lookup mode' policies with
          | none => rfl
          | some m =>
            rw [isMap] at absent
            exact AList.lookup_eq_none.mpr absent
        simp [none]
      · rw [AList.lookup_insert_ne same]
        cases AList.lookup mode' policies <;> simp [Ne.symm same]
    · rw [AList.lookup_insert_ne sameMode]
      simp [Ne.symm sameMode]

theorem TrieNode.insert_spec {node' : TrieNode} (set : rule.principal ≠ .unset)
    (isOk : node.insert rule = .ok node') : node'.elem = node.elem ∧ node'.hasPolicy = true ∧
      ∀ mode principal act, node'.find mode principal = some act ↔
        (rule.mode = mode ∧ rule.principal = principal ∧ rule.action = act) ∨
          node.find mode principal = some act := by
  cases isPrincipal : rule.principal with
  | unset => exact absurd isPrincipal set
  | user name =>
    cases inserted : node.users.insert name rule.mode rule.action with
    | error message => simp [TrieNode.insert, isPrincipal, inserted, bind, Except.bind] at isOk
    | ok users =>
      obtain rfl : _ = node' := by
        simpa [TrieNode.insert, isPrincipal, inserted, bind, Except.bind, pure, Except.pure] using isOk
      refine ⟨rfl, rfl, ?_⟩
      rintro mode (_ | other | other) act
      · simp [find]
      · simp [find, Policies.find_insert inserted]
      · simp [find]
  | group name =>
    cases inserted : node.groups.insert name rule.mode rule.action with
    | error message =>
      simp [TrieNode.insert, isPrincipal, Principal.getGroup, inserted, bind, Except.bind] at isOk
    | ok groups =>
      obtain rfl : _ = node' := by
        simpa [TrieNode.insert, isPrincipal, Principal.getGroup, inserted, bind, Except.bind, pure,
          Except.pure] using isOk
      refine ⟨rfl, rfl, ?_⟩
      rintro mode (_ | other | other) act
      · simp [find]
      · simp [find]
      · simp [find, Policies.find_insert inserted]

theorem Nodes.find_newNode (fresh : key ∉ nodes) (elem : PathElem) (n : Nat) (k : NodeKey) (mode : Mode)
    (principal : Principal) :
    Nodes.find (AList.insert key (newNode elem n) nodes) k mode principal = nodes.find k mode principal := by
  rw [Nodes.find, Nodes.find]
  by_cases same : k = key
  · subst same
    rw [AList.lookup_insert, AList.lookup_eq_none.mpr fresh]
    cases principal <;> rfl
  · rw [AList.lookup_insert_ne same]

theorem Nodes.Marked.add (marked : nodes.Marked) {elem : PathElem} {n : Nat} :
    Nodes.Marked (AList.insert key (newNode elem n) nodes) := by
  intro k other mode principal act found isAct
  rcases lookup_put found with ⟨rfl, rfl⟩ | old
  · cases principal <;> cases isAct
  · exact marked k other mode principal act old isAct

-- Making the root changes nothing below it.
theorem Nodes.lookup_root (nodes : Nodes) (nonempty : key ≠ []) : nodes.root.lookup key = nodes.lookup key := by
  rw [Nodes.root]
  split
  · rfl
  · rw [AList.lookup_insert_ne nonempty]

theorem Nodes.find_root (nodes : Nodes) (mode : Mode) (principal : Principal) :
    nodes.root.find key mode principal = nodes.find key mode principal := by
  rw [Nodes.root]
  split
  · rfl
  · next absent => rw [Nodes.find_newNode absent]

theorem Nodes.Marked.root (marked : nodes.Marked) : nodes.root.Marked := by
  rw [Nodes.root]
  split
  · exact marked
  · exact marked.add

theorem Nodes.Marked.descend (marked : nodes.Marked) (path : Path) :
    [] ∈ (descend path [] nodes.root).1 ∧ Nodes.Marked (descend path [] nodes.root).1 :=
  (descend_keeps (P := fun nodes => [] ∈ nodes ∧ Nodes.Marked nodes)
    (fun _ _ _ _ holds _ _ _ => ⟨(AList.mem_insert _).mpr (Or.inr holds.1), holds.2.add⟩)
    (mem_root nodes) ⟨mem_root nodes, marked.root⟩).1

theorem descend_ok {path : Path} : ∀ {key target : NodeKey} {nodes : Nodes}, key ∈ nodes →
    descend path key nodes = (nodes', .ok target) →
      target = key ++ pathStrs path ∧
      (∀ k, (nodes'.lookup k).map TrieNode.elem =
        ((nodes.lookup k).map TrieNode.elem).or (placed path key k)) ∧
      ∀ k mode principal, nodes'.find k mode principal = nodes.find k mode principal := by
  induction path with
  | nil =>
    rintro key target nodes - ⟨⟩
    exact ⟨(List.append_nil key).symm, fun k => by simp [placed], fun _ _ _ => rfl⟩
  | cons elem rest ih =>
    intro key target nodes present isOk
    rw [descend] at isOk
    split at isOk
    · cases isOk
    split at isOk
    · cases isOk
    · rename_i pathStr keys printed
      obtain rfl : strOf elem = pathStr := by rw [strOf, printed]; rfl
      have step : key ++ pathStrs (elem :: rest) = key ++ [strOf elem] ++ pathStrs rest := by
        rw [List.append_assoc]
        rfl
      simp only at isOk
      split at isOk
      · rename_i known
        obtain ⟨isTarget, elems, acts⟩ := ih known isOk
        refine ⟨isTarget.trans step.symm, fun k => ?_, acts⟩
        rw [elems, placed]
        split
        · rename_i here
          obtain ⟨node, isNode⟩ := Option.isSome_iff_exists.mp (AList.lookup_isSome.mpr known)
          rw [here, isNode]
          rfl
        · rfl
      · rename_i fresh
        obtain ⟨isTarget, elems, acts⟩ := ih ((AList.mem_insert _).mpr (Or.inl rfl)) isOk
        refine ⟨isTarget.trans step.symm, fun k => ?_, fun k mode principal => ?_⟩
        · rw [elems, placed]
          split
          · rename_i here
            rw [here, AList.lookup_insert, AList.lookup_eq_none.mpr fresh]
            rfl
          · rename_i elsewhere
            rw [AList.lookup_insert_ne elsewhere]
        · rw [acts, Nodes.find_newNode fresh]

end Nodes

section Insert

variable {rules : List Rule} {trie trie' : Trie} {rule : Rule} {pathText : Path → String}

theorem insert_ok (isOk : trie.insert pathText rule = (trie', .ok ())) :
    ∃ path nodes key node node', rule.path = some path ∧
      (rule.action = .deny ∨ rule.action = .permit) ∧ rule.principal ≠ .unset ∧
      descend path [] trie.nodes.root = (nodes, .ok key) ∧ nodes.lookup key = some node ∧
      node.insert rule = .ok node' ∧
      trie' = { trie with nodes := AList.insert key node' nodes } := by
  rw [Trie.insert] at isOk
  simp only at isOk
  split at isOk
  · cases isOk
  split at isOk
  · cases isOk
  split at isOk
  · cases isOk
  split at isOk
  · cases isOk
  rename_i specified known moded named
  split at isOk
  · cases isOk
  rename_i path isPath
  rcases walked : descend path [] trie.nodes.root with ⟨nodes, _ | key⟩
  · rw [walked] at isOk
    cases isOk
  rw [walked] at isOk
  simp only at isOk
  split at isOk
  · cases isOk
  rename_i node isNode
  split at isOk
  · cases isOk
  rename_i node' inserted
  cases isOk
  refine ⟨path, nodes, key, node, node', isPath, ?_, ?_, walked, isNode, inserted, rfl⟩
  · by_contra other
    exact known ⟨fun deny => other (Or.inl deny), fun permit => other (Or.inr permit)⟩
  · intro unset
    rw [unset] at named
    exact named ⟨rfl, rfl⟩

theorem firstElem_append (rules : List Rule) (rule : Rule) (key : NodeKey) :
    firstElem (rules ++ [rule]) key =
      (firstElem rules key).or (rule.path.bind fun path => placed path [] key) := by
  rw [firstElem, List.findSome?_append, ← firstElem]
  congr 1
  cases found : rule.path.bind fun path => placed path [] key <;> simp [found]

theorem Kept.insert (kept : Kept rules trie.nodes) (isOk : trie.insert pathText rule = (trie', .ok ())) :
    Kept (rules ++ [rule]) trie'.nodes := by
  obtain ⟨path, nodes, key, node, node', isPath, settled, isSet, walked, isNode, inserted, rfl⟩ :=
    insert_ok isOk
  obtain ⟨isTarget, elems, acts⟩ := descend_ok (mem_root trie.nodes) walked
  obtain ⟨sameElem, hasPolicy, finds⟩ := TrieNode.insert_spec isSet inserted
  obtain rfl : key = pathStrs path := isTarget
  have old := kept.marked.descend path
  rw [walked] at old
  constructor
  · exact iff_of_true ((AList.mem_insert _).mpr (Or.inr old.1)) (by simp)
  · intro k nonempty
    rw [firstElem_append, ← kept.elems k nonempty, isPath, Option.bind_some,
      ← trie.nodes.lookup_root nonempty, ← elems]
    by_cases here : k = pathStrs path
    · rw [here, AList.lookup_insert, isNode, Option.map_some, Option.map_some, sameElem]
    · rw [AList.lookup_insert_ne here]
  · intro k mode principal act
    have before : Nodes.find nodes k mode principal = some act ↔ ∃ rule ∈ rules, rule.mode = mode ∧
        rule.principal = principal ∧ rule.action = act ∧ rule.path.map pathStrs = some k := by
      rw [acts, Nodes.find_root, kept.acts]
    simp only [List.mem_append, or_and_right, exists_or, ← before, List.mem_singleton, exists_eq_left,
      isPath, Option.map_some, Option.some_inj]
    rw [Nodes.find]
    by_cases here : k = pathStrs path
    · rw [here, AList.lookup_insert, Option.bind_some, finds, Nodes.find, isNode, Option.bind_some]
      simp only [and_true]
      exact or_comm
    · rw [AList.lookup_insert_ne here]
      simp [Nodes.find, Ne.symm here]
  · intro k other mode principal act found isAct
    rcases lookup_put found with ⟨-, rfl⟩ | before
    · exact hasPolicy
    · exact old.2 k other mode principal act before isAct
  · intro other mem
    rcases List.mem_append.mp mem with before | new
    · exact kept.settled other before
    · rw [List.mem_singleton.mp new]
      exact settled

theorem insertAll_kept {done rules : List Rule} : ∀ {trie : Trie}, Kept done trie.nodes →
    trie.insertAll pathText rules = .ok trie' →
      Kept (done ++ rules) trie'.nodes ∧ trie'.memberships = trie.memberships := by
  induction rules generalizing done with
  | nil =>
    rintro trie kept ⟨⟩
    exact ⟨by rwa [List.append_nil], rfl⟩
  | cons rule rules ih =>
    intro trie kept isOk
    rw [Trie.insertAll] at isOk
    rcases inserted : trie.insert pathText rule with ⟨next, _ | _ | _ | _⟩
    · rw [inserted] at isOk
      obtain ⟨last, same⟩ := ih (kept.insert inserted) isOk
      obtain ⟨_, _, _, _, _, -, -, -, -, -, -, rfl⟩ := insert_ok inserted
      rw [List.append_assoc] at last
      exact ⟨last, same⟩
    all_goals
      rw [inserted] at isOk
      cases isOk

theorem fromPolicy_kept {policy : Policy} (isOk : fromPolicy pathText policy = .ok trie') :
    Kept policy.rules trie'.nodes ∧ trie'.memberships = policy.groups.foldl addGroup ∅ := by
  have empty : Kept [] (∅ : Nodes) := by
    refine ⟨by simp, fun _ _ => rfl, fun key mode principal act => ?_, nofun, nofun⟩
    simp [Nodes.find]
  exact insertAll_kept empty isOk

variable {nodes : Nodes}

theorem Kept.pathOf_eq (kept : Kept rules nodes) (key : NodeKey) :
    pathOf nodes key = keptPath rules key := by
  refine List.map_congr_left fun i below => ?_
  have nonempty : key.take (i + 1) ≠ [] := by
    have := List.mem_range.mp below
    intro empty
    have lengths := congrArg List.length empty
    rw [List.length_take, List.length_nil] at lengths
    omega
  rw [← kept.elems _ nonempty, elemAt]
  cases nodes.lookup (key.take (i + 1)) <;> rfl

theorem placed_isSome {path : Path} : ∀ {above : NodeKey} {i : Nat}, path.take i ≠ [] →
    (placed path above (above ++ (pathStrs path).take i)).isSome = true := by
  induction path with
  | nil =>
    intro above i nonempty
    exact absurd List.take_nil nonempty
  | cons elem rest ih =>
    intro above i nonempty
    obtain ⟨i, rfl⟩ : ∃ n, i = n + 1 := Nat.exists_eq_succ_of_ne_zero (by rintro rfl; exact nonempty rfl)
    have below : above ++ (pathStrs (elem :: rest)).take (i + 1) =
        above ++ [strOf elem] ++ (pathStrs rest).take i := by
      rw [List.append_assoc]
      rfl
    rw [below, placed]
    split
    · rfl
    · rename_i further
      refine ih fun ended => further ?_
      have none : (pathStrs rest).take i = [] := by rw [pathStrs, ← List.map_take, ended]; rfl
      rw [none, List.append_nil]

theorem Kept.above (kept : Kept rules nodes) {rule : Rule} (mem : rule ∈ rules) {path : Path}
    (isPath : rule.path = some path) (i : Nat) : (pathStrs path).take i ∈ nodes := by
  by_cases isRoot : path.take i = []
  · rw [pathStrs, ← List.map_take, isRoot]
    exact kept.root.mpr (List.ne_nil_of_mem mem)
  · have nonempty : (pathStrs path).take i ≠ [] := by
      rwa [pathStrs, ← List.map_take, Ne, List.map_eq_nil_iff]
    have known : (firstElem rules ((pathStrs path).take i)).isSome = true :=
      List.findSome?_isSome_iff.mpr ⟨rule, mem, by rw [isPath]; exact placed_isSome isRoot⟩
    rw [← kept.elems _ nonempty, Option.isSome_map] at known
    exact AList.lookup_isSome.mp known

end Insert

end Lemming.Acl

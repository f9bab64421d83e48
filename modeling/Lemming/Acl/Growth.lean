import Lemming.Acl.Trie
import Lemming.Shared.DepthFirst

set_option autoImplicit false

namespace Lemming.Acl

open Shared

section Paths

variable {nodes : Nodes}

def elemAt (nodes : Nodes) (key : NodeKey) : PathElem :=
  (nodes.lookup key).elim ⟨[], ∅⟩ TrieNode.elem

def pathOf (nodes : Nodes) (key : NodeKey) : Path :=
  (List.range key.length).map fun i => elemAt nodes (key.take (i + 1))

theorem pathOf_append (nodes : Nodes) (key : NodeKey) (pathStr : Text) :
    pathOf nodes (key ++ [pathStr]) = pathOf nodes key ++ [elemAt nodes (key ++ [pathStr])] := by
  rw [pathOf, List.length_append, List.length_singleton, List.range_succ, List.map_append]
  congr 1
  · refine List.map_congr_left fun i member => ?_
    rw [List.take_append_of_le_length (List.mem_range.mp member)]
  · simp [List.take_of_length_le]

theorem pathOf_take (nodes : Nodes) (key : NodeKey) (n : Nat) :
    (pathOf nodes key).take n = pathOf nodes (key.take n) := by
  rw [pathOf, pathOf, ← List.map_take, List.take_range, List.length_take]
  refine List.map_congr_left fun i member => ?_
  have bound : i + 1 ≤ n := by
    have below := List.mem_range.mp member
    omega
  rw [List.take_take, Nat.min_eq_left bound]

theorem mem_children {node child : NodeKey} :
    child ∈ nodes.children node ↔ child ∈ nodes ∧ ∃ pathStr, child = node ++ [pathStr] := by
  rw [Nodes.children, List.mem_filter, decide_eq_true_eq]
  refine and_congr_right fun _ => ?_
  constructor
  · rintro ⟨nonempty, rfl⟩
    exact ⟨child.getLast nonempty, (List.dropLast_append_getLast nonempty).symm⟩
  · rintro ⟨pathStr, rfl⟩
    simp

end Paths

-- The stack of the walk: its nodes are there, and the parent of each is on the way to the one above it,
-- so that the shared path can be cut back to it.
structure Stack (nodes : Nodes) (current : NodeKey) (stack : List NodeKey) : Prop where
  present : ∀ x ∈ stack, x ∈ nodes
  parents : stack.Pairwise fun x y => y.dropLast <+: x.dropLast
  current : ∀ x ∈ stack, x.dropLast <+: current

section Stacks

variable {nodes : Nodes} {current node : NodeKey} {stack : List NodeKey}

theorem Stack.skip (valid : Stack nodes current (node :: stack)) : Stack nodes node stack where
  present := fun x member => valid.present x (List.mem_cons_of_mem _ member)
  parents := (List.pairwise_cons.mp valid.parents).2
  current := fun x member =>
    ((List.pairwise_cons.mp valid.parents).1 x member).trans (List.dropLast_prefix node)

theorem Stack.push (valid : Stack nodes current (node :: stack)) {below : List NodeKey}
    (known : ∀ x ∈ below, x ∈ nodes.children node) : Stack nodes node (below ++ stack) := by
  have parent : ∀ x ∈ below, x.dropLast = node := by
    intro x member
    obtain ⟨-, pathStr, rfl⟩ := mem_children.mp (known x member)
    exact List.dropLast_concat
  refine ⟨?_, ?_, ?_⟩
  · intro x member
    rcases List.mem_append.mp member with child | onStack
    · exact (mem_children.mp (known x child)).1
    · exact valid.skip.present x onStack
  · refine List.pairwise_append.mpr ⟨?_, valid.skip.parents, ?_⟩
    · refine List.pairwise_of_forall_mem_list fun x xMember y yMember => ?_
      rw [parent x xMember, parent y yMember]
    · intro x xMember y yMember
      rw [parent x xMember]
      exact valid.skip.current y yMember
  · intro x member
    rcases List.mem_append.mp member with child | onStack
    · rw [parent x child]
    · exact valid.skip.current x onStack

theorem nextPath_stack (valid : Stack nodes current (node :: stack)) {value : TrieNode}
    (found : nodes.lookup node = some value) :
    nextPath (pathOf nodes current) (some value) node.length = .ok (pathOf nodes node) := by
  rcases List.eq_nil_or_concat' node with rfl | ⟨parent, label, rfl⟩
  · rfl
  · have above := valid.current _ List.mem_cons_self
    rw [List.dropLast_concat] at above
    rw [List.length_append, List.length_singleton, nextPath, pathOf_take,
      ← List.prefix_iff_eq_take.mp above, pathOf_append, elemAt, found]
    rfl

variable {σ : Type} {order : NodeKey → List NodeKey}
  {walkFn : σ → NodeKey → Option TrieNode → Path → Outcome (σ × Bool)}

theorem walkLoop_visits {enter : NodeKey → Bool} {visit : σ → NodeKey → σ} {visited : List NodeKey}
    (behaves : ∀ state key node, nodes.lookup key = some node →
      walkFn state key (some node) (pathOf nodes key) = .ok (visit state key, enter key))
    (known : ∀ key, ∀ child ∈ order key, child ∈ nodes.children key)
    (visits : Visits (fun key => (order key).reverse) enter stack visited) :
    ∀ {fuel : Nat} {current : NodeKey} {state : σ}, Stack nodes current stack → visited.length ≤ fuel →
      walkLoop nodes order walkFn fuel (stack.map fun key => (key, key.length)) (pathOf nodes current)
        state = .ok (visited.foldl visit state) := by
  -- One iteration, up to what it puts on the stack.
  have step {fuel : Nat} {node current : NodeKey} {stack : List NodeKey} {state : σ}
      (valid : Stack nodes current (node :: stack)) :
      walkLoop nodes order walkFn (fuel + 1) ((node :: stack).map fun key => (key, key.length))
          (pathOf nodes current) state =
        walkLoop nodes order walkFn fuel
          ((if enter node then (order node).reverse ++ stack else stack).map
            fun key => (key, key.length)) (pathOf nodes node) (visit state node) := by
    obtain ⟨value, found⟩ := Option.isSome_iff_exists.mp
      (AList.lookup_isSome.mpr (valid.present node List.mem_cons_self))
    rw [List.map_cons, walkLoop, found, nextPath_stack valid found, Outcome.ok_bind,
      behaves state node value found, Outcome.ok_bind]
    cases enter node with
    | false => rfl
    | true =>
      have depths : ((order node).map fun c => (c, node.length + 1)).reverse =
          (order node).reverse.map fun key => (key, key.length) := by
        rw [← List.map_reverse]
        refine List.map_congr_left fun child member => ?_
        obtain ⟨-, label, rfl⟩ := mem_children.mp (known node child (List.mem_reverse.mp member))
        rw [List.length_append, List.length_singleton]
      simp only [Bool.not_true, Bool.false_eq_true, if_false, if_true, List.map_append, depths]
  induction visits with
  | done =>
    intro fuel current state _ _
    cases fuel <;> rfl
  | @skip k stack visited skipped visits ih =>
    intro fuel current state valid enough
    obtain ⟨fuel, rfl⟩ := Nat.exists_eq_add_of_le' (Nat.le_trans (Nat.le_add_left 1 _) enough)
    rw [step valid, skipped]
    exact ih valid.skip (Nat.le_of_succ_le_succ enough)
  | @push k stack visited entered visits ih =>
    intro fuel current state valid enough
    obtain ⟨fuel, rfl⟩ := Nat.exists_eq_add_of_le' (Nat.le_trans (Nat.le_add_left 1 _) enough)
    rw [step valid, entered]
    exact ih (valid.push fun x member => known k x (List.mem_reverse.mp member))
      (Nat.le_of_succ_le_succ enough)

end Stacks

section Probe

variable (comparePaths : Path → Path → CompareRelation)

def Matches (path walkPath : Path) : Prop :=
  comparePaths path walkPath = .equal ∨ comparePaths path walkPath = .subset

instance (path walkPath : Path) : Decidable (Matches comparePaths path walkPath) :=
  inferInstanceAs (Decidable (_ ∨ _))

-- What ygot's comparison gives for paths that name every key and have no wildcards.
def comparePlain (a b : Path) : CompareRelation :=
  if a = b then .equal
  else if b <+: a then .subset
  else if a <+: b then .superset
  else .disjoint

def enters (nodes : Nodes) (path : Path) (key : NodeKey) : Bool :=
  decide (Matches comparePaths path (pathOf nodes key))

variable (nodes : Nodes) (memberships : Memberships) (groups : NodeKey → Shuffle (Σ _ : Text, Action))
  (user : Text) (mode : Mode)

def visit (path : Path) (found : Matching) (key : NodeKey) : Matching :=
  match nodes.lookup key with
  | none => found
  | some node =>
    if Matches comparePaths path (pathOf nodes key) ∧ node.hasPolicy = true ∧
        (node.getAction (groups key) user mode memberships).1 ≠ .unspecified then
      found.add key node (pathOf nodes key).length
    else found

def conclude (found : Matching) : Action :=
  if found.policies.length = 0 then .deny
  else finalLoop memberships groups user mode .unspecified (mostSpecificPolicies (-1) found.policies)

variable {comparePaths nodes memberships groups user mode} {path : Path}

theorem probeWalkFn_eq {found : Matching} {key : NodeKey} {node : TrieNode}
    (isNode : nodes.lookup key = some node) :
    probeWalkFn comparePaths memberships groups user mode path found key (some node) (pathOf nodes key) =
      .ok (visit comparePaths nodes memberships groups user mode path found key,
        enters comparePaths nodes path key) := by
  rw [probeWalkFn, visit, isNode, enters]
  by_cases isMatch : Matches comparePaths path (pathOf nodes key)
  · have notOutside : ¬ (comparePaths path (pathOf nodes key) ≠ .equal ∧
        comparePaths path (pathOf nodes key) ≠ .subset) := by
      rintro ⟨notEqual, notSubset⟩
      exact isMatch.elim notEqual notSubset
    rw [if_neg notOutside, decide_eq_true isMatch]
    cases isPolicy : node.hasPolicy with
    | false => simp [isPolicy]
    | true =>
      by_cases acts : (node.getAction (groups key) user mode memberships).1 = .unspecified
      · simp [acts]
      · simp [isMatch, isPolicy, acts]
  · have outside : comparePaths path (pathOf nodes key) ≠ .equal ∧
        comparePaths path (pathOf nodes key) ≠ .subset := not_or.mp isMatch
    simp [outside, isMatch]

variable {trie : Trie} (orders : Orders trie)

theorem Orders.known {key child : NodeKey} (mem : child ∈ orders.children key) :
    child ∈ trie.nodes.children key :=
  (orders.children_perm key).mem_iff.mp mem

theorem Orders.visits_exist (enter : NodeKey → Bool) :
    ∃ visited, Visits (fun key => (orders.children key).reverse) enter [[]] visited := by
  let deepest := trie.nodes.keys.toFinset.sup List.length
  refine Visits.ends (fun key => deepest - key.length) ?_ []
  intro key child member
  obtain ⟨present, pathStr, rfl⟩ := mem_children.mp (orders.known (List.mem_reverse.mp member))
  have deep : (key ++ [pathStr]).length ≤ deepest :=
    Finset.le_sup (f := List.length) (List.mem_toFinset.mpr present)
  rw [List.length_append, List.length_singleton] at deep ⊢
  omega

theorem probe_visits (rooted : [] ∈ trie.nodes) {visited : List NodeKey}
    (visits : Visits (fun key => (orders.children key).reverse) (enters comparePaths trie.nodes path)
      [[]] visited) {fuel : Nat} (enough : visited.length ≤ fuel) :
    trie.probe comparePaths fuel orders path user mode =
      .ok (conclude trie.memberships orders.finalGroups user mode (visited.foldl
        (visit comparePaths trie.nodes trie.memberships orders.walkGroups user mode path) ⟨[], 0⟩)) := by
  have valid : Stack trie.nodes [] [[]] :=
    ⟨by simpa using rooted, List.pairwise_singleton _ _, by simp⟩
  have walked (found : Matching) : walkLoop trie.nodes orders.children
      (probeWalkFn comparePaths trie.memberships orders.walkGroups user mode path) fuel [([], 0)] []
        found = .ok (visited.foldl
          (visit comparePaths trie.nodes trie.memberships orders.walkGroups user mode path) found) :=
    walkLoop_visits (fun _ _ _ => probeWalkFn_eq) (fun _ _ => orders.known) visits valid enough
  rw [Trie.probe, walked, Outcome.ok_bind, conclude]
  split <;> rfl

end Probe

def strOf (elem : PathElem) : Text :=
  (elemToString elem.name elem.key).toOption.elim [] Prod.fst

def pathStrs (path : Path) : NodeKey :=
  path.map strOf

def Closed (nodes : Nodes) : Prop := ∀ key pathStr, key ++ [pathStr] ∈ nodes → key ∈ nodes

structure Extends (nodes nodes' : Nodes) : Prop where
  old : ∀ key ∈ nodes, nodes'.lookup key = nodes.lookup key
  new : ∀ key node, key ∉ nodes → nodes'.lookup key = some node → node.hasPolicy = false

section Nodes

variable {rules : List Rule} {nodes nodes' : Nodes} {rule : Rule} {key : NodeKey} {node : TrieNode}

theorem lookup_put {key' : NodeKey} {value : TrieNode}
    (found : AList.lookup key' (AList.insert key value nodes) = some node) :
    (key' = key ∧ node = value) ∨ nodes.lookup key' = some node := by
  by_cases same : key' = key
  · subst same
    rw [AList.lookup_insert] at found
    exact Or.inl ⟨rfl, (Option.some.inj found).symm⟩
  · rw [AList.lookup_insert_ne same] at found
    exact Or.inr found

theorem Closed.add (closed : Closed nodes) (present : key ∈ nodes) (pathStr : Text) :
    Closed (AList.insert (key ++ [pathStr]) node nodes) := by
  intro above other member
  rcases (AList.mem_insert _).mp member with same | old
  · obtain ⟨rfl, -⟩ := List.append_inj' same rfl
    exact (AList.mem_insert _).mpr (Or.inr present)
  · exact (AList.mem_insert _).mpr (Or.inr (closed above other old))

theorem Extends.refl (nodes : Nodes) : Extends nodes nodes where
  old := fun _ _ => rfl
  new := by
    intro key node absent found
    exact absurd (AList.lookup_isSome.mp (by rw [found]; rfl)) absent

theorem Extends.add (extends' : Extends nodes nodes') {elem : PathElem} {n : Nat} (fresh : key ∉ nodes') :
    Extends nodes (AList.insert key (newNode elem n) nodes') := by
  refine ⟨?_, ?_⟩
  · intro key' present
    have isOld := extends'.old key' present
    have notNew : key' ≠ key := by
      rintro rfl
      refine fresh (AList.lookup_isSome.mp ?_)
      rw [isOld]
      exact AList.lookup_isSome.mpr present
    rw [AList.lookup_insert_ne notNew, isOld]
  · intro key' node absent found
    rcases lookup_put found with ⟨rfl, rfl⟩ | old
    · rfl
    · exact extends'.new key' node absent old

theorem descend_keeps {P : Nodes → Prop} : ∀ {path : Path} {key : NodeKey} {nodes : Nodes},
    (∀ nodes key elem n, P nodes → key ∈ nodes → elem ∈ path → key ++ [strOf elem] ∉ nodes →
      P (AList.insert (key ++ [strOf elem]) (newNode elem n) nodes)) → key ∈ nodes → P nodes →
    P (descend path key nodes).1 ∧ ∀ target, (descend path key nodes).2 = .ok target →
      target = key ++ pathStrs path := by
  intro path
  induction path with
  | nil =>
    intro key nodes _ _ holds
    refine ⟨holds, ?_⟩
    rintro target ⟨⟩
    exact (List.append_nil key).symm
  | cons elem rest ih =>
    intro key nodes add present holds
    rw [descend]
    split
    · exact ⟨holds, nofun⟩
    split
    · exact ⟨holds, nofun⟩
    · rename_i pathStr keys printed
      obtain rfl : strOf elem = pathStr := by rw [strOf, printed]; rfl
      have later := fun nodes key other n holds' present' mem =>
        add nodes key other n holds' present' (List.mem_cons_of_mem elem mem)
      have step : key ++ [strOf elem] ++ pathStrs rest = key ++ pathStrs (elem :: rest) := by
        rw [List.append_assoc]
        rfl
      rw [← step]
      simp only
      split
      · rename_i known
        exact ih later known holds
      · rename_i fresh
        exact ih later ((AList.mem_insert _).mpr (Or.inl rfl))
          (add nodes key elem _ holds present List.mem_cons_self fresh)

end Nodes

section Insert

variable {rules : List Rule} {trie : Trie} {rule : Rule}

theorem mem_root (nodes : Nodes) : [] ∈ nodes.root := by
  rw [Nodes.root]
  split
  · assumption
  · exact (AList.mem_insert _).mpr (Or.inl rfl)

theorem Closed.root {nodes : Nodes} (closed : Closed nodes) : Closed nodes.root := by
  rw [Nodes.root]
  split
  · exact closed
  · intro key pathStr member
    rcases (AList.mem_insert _).mp member with same | old
    · simp at same
    · exact (AList.mem_insert _).mpr (Or.inr (closed key pathStr old))

theorem Closed.insert (closed : Closed trie.nodes) (pathText : Path → String) (rule : Rule) :
    Closed (trie.insert pathText rule).1.nodes ∧ [] ∈ (trie.insert pathText rule).1.nodes := by
  have rooted := mem_root trie.nodes
  have start : Closed trie.nodes.root ∧ [] ∈ trie.nodes.root := ⟨closed.root, rooted⟩
  rw [Trie.insert]
  simp only
  split
  · exact start
  split
  · exact start
  split
  · exact start
  split
  · exact start
  split
  · exact start
  rename_i path isPath
  have walked : Closed (descend path [] trie.nodes.root).1 ∧ [] ∈ (descend path [] trie.nodes.root).1 := by
    refine (descend_keeps (P := fun nodes => Closed nodes ∧ [] ∈ nodes) ?_ rooted start).1
    rintro nodes key elem n ⟨closed', rooted'⟩ present - -
    exact ⟨closed'.add present _, (AList.mem_insert _).mpr (Or.inr rooted')⟩
  split
  · exact walked
  rename_i key isTarget
  split
  · exact walked
  rename_i node isNode
  split
  · exact walked
  rename_i node' inserted
  have present {key' : NodeKey} : key' ∈ AList.insert key node' (descend path [] trie.nodes.root).1 ↔
      key' ∈ (descend path [] trie.nodes.root).1 := by
    rw [AList.mem_insert]
    refine or_iff_right_of_imp ?_
    rintro rfl
    exact AList.lookup_isSome.mp (by rw [isNode]; rfl)
  refine ⟨fun above pathStr member => ?_, present.mpr walked.2⟩
  exact present.mpr (walked.1 above pathStr (present.mp member))

variable (pathText : Path → String)

-- The trie after rules were tried on it one after the other, each taken or refused.
def Trie.tryAll (trie : Trie) (tried : List Rule) : Trie :=
  tried.foldl (fun trie rule => (trie.insert pathText rule).1) trie

variable {pathText}

theorem tryAll_closed (memberships : Memberships) (tried : List Rule) :
    Closed (Trie.tryAll pathText ⟨∅, memberships⟩ tried).nodes ∧
      ([] ∈ (Trie.tryAll pathText ⟨∅, memberships⟩ tried).nodes ↔ tried ≠ []) := by
  have run (rules : List Rule) : ∀ (done : Trie), Closed done.nodes →
      Closed (done.tryAll pathText rules).nodes ∧
        (([] ∈ done.nodes ∨ rules ≠ []) → [] ∈ (done.tryAll pathText rules).nodes) := by
    induction rules with
    | nil => exact fun done closed => ⟨closed, fun rooted => rooted.resolve_right fun some => some rfl⟩
    | cons rule rules ih =>
      intro done closed
      obtain ⟨closed', rooted'⟩ := closed.insert pathText rule
      obtain ⟨last, rooted⟩ := ih _ closed'
      exact ⟨last, fun _ => rooted (Or.inl rooted')⟩
  obtain ⟨closed, rooted⟩ := run tried ⟨∅, memberships⟩ nofun
  refine ⟨closed, ?_, fun some => rooted (Or.inr some)⟩
  rintro present rfl
  cases present

end Insert

end Lemming.Acl

import Lemming.Acl.Growth

set_option autoImplicit false

namespace Lemming.Acl

open Shared

section Answers

variable (comparePaths : Path → Path → CompareRelation)

def Trie.Answers (trie : Trie) (path : Path) (user : Text) (mode : Mode) (r : Outcome Action) : Prop :=
  ∃ (orders : Orders trie) (n : Nat), ∀ fuel ≥ n, trie.probe comparePaths fuel orders path user mode = r

variable {comparePaths} {trie : Trie} {nodes' : Nodes} {path : Path} {user : Text} {mode : Mode}
  {groups : NodeKey → Shuffle (Σ _ : Text, Action)} {key : NodeKey}

section

variable (wider : Extends trie.nodes nodes')
include wider

theorem Extends.mem (present : key ∈ trie.nodes) : key ∈ nodes' := by
  rw [← AList.lookup_isSome, wider.old key present]
  exact AList.lookup_isSome.mpr present

theorem Extends.pathOf
    (closed : Closed trie.nodes)
    (present : key ∈ trie.nodes) : pathOf nodes' key = pathOf trie.nodes key := by
  induction key using List.reverseRecOn with
  | nil => rfl
  | append_singleton above pathStr ih =>
    rw [pathOf_append, pathOf_append, ih (closed above pathStr present), elemAt, elemAt,
      wider.old _ present]

theorem Extends.visit
    (closed : Closed trie.nodes) :
    visit comparePaths nodes' trie.memberships groups user mode path = fun found key =>
      if decide (key ∈ trie.nodes) = true then
        visit comparePaths trie.nodes trie.memberships groups user mode path found key
      else found := by
  funext found key
  simp only [decide_eq_true_eq]
  split
  · rename_i present
    rw [Acl.visit, Acl.visit, wider.old key present, wider.pathOf closed present]
  · rename_i absent
    rw [Acl.visit]
    cases isNode : nodes'.lookup key with
    | none => rfl
    | some node => simp [wider.new key node absent isNode]

theorem Extends.probe (rooted : [] ∈ trie.nodes)
    (closed : Closed trie.nodes)
    (orders : Orders trie) (orders' : Orders { trie with nodes := nodes' })
    (order : ∀ key, orders.children key = (orders'.children key).filter (· ∈ trie.nodes))
    (walk : orders.walkGroups = orders'.walkGroups) (final : orders.finalGroups = orders'.finalGroups)
    (comparePaths : Path → Path → CompareRelation) (path : Path) (user : Text) (mode : Mode) :
    ∃ r n, ∀ fuel ≥ n, trie.probe comparePaths fuel orders path user mode = r ∧
      Trie.probe comparePaths { trie with nodes := nodes' } fuel orders' path user mode = r := by
  obtain ⟨visited, visits'⟩ := orders'.visits_exist (enters comparePaths nodes' path)
  have visits : Visits (fun key => (orders.children key).reverse) (enters comparePaths trie.nodes path)
      ([[]].filter (· ∈ trie.nodes)) (visited.filter (· ∈ trie.nodes)) := by
    refine visits'.filter _ ?_ ?_ ?_
    · intro key _
      simp only [order key, List.filter_reverse]
    · intro key absent child member
      obtain ⟨-, pathStr, rfl⟩ := mem_children.mp (orders'.known (List.mem_reverse.mp member))
      rw [decide_eq_false_iff_not] at absent ⊢
      exact fun present => absent (closed key pathStr present)
    · intro key present
      rw [enters, enters, wider.pathOf closed (of_decide_eq_true present)]
  rw [show [[]].filter (· ∈ trie.nodes) = [[]] by simp [rooted]] at visits
  refine ⟨_, visited.length, fun fuel enough => ⟨probe_visits orders rooted visits
    (Nat.le_trans (List.length_filter_le _ _) enough), ?_⟩⟩
  rw [probe_visits orders' (wider.mem rooted) visits' enough, List.foldl_filter, walk, final,
    wider.visit closed]

theorem Extends.children (key : NodeKey) :
    ((nodes'.children key).filter (· ∈ trie.nodes)).Perm (trie.nodes.children key) := by
  have distinct (nodes : Nodes) : (nodes.children key).Nodup := nodes.keys_nodup.filter _
  refine (List.perm_ext_iff_of_nodup ((distinct nodes').filter _) (distinct _)).mpr fun child => ?_
  rw [List.mem_filter, mem_children, mem_children, decide_eq_true_eq]
  constructor
  · rintro ⟨⟨-, isChild⟩, present⟩
    exact ⟨present, isChild⟩
  · rintro ⟨present, isChild⟩
    exact ⟨⟨wider.mem present, isChild⟩, present⟩

theorem Extends.answers (rooted : [] ∈ trie.nodes)
    (closed : Closed trie.nodes) (r : Outcome Action) :
    trie.Answers comparePaths path user mode r ↔
      Trie.Answers comparePaths { trie with nodes := nodes' } path user mode r := by
  constructor
  · rintro ⟨orders, n, answer⟩
    -- The new children of a node come after the old ones.
    let orders' : Orders { trie with nodes := nodes' } :=
      { children := fun key => orders.children key ++ (nodes'.children key).filter (· ∉ trie.nodes)
        children_perm := fun key => by
          refine (((orders.children_perm key).trans (wider.children key).symm).append_right _).trans ?_
          simpa using List.filter_append_perm (fun child => decide (child ∈ trie.nodes)) (nodes'.children key)
        walkGroups := orders.walkGroups
        finalGroups := orders.finalGroups }
    have order (key : NodeKey) :
        orders.children key = (orders'.children key).filter (· ∈ trie.nodes) := by
      have old : (orders.children key).filter (· ∈ trie.nodes) = orders.children key :=
        List.filter_eq_self.mpr fun child member => by
          simpa using (mem_children.mp (orders.known member)).1
      simp [orders', old]
    obtain ⟨r', n', same⟩ :=
      wider.probe rooted closed orders orders' order rfl rfl comparePaths path user mode
    obtain rfl : r' = r := (same (n + n') (by omega)).1.symm.trans (answer (n + n') (by omega))
    exact ⟨orders', n', fun fuel enough => (same fuel enough).2⟩
  · rintro ⟨orders', n, answer⟩
    let orders : Orders trie :=
      { children := fun key => (orders'.children key).filter (· ∈ trie.nodes)
        children_perm := fun key => ((orders'.children_perm key).filter _).trans (wider.children key)
        walkGroups := orders'.walkGroups
        finalGroups := orders'.finalGroups }
    obtain ⟨r', n', same⟩ :=
      wider.probe rooted closed orders orders' (fun _ => rfl) rfl rfl comparePaths path user mode
    obtain rfl : r' = r := (same (n + n') (by omega)).2.symm.trans (answer (n + n') (by omega))
    exact ⟨orders, n', fun fuel enough => (same fuel enough).1⟩

end

end Answers

section Refusal

variable {pathText : Path → String} {trie : Trie} {rule : Rule} {message : String}

theorem insert_refused (rooted : [] ∈ trie.nodes)
    (refused : (trie.insert pathText rule).2 = .error message) :
    ∃ nodes', (trie.insert pathText rule).1 = { trie with nodes := nodes' } ∧
      Extends trie.nodes nodes' := by
  have kept : trie.nodes.root = trie.nodes := if_pos rooted
  rw [Trie.insert] at refused ⊢
  simp only [kept] at refused ⊢
  split
  · exact ⟨_, rfl, .refl _⟩
  split
  · exact ⟨_, rfl, .refl _⟩
  split
  · exact ⟨_, rfl, .refl _⟩
  split
  · exact ⟨_, rfl, .refl _⟩
  rename_i specified known moded named
  rw [if_neg specified, if_neg known, if_neg moded, if_neg named] at refused
  split
  · exact ⟨_, rfl, .refl _⟩
  rename_i path isPath
  rw [isPath] at refused
  have wider : Extends trie.nodes (descend path [] trie.nodes).1 :=
    (descend_keeps (P := Extends trie.nodes) (fun _ _ _ _ wider _ _ fresh => wider.add fresh) rooted
      (.refl _)).1
  split
  · exact ⟨_, rfl, wider⟩
  rename_i target isTarget
  simp only [isTarget] at refused
  split
  · exact ⟨_, rfl, wider⟩
  rename_i node isNode
  simp only [isNode] at refused
  split
  · exact ⟨_, rfl, wider⟩
  · rename_i inserted
    simp only [inserted] at refused
    cases refused

theorem refused_keeps_answers (comparePaths : Path → Path → CompareRelation) (memberships : Memberships)
    (tried : List Rule) (nonempty : tried ≠ []) (rule : Rule) (message : String)
    (refused : ((Trie.tryAll pathText ⟨∅, memberships⟩ tried).insert pathText rule).2 = .error message)
    (path : Path) (user : Text) (mode : Mode) (r : Outcome Action) :
    (Trie.tryAll pathText ⟨∅, memberships⟩ tried).Answers comparePaths path user mode r ↔
      ((Trie.tryAll pathText ⟨∅, memberships⟩ tried).insert pathText rule).1.Answers comparePaths path
        user mode r := by
  obtain ⟨closed, rooted⟩ := tryAll_closed memberships tried
  obtain ⟨nodes', isAfter, wider⟩ := insert_refused (rooted.mpr nonempty) refused
  rw [isAfter]
  exact wider.answers (rooted.mpr nonempty) closed r

def openRule : Rule := ⟨some [], .user ['u'], .read, .permit⟩

def starRule : Rule := ⟨some [⟨['a'], ∅⟩, ⟨wildcard, ∅⟩], .user ['u'], .write, .deny⟩

theorem refused_keeps_star :
    let trie := Trie.tryAll (fun _ => "") ⟨∅, ∅⟩ [openRule]
    (trie.insert (fun _ => "") starRule).2 = .error "wildcard path names are not permitted" ∧
      ∀ path user mode r, trie.Answers comparePlain path user mode r ↔
        (trie.insert (fun _ => "") starRule).1.Answers comparePlain path user mode r :=
  ⟨rfl, refused_keeps_answers _ _ [openRule] (List.cons_ne_nil _ _) _ _ rfl⟩

end Refusal

end Lemming.Acl

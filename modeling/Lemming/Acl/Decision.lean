import Lemming.Acl.Contents

set_option autoImplicit false

namespace Lemming.Acl

open Shared

section Applies

-- The rule is for the mode, and for the user or a group of the user.
def Rule.IsFor (rule : Rule) (policy : Policy) (user : Text) (mode : Mode) : Prop :=
  rule.mode = mode ∧ (rule.principal = .user user ∨
    ∃ group ∈ policy.groups, rule.principal = .group group.name ∧ user ∈ group.users)

variable (comparePaths : Path → Path → CompareRelation) (policy : Policy) (path : Path) (user : Text)
  (mode : Mode)

def Applies (rule : Rule) : Prop :=
  rule.IsFor policy user mode ∧ ∃ rulePath, rule.path = some rulePath ∧ Matches comparePaths path rulePath

-- Elements that print alike share a node, and the node keeps the first of them. The walk comes to the
-- node of a rule if the path is below each of the nodes on the way.
def Taken (rule : Rule) : Prop :=
  rule.IsFor policy user mode ∧ ∃ rulePath, rule.path = some rulePath ∧
    ∀ i, Matches comparePaths path (keptPath policy.rules ((pathStrs rulePath).take i))

def Grants (act : Action) : Prop :=
  ∃ rule ∈ policy.rules, Taken comparePaths policy path user mode rule ∧ rule.action = act

def NoneApplies : Prop :=
  ∀ rule ∈ policy.rules, ¬ Applies comparePaths policy path user mode rule

-- No permit comes from a rule that the walk takes where no rule applies.
def Sound (comparePaths : Path → Path → CompareRelation) (policy : Policy) : Prop :=
  ∀ path user mode, NoneApplies comparePaths policy path user mode →
    ¬ Grants comparePaths policy path user mode .permit

-- Every check comes to a permit or a deny, whatever the order of the maps, and to a deny if no rule
-- applies.
def Decides (trie : Trie) : Prop :=
  ∀ (orders : Orders trie) path user mode, ∃ act n, (act = .deny ∨ act = .permit) ∧
    (NoneApplies comparePaths policy path user mode → act = .deny) ∧
    ∀ fuel ≥ n, trie.probe comparePaths fuel orders path user mode = .ok act

end Applies

section Memberships

theorem has_addUser {memberships : Memberships} {group other : Text} {user name : Text} :
    (addUser group memberships user).has other name = true ↔
      memberships.has other name = true ∨ other = group ∧ name = user := by
  rw [Memberships.has, addUser]
  by_cases same : other = group
  · subst same
    simp only [AList.lookup_insert, true_and]
    by_cases isUser : name = user
    · subst isUser
      simp
    · rw [AList.lookup_insert_ne isUser, Memberships.has]
      cases known : memberships.lookup other <;> simp [isUser]
  · rw [AList.lookup_insert_ne same, ← Memberships.has]
    simp [same]

theorem has_addGroup {memberships : Memberships} {group : Group} {name user : Text} :
    (addGroup memberships group).has name user = true ↔
      memberships.has name user = true ∨ group.name = name ∧ user ∈ group.users := by
  have users (known : List Text) : ∀ {memberships : Memberships},
      (known.foldl (addUser group.name) memberships).has name user = true ↔
        memberships.has name user = true ∨ group.name = name ∧ user ∈ known := by
    induction known with
    | nil => simp
    | cons first rest ih =>
      intro memberships
      rw [List.foldl_cons, ih, has_addUser, or_assoc, List.mem_cons, and_or_left,
        @eq_comm _ name group.name]
  rw [addGroup, users]
  refine or_congr_left ?_
  split
  · rfl
  · rename_i absent
    rw [Memberships.has, Memberships.has]
    by_cases same : name = group.name
    · subst same
      rw [AList.lookup_insert, AList.lookup_eq_none.mpr absent]
      simp
    · rw [AList.lookup_insert_ne same]

theorem has_addGroups {groups : List Group} {name user : Text} :
    (groups.foldl addGroup ∅).has name user = true ↔ ∃ g ∈ groups, g.name = name ∧ user ∈ g.users := by
  have from' : ∀ {memberships : Memberships}, (groups.foldl addGroup memberships).has name user = true ↔
      memberships.has name user = true ∨ ∃ g ∈ groups, g.name = name ∧ user ∈ g.users := by
    induction groups with
    | nil => simp
    | cons first rest ih =>
      intro memberships
      rw [List.foldl_cons, ih, has_addGroup, or_assoc, List.exists_mem_cons_iff]
  rw [from']
  exact or_iff_right nofun

end Memberships

section Actions

variable {memberships : Memberships} {user : Text} {mode : Mode}
  {groups : NodeKey → Shuffle (Σ _ : Text, Action)}

-- The user itself, or a group that has the user.
def Stands (memberships : Memberships) (user : Text) (principal : Principal) : Prop :=
  principal = .user user ∨ ∃ group, principal = .group group ∧ memberships.has group user = true

theorem groupAction_cases {entries : List (Σ _ : Text, Action)} : ∀ act,
    (∃ entry ∈ entries, memberships.has entry.1 user = true ∧
        groupAction memberships user act entries = entry.2) ∨
      (∀ entry ∈ entries, memberships.has entry.1 user = false) ∧
        groupAction memberships user act entries = act := by
  induction entries with
  | nil => exact fun act => Or.inr ⟨nofun, rfl⟩
  | cons entry rest ih =>
    intro act
    rw [groupAction]
    cases has : memberships.has entry.1 user with
    | false =>
      rw [if_neg (by simp)]
      refine (ih act).imp ?_ ?_
      · rintro ⟨other, mem, isMember⟩
        exact ⟨other, List.mem_cons_of_mem _ mem, isMember⟩
      · rintro ⟨nobody, same⟩
        exact ⟨List.forall_mem_cons.mpr ⟨has, nobody⟩, same⟩
    | true =>
      refine Or.inl ?_
      rw [if_pos rfl]
      split
      · rename_i isDeny
        exact ⟨entry, List.mem_cons_self, has, isDeny.symm⟩
      · rcases ih entry.2 with ⟨other, mem, isMember⟩ | ⟨-, same⟩
        · exact ⟨other, List.mem_cons_of_mem _ mem, isMember⟩
        · exact ⟨entry, List.mem_cons_self, has, same⟩

theorem getAction_cases (node : TrieNode) (memberships : Memberships) (user : Text) (mode : Mode)
    (order : Shuffle (Σ _ : Text, Action)) :
    (∃ principal, Stands memberships user principal ∧
        node.find mode principal = some (node.getAction order user mode memberships).1) ∨
      (∀ principal, Stands memberships user principal → node.find mode principal = none) ∧
        (node.getAction order user mode memberships).1 = .unspecified := by
  cases isUser : node.users.find mode user with
  | some act =>
    refine Or.inl ⟨.user user, Or.inl rfl, isUser.trans ?_⟩
    rw [Policies.find] at isUser
    rw [TrieNode.getAction, isUser]
  | none =>
    have isAction : (node.getAction order user mode memberships).1 =
        groupAction memberships user .unspecified
          (order.arrange ((node.groups.lookup mode).getD ∅).entries) := by
      rw [Policies.find] at isUser
      rw [TrieNode.getAction, isUser]
    have isFind (group : Text) (act : Action) : node.find mode (.group group) = some act ↔
        ⟨group, act⟩ ∈ ((node.groups.lookup mode).getD ∅).entries := by
      rw [TrieNode.find, Policies.find, ← List.mem_dlookup_iff ((node.groups.lookup mode).getD ∅).nodupKeys]
      cases AList.lookup mode node.groups <;> rfl
    rw [isAction]
    refine (groupAction_cases .unspecified).imp ?_ (And.imp_left ?_)
    · rintro ⟨⟨group, act⟩, mem, has, isAct⟩
      refine ⟨.group group, Or.inr ⟨group, rfl, has⟩, ?_⟩
      rw [isAct]
      exact (isFind group act).mpr ((order.mem_arrange _ _).mp mem)
    · rintro nobody principal (rfl | ⟨group, rfl, has⟩)
      · exact isUser
      · cases found : node.find mode (.group group) with
        | none => rfl
        | some act =>
          have absent := nobody ⟨group, act⟩ ((order.mem_arrange _ _).mpr ((isFind group act).mp found))
          rw [has] at absent
          cases absent

theorem mostSpecificPolicies_subset {policies : List (NodeKey × TrieNode)} : ∀ {maxSetKeys : Int},
    mostSpecificPolicies maxSetKeys policies ⊆ policies := by
  induction policies with
  | nil => exact @fun _ => List.Subset.refl _
  | cons p rest ih =>
    intro maxSetKeys
    rw [mostSpecificPolicies]
    split
    · exact List.cons_subset_cons p ih
    · exact List.subset_cons_of_subset p ih

theorem finalLoop_cases {policies : List (NodeKey × TrieNode)} : ∀ {act : Action},
    (∃ p ∈ policies, finalLoop memberships groups user mode act policies =
        (p.2.getAction (groups p.1) user mode memberships).1) ∨
      (policies = [] ∨ act = .deny) ∧ finalLoop memberships groups user mode act policies = act := by
  induction policies with
  | nil => exact Or.inr ⟨Or.inl rfl, rfl⟩
  | cons p rest ih =>
    intro act
    have later {next : Action} (isHere : next = (p.2.getAction (groups p.1) user mode memberships).1) :
        ∃ q ∈ p :: rest, finalLoop memberships groups user mode next rest =
          (q.2.getAction (groups q.1) user mode memberships).1 := by
      rcases @ih next with ⟨q, mem, isAct⟩ | ⟨-, same⟩
      · exact ⟨q, List.mem_cons_of_mem _ mem, isAct⟩
      · exact ⟨p, List.mem_cons_self, same.trans isHere⟩
    rw [finalLoop]
    simp only
    split
    · exact Or.inl ⟨p, List.mem_cons_self, rfl⟩
    split
    · exact Or.inl (later rfl)
    split
    · exact Or.inl (later rfl)
    · rename_i denied
      refine (@ih act).imp ?_ (And.imp_left fun _ => Or.inr (not_not.mp denied))
      rintro ⟨q, mem, isAct⟩
      exact ⟨q, List.mem_cons_of_mem _ mem, isAct⟩

theorem conclude_cases (found : Matching) :
    (∃ p ∈ found.policies, conclude memberships groups user mode found =
        (p.2.getAction (groups p.1) user mode memberships).1) ∨
      found.policies = [] ∧ conclude memberships groups user mode found = .deny := by
  rw [conclude]
  split
  · rename_i none
    exact Or.inr ⟨List.length_eq_zero_iff.mp none, rfl⟩
  · rename_i some
    refine Or.inl ?_
    rcases @finalLoop_cases memberships user mode groups (mostSpecificPolicies (-1) found.policies)
      .unspecified with ⟨p, mem, isAct⟩ | ⟨none | isDeny, -⟩
    · exact ⟨p, mostSpecificPolicies_subset mem, isAct⟩
    · cases isPolicies : found.policies with
      | nil => exact absurd (congrArg List.length isPolicies) some
      | cons p rest =>
        rw [isPolicies, mostSpecificPolicies, if_pos (by omega)] at none
        cases none
    · cases isDeny

end Actions

section Walk

variable {comparePaths : Path → Path → CompareRelation} {trie : Trie}
  {groups : NodeKey → Shuffle (Σ _ : Text, Action)} {user : Text} {mode : Mode} {path : Path}
  {visited : List NodeKey}

theorem mem_visit {key : NodeKey} {found : Matching} {p : NodeKey × TrieNode}
    (mem : p ∈ (visit comparePaths trie.nodes trie.memberships groups user mode path found key).policies) :
    p ∈ found.policies ∨ p.1 = key ∧ trie.nodes.lookup p.1 = some p.2 ∧
      Matches comparePaths path (pathOf trie.nodes p.1) ∧
      (p.2.getAction (groups p.1) user mode trie.memberships).1 ≠ .unspecified := by
  rw [visit] at mem
  split at mem
  · exact Or.inl mem
  rename_i node isNode
  split at mem
  · rename_i acts
    rcases List.mem_append.mp mem with old | new
    · refine Or.inl ?_
      split at old
      · cases old
      · exact old
    · cases List.mem_singleton.mp new
      exact Or.inr ⟨rfl, isNode, acts.1, acts.2.2⟩
  · exact Or.inl mem

theorem visit_found : ∀ {found : Matching},
    ∀ p ∈ (visited.foldl (visit comparePaths trie.nodes trie.memberships groups user mode path)
      found).policies, p ∈ found.policies ∨ p.1 ∈ visited ∧ trie.nodes.lookup p.1 = some p.2 ∧
        Matches comparePaths path (pathOf trie.nodes p.1) ∧
        (p.2.getAction (groups p.1) user mode trie.memberships).1 ≠ .unspecified := by
  induction visited with
  | nil => exact fun p mem => Or.inl mem
  | cons key rest ih =>
    intro found p mem
    rcases ih p mem with before | ⟨later, holds⟩
    · rcases mem_visit before with old | ⟨rfl, holds⟩
      · exact Or.inl old
      · exact Or.inr ⟨List.mem_cons_self, holds⟩
    · exact Or.inr ⟨List.mem_cons_of_mem _ later, holds⟩

-- What is found is only ever given up for something longer.
theorem found_of_visited {key : NodeKey} {node : TrieNode} (isNode : trie.nodes.lookup key = some node)
    (isMatch : Matches comparePaths path (pathOf trie.nodes key)) (hasPolicy : node.hasPolicy = true)
    (acts : (node.getAction (groups key) user mode trie.memberships).1 ≠ .unspecified) :
    ∀ {found : Matching}, found.policies ≠ [] ∨ key ∈ visited →
      (visited.foldl (visit comparePaths trie.nodes trie.memberships groups user mode path)
        found).policies ≠ [] := by
  induction visited with
  | nil => exact fun some => some.resolve_right nofun
  | cons first rest ih =>
    intro found some
    refine ih ?_
    by_cases later : key ∈ rest
    · exact Or.inr later
    refine Or.inl ?_
    rw [visit]
    rcases some with some | here
    · split
      · exact some
      split
      · exact List.append_ne_nil_of_right_ne_nil _ (List.cons_ne_nil _ _)
      · exact some
    · obtain rfl := (List.mem_cons.mp here).resolve_right later
      rw [isNode]
      simp only
      rw [if_pos ⟨isMatch, hasPolicy, acts⟩]
      exact List.append_ne_nil_of_right_ne_nil _ (List.cons_ne_nil _ _)

variable {orders : Orders trie}

theorem visited_above (visits : Visits (fun key => (orders.children key).reverse)
    (enters comparePaths trie.nodes path) [[]] visited) {key : NodeKey} (isVisited : key ∈ visited)
    (isMatch : Matches comparePaths path (pathOf trie.nodes key)) (i : Nat) :
    Matches comparePaths path (pathOf trie.nodes (key.take i)) := by
  induction key using List.reverseRecOn with
  | nil => rwa [List.take_nil]
  | append_singleton above pathStr ih =>
    by_cases whole : (above ++ [pathStr]).length ≤ i
    · rwa [List.take_of_length_le whole]
    have inside : i ≤ above.length := by
      rw [List.length_append, List.length_singleton] at whole
      omega
    rw [List.take_append_of_le_length inside]
    rcases visits.reached _ isVisited with root | ⟨parent, parentVisited, entered, isChild⟩
    · exact absurd (List.mem_singleton.mp root) (by simp)
    · obtain ⟨-, label, same⟩ := mem_children.mp (orders.known (List.mem_reverse.mp isChild))
      obtain ⟨rfl, -⟩ := List.append_inj' same rfl
      exact ih parentVisited (of_decide_eq_true entered)

theorem visited_of_above (visits : Visits (fun key => (orders.children key).reverse)
    (enters comparePaths trie.nodes path) [[]] visited) {key : NodeKey}
    (present : ∀ i, key.take i ∈ trie.nodes)
    (isMatch : ∀ i, Matches comparePaths path (pathOf trie.nodes (key.take i))) : key ∈ visited := by
  have on (i : Nat) : key.take i ∈ visited := by
    induction i with
    | zero => exact visits.complete.1 _ (List.mem_singleton.mpr rfl)
    | succ i ih =>
      by_cases inside : i < key.length
      · refine visits.complete.2 _ ih (decide_eq_true (isMatch i)) _ (List.mem_reverse.mpr ?_)
        refine (orders.children_perm _).mem_iff.mpr (mem_children.mpr ⟨present (i + 1), key.get ⟨i, inside⟩, ?_⟩)
        exact List.take_succ_eq_append_getElem inside
      · rw [List.take_of_length_le (by omega)] at ih ⊢
        exact ih
  have whole := on key.length
  rwa [List.take_length] at whole

end Walk

section Decides

variable {comparePaths : Path → Path → CompareRelation} {policy : Policy} {trie : Trie} {user : Text}
  {mode : Mode} {path : Path}

theorem stands_iff (isMembers : trie.memberships = policy.groups.foldl addGroup ∅) {rule : Rule}
    (isMode : rule.mode = mode) :
    rule.IsFor policy user mode ↔ Stands trie.memberships user rule.principal := by
  rw [Rule.IsFor, Stands, isMembers]
  refine (and_iff_right isMode).trans (or_congr_right ?_)
  constructor
  · rintro ⟨group, mem, isGroup, isUser⟩
    exact ⟨group.name, isGroup, has_addGroups.mpr ⟨group, mem, rfl, isUser⟩⟩
  · rintro ⟨name, isGroup, has⟩
    obtain ⟨group, mem, rfl, isUser⟩ := has_addGroups.mp has
    exact ⟨group, mem, isGroup, isUser⟩

-- A check denies because the walk took no rule, or gives the action of a rule it took.
theorem Kept.specified (kept : Kept policy.rules trie.nodes) {key : NodeKey} {node : TrieNode}
    {principal : Principal} (isNode : trie.nodes.lookup key = some node) :
    node.find mode principal ≠ some .unspecified := by
  intro found
  obtain ⟨other, mem, -, -, isAction, -⟩ := (kept.acts key mode principal _).mp
    (Option.bind_eq_some_iff.mpr ⟨node, isNode, found⟩)
  rcases kept.settled other mem with isDeny | isPermit
  · cases isAction.symm.trans isDeny
  · cases isAction.symm.trans isPermit

theorem Kept.concludes (kept : Kept policy.rules trie.nodes)
    (isMembers : trie.memberships = policy.groups.foldl addGroup ∅) (orders : Orders trie) (user : Text)
    (mode : Mode) {visited : List NodeKey} (visits : Visits (fun key => (orders.children key).reverse)
      (enters comparePaths trie.nodes path) [[]] visited) {act : Action}
    (isAct : conclude trie.memberships orders.finalGroups user mode (visited.foldl
      (visit comparePaths trie.nodes trie.memberships orders.walkGroups user mode path) ⟨[], 0⟩) = act) :
    Grants comparePaths policy path user mode act ∨
      act = .deny ∧ ∀ rule ∈ policy.rules, ¬ Taken comparePaths policy path user mode rule := by
  rcases @conclude_cases trie.memberships user mode orders.finalGroups (visited.foldl
      (visit comparePaths trie.nodes trie.memberships orders.walkGroups user mode path) ⟨[], 0⟩)
    with ⟨p, mem, isFinal⟩ | ⟨none, isDeny⟩
  · refine Or.inl ?_
    obtain ⟨isVisited, isNode, isMatch, specified⟩ := (visit_found p mem).resolve_left nofun
    have someone := (getAction_cases p.2 trie.memberships user mode (orders.walkGroups p.1)).resolve_right
      fun nobody => specified nobody.2
    obtain ⟨principal, stands, isFind⟩ :=
      (getAction_cases p.2 trie.memberships user mode (orders.finalGroups p.1)).resolve_right fun nobody => by
        obtain ⟨principal, stands, isFind⟩ := someone
        rw [nobody.1 principal stands] at isFind
        cases isFind
    have isHere : trie.nodes.find p.1 mode principal = some act := by
      rw [Nodes.find, isNode, ← isAct, isFinal]
      exact isFind
    obtain ⟨rule, isRule, isMode, rfl, rfl, isKey⟩ := (kept.acts p.1 mode principal act).mp isHere
    obtain ⟨rulePath, isPath, strs⟩ := Option.map_eq_some_iff.mp isKey
    refine ⟨rule, isRule, ⟨(stands_iff isMembers isMode).mpr stands, rulePath, isPath, fun i => ?_⟩, rfl⟩
    rw [strs, ← kept.pathOf_eq]
    exact visited_above visits isVisited isMatch i
  · refine Or.inr ⟨isAct.symm.trans isDeny, ?_⟩
    rintro rule isRule ⟨isFor, rulePath, isPath, isMatch⟩
    have isHere := (kept.acts (pathStrs rulePath) mode rule.principal rule.action).mpr
      ⟨rule, isRule, isFor.1, rfl, rfl, by rw [isPath]; rfl⟩
    obtain ⟨node, isNode, isFind⟩ := Option.bind_eq_some_iff.mp isHere
    simp only [← kept.pathOf_eq] at isMatch
    refine found_of_visited isNode ?_ (kept.marked _ node mode _ _ isNode isFind) ?_
      (Or.inr (visited_of_above visits (kept.above isRule isPath) isMatch)) none
    · have whole := isMatch (pathStrs rulePath).length
      rwa [List.take_length] at whole
    · rcases getAction_cases node trie.memberships user mode (orders.walkGroups (pathStrs rulePath))
        with ⟨principal, -, found⟩ | ⟨nobody, -⟩
      · exact fun unspecified => kept.specified isNode (unspecified ▸ found)
      · rw [nobody _ ((stands_iff isMembers isFor.1).mp isFor)] at isFind
        cases isFind

theorem Kept.decides (kept : Kept policy.rules trie.nodes)
    (isMembers : trie.memberships = policy.groups.foldl addGroup ∅) (someRule : policy.rules ≠ [])
    (sound : Sound comparePaths policy) :
    Decides comparePaths policy trie := by
  intro orders path user mode
  obtain ⟨visited, visits⟩ := orders.visits_exist (enters comparePaths trie.nodes path)
  have concludes := kept.concludes isMembers orders user mode visits rfl
  have settled := concludes.elim (fun ⟨rule, isRule, _, isAct⟩ => isAct ▸ kept.settled rule isRule)
    fun isDeny => Or.inl isDeny.1
  refine ⟨_, visited.length, settled, fun none => settled.resolve_right fun isPermit => ?_,
    fun fuel enough => probe_visits orders (kept.root.mpr someRule) visits enough⟩
  rw [isPermit] at concludes
  rcases concludes with granted | ⟨isDeny, -⟩
  · exact sound path user mode none granted
  · cases isDeny

theorem Kept.of_decides (root : ∃ path, Matches comparePaths path []) (kept : Kept policy.rules trie.nodes)
    (isMembers : trie.memberships = policy.groups.foldl addGroup ∅)
    (decides : Decides comparePaths policy trie) :
    policy.rules ≠ [] ∧ ∀ path user mode, NoneApplies comparePaths policy path user mode →
      Grants comparePaths policy path user mode .permit →
        Grants comparePaths policy path user mode .deny := by
  let orders : Orders trie := ⟨trie.nodes.children, fun _ => .refl _, fun _ => .id, fun _ => .id⟩
  have someRule : policy.rules ≠ [] := by
    intro noRule
    have rootless : trie.nodes.lookup [] = none :=
      AList.lookup_eq_none.mpr fun present => kept.root.mp present noRule
    obtain ⟨path, isMatch⟩ := root
    obtain ⟨act, n, -, -, answers⟩ := decides orders path [] .read
    have crash : trie.probe comparePaths (n + 1) orders path [] .read = .panic := by
      have inside : ¬ (comparePaths path [] ≠ .equal ∧ comparePaths path [] ≠ .subset) := by
        rintro ⟨notEqual, notSubset⟩
        exact isMatch.elim notEqual notSubset
      rw [Trie.probe, walkLoop, rootless, nextPath, Outcome.ok_bind, probeWalkFn, if_neg inside]
      rfl
    cases crash.symm.trans (answers (n + 1) (Nat.le_succ n))
  refine ⟨someRule, fun path user mode none granted => ?_⟩
  obtain ⟨act, n, -, denies, answers⟩ := decides orders path user mode
  obtain ⟨visited, visits⟩ := orders.visits_exist (enters comparePaths trie.nodes path)
  have probed : trie.probe comparePaths (max n visited.length) orders path user mode = .ok _ :=
    probe_visits orders (kept.root.mpr someRule) visits (Nat.le_max_right n visited.length)
  rw [answers _ (Nat.le_max_left _ _), denies none] at probed
  rcases kept.concludes isMembers orders user mode visits (Outcome.ok.inj probed).symm with isDeny | ⟨-, nobody⟩
  · exact isDeny
  · obtain ⟨rule, isRule, taken, -⟩ := granted
    exact absurd taken (nobody rule isRule)

-- Where each rule finds its own elements in its nodes, the rules taken are those that apply.
theorem sound_of_own (own : ∀ rule ∈ policy.rules, ∀ rulePath, rule.path = some rulePath →
    keptPath policy.rules (pathStrs rulePath) = rulePath) : Sound comparePaths policy := by
  rintro path user mode none ⟨rule, isRule, ⟨isFor, rulePath, isPath, isMatch⟩, -⟩
  refine none rule isRule ⟨isFor, rulePath, isPath, ?_⟩
  have whole := isMatch (pathStrs rulePath).length
  rwa [List.take_length, own rule isRule rulePath isPath] at whole

end Decides

end Lemming.Acl

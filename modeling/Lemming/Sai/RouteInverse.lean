import Lemming.Sai.Route

set_option autoImplicit false

namespace Lemming.Sai

open Packet Shared Forwarding
open Lemming.Flow (PacketFieldMaskedBytes)
open Prefix (newPrefixKey)

def fibDesc : List FieldID :=
  [newFieldIDFromNum PacketFieldNum.packetVrf 0, newFieldIDFromNum PacketFieldNum.ipAddrDst 0]

def exactDesc (field : Int32) : List FieldID :=
  [newFieldIDFromNum field 0]

def switchTables : Context where
  tables id :=
    if id = FIBV4Table ∨ id = FIBV6Table then
      some (.prefixTable { desc := fibDesc, actions := [.drop], tree := Prefix.Table.empty })
    else if id = trapTableID then some (.flowTable (Flow.Table.build 1 []))
    else if id = NHTable then
      some (.exactTable (Exact.Table.new (exactDesc PacketFieldNum.nextHopId) [.drop] 0))
    else if id = NHGTable then
      some (.exactTable (Exact.Table.new (exactDesc PacketFieldNum.nextHopGroupId) [.drop] 0))
    else none

def Intact (id : String) : Table → Prop
  | .prefixTable table =>
    id = FIBV4Table ∨ id = FIBV6Table → table.tree.Valid ∧ table.desc = fibDesc
  | .flowTable table => id = trapTableID → table.Standing Parser.maxSize Flow.Table.Any
  | _ => True

def Provisioned (c : Context) : Prop :=
  ∀ id table, c.tables id = some table → Intact id table

theorem RouteEntry.fib_cases (entry : RouteEntry) :
    entry.fib = FIBV4Table ∨ entry.fib = FIBV6Table := by
  unfold fib
  split
  · exact Or.inl rfl
  · exact Or.inr rfl

theorem RouteEntry.fib_ne_trap (entry : RouteEntry) : trapTableID ≠ entry.fib := by
  rcases entry.fib_cases with same | same <;> rw [same] <;> decide +kernel

section Keys

variable {env : Env} {c : Context} {entry : RouteEntry} {table : Prefix.EntryTable Action}
  {key : Prefix.Key}

theorem Provisioned.fib (provisioned : Provisioned c)
    (present : c.tables entry.fib = some (.prefixTable table)) :
    table.tree.Valid ∧ table.desc = fibDesc :=
  provisioned _ _ present entry.fib_cases

theorem fib_key_nonempty {fields : List PacketFieldMaskedBytes} (desc : table.desc = fibDesc)
    (made : newPrefixKey env.texts table.desc fields = .ok key) : 0 < key.bitCount := by
  rw [desc] at made
  have bound := Prefix.newPrefixKey_bitCount made
  have size : Parser.maxSize (newFieldIDFromNum PacketFieldNum.packetVrf 0) = 8 := by decide +kernel
  omega

variable {id : String}

theorem Provisioned.setTable (provisioned : Provisioned c) {table : Table}
    (intact : Intact id table) : Provisioned (c.setTable id table) := by
  intro other there present
  by_cases same : other = id
  · subst same
    rw [Context.setTable_self, Option.some_inj] at present
    exact present ▸ intact
  · rw [Context.setTable_other c table same] at present
    exact provisioned other there present

theorem reported_whenever {α : Type} {P : α → Prop} {old : α} {outcome : Outcome α} (before : P old)
    (after : outcome.Whenever P) : (reported old outcome).Whenever fun r => P r.1 := by
  cases outcome with
  | ok value => exact .pure (after value rfl)
  | error message => exact .pure before
  | panic | diverge => rintro _ ⟨⟩

def KeysOnly (ed : EntryDesc) : Prop :=
  ∀ flow, ed = .flowEntry flow → flow.qualifiers = []

theorem Intact.addEntry {t : Table} (intact : Intact id t) (call : Call) {ed : EntryDesc}
    (keysOnly : KeysOnly ed) (ad : List ActionDesc) :
    (t.addEntry env call ed ad).Whenever fun r => Intact id r.1 := by
  cases t with
  | prefixTable table =>
    refine Outcome.Whenever.bind (reported_whenever (P := fun t => Intact id (.prefixTable t))
      intact ?_) fun r holds => .pure holds
    intro after added isFib
    obtain ⟨valid, desc⟩ := intact isFib
    obtain ⟨valid', desc', -⟩ :=
      (Prefix.EntryTable.addEntry_spec valid ed.prefix? _).whenever after added
    exact ⟨valid', desc'.trans desc⟩
  | flowTable table =>
    refine Outcome.Whenever.bind (P := fun r => Intact id (.flowTable r.1)) ?_
      fun r holds => .pure holds
    intro r added isTrap
    cases ed with
    | flowEntry flow =>
      exact (((intact isTrap).addEntry env.sets call.orders (keysOnly flow rfl) _).whenever r added).1
    | exactEntry desc | prefixEntry fields =>
      cases added
      exact intact isTrap
  | exactTable table => exact Outcome.Whenever.bind (.any _) fun _ _ => .pure trivial
  | actionTable => exact .pure trivial

theorem Intact.addEntries {t : Table} (intact : Intact id t) (call : Call)
    {entries : List (EntryDesc × List ActionDesc)} (keysOnly : ∀ entry ∈ entries, KeysOnly entry.1) :
    (t.addEntries env call entries).Whenever fun r => Intact id r.1 := by
  induction entries generalizing t with
  | nil => exact .pure intact
  | cons entry rest ih =>
    rw [Table.addEntries]
    refine (intact.addEntry call (keysOnly entry List.mem_cons_self) entry.2).bind ?_
    intro r holds
    obtain ⟨after, err⟩ := r
    cases err with
    | some err => exact .pure holds
    | none => exact ih holds fun other member => keysOnly other (List.mem_cons_of_mem entry member)

theorem Intact.removeEntry {t : Table} (intact : Intact id t) (ed : EntryDesc) :
    (t.removeEntry env ed).Whenever fun r => Intact id r.1 := by
  cases t with
  | prefixTable table =>
    refine Outcome.Whenever.bind (reported_whenever (P := fun t => Intact id (.prefixTable t))
      intact ?_) fun r holds => .pure holds
    intro after removed isFib
    obtain ⟨valid, desc⟩ := intact isFib
    cases ed with
    | prefixEntry fields =>
      cases made : newPrefixKey env.texts table.desc fields with
      | error err => simp [Prefix.EntryTable.removeEntry, EntryDesc.prefix?, made] at removed
      | ok key =>
        rcases Prefix.EntryTable.removeEntry_spec valid made (fib_key_nonempty desc made) with
          ⟨⟨message, failed⟩, -⟩ | ⟨left, isLeft, -, valid', desc', -⟩
        · exact absurd (failed.symm.trans removed) (by rintro ⟨⟩)
        · cases isLeft.symm.trans removed
          exact ⟨valid', desc'.trans desc⟩
    | exactEntry desc | flowEntry flow => cases removed
  | flowTable table =>
    refine Outcome.Whenever.bind (reported_whenever (P := fun t => Intact id (.flowTable t))
      intact ?_) fun r holds => .pure holds
    exact fun after removed isTrap => ((intact isTrap).removeEntry ed.flow?).whenever after removed
  | exactTable table => exact Outcome.Whenever.bind (.any _) fun _ _ => .pure trivial
  | actionTable => exact .pure trivial

-- The tables that are created besides those for routes: new flow tables, and tables of the other kinds,
-- whatever they hold.
def Beside : Table → Prop
  | .flowTable table => ∃ count actions, table = Flow.Table.build count actions
  | .prefixTable _ => False
  | _ => True

inductive Reached (env : Env) : Context → Prop
  | start : Reached env switchTables
  | create {c : Context} {id : String} {table : Table} :
    Reached env c → Beside table → Reached env (c.setTable id table)
  | add {c : Context} {id : String} {entries : List (EntryDesc × List ActionDesc)} {call : Call}
      {result : Context × Option String} :
    Reached env c → (∀ entry ∈ entries, KeysOnly entry.1) →
      c.tableEntryAdd env call id entries = .ok result → Reached env result.1
  | remove {c : Context} {id : String} {entry : EntryDesc} {result : Context × Option String} :
    Reached env c → c.tableEntryRemove env id entry = .ok result → Reached env result.1

theorem Reached.provisioned (reached : Reached env c) : Provisioned c := by
  induction reached with
  | start =>
    intro id table present
    unfold switchTables at present
    dsimp only at present
    split at present
    · cases present
      exact fun _ => ⟨Prefix.Table.empty_valid, rfl⟩
    split at present
    · cases present
      exact fun _ => Flow.Table.build_standing 1 []
    split at present
    · cases present
      exact trivial
    split at present
    · cases present
      exact trivial
    · cases present
  | @create c id table _ beside ih =>
    apply ih.setTable
    cases table with
    | flowTable flows =>
      obtain ⟨count, actions, rfl⟩ := beside
      exact fun _ => Flow.Table.build_standing count actions
    | prefixTable routes => exact beside.elim
    | exactTable entries | actionTable => exact trivial
  | @add c id entries call result _ keysOnly added ih =>
    unfold Context.tableEntryAdd at added
    split at added
    · cases added
      exact ih
    · next table present =>
      obtain ⟨r, isTable, added⟩ := Outcome.bind_eq_ok.mp added
      cases added
      exact ih.setTable (((ih id table present).addEntries call keysOnly) r isTable)
  | @remove c id entry result _ removed ih =>
    unfold Context.tableEntryRemove at removed
    split at removed
    · cases removed
      exact ih
    · next table present =>
      obtain ⟨r, isTable, removed⟩ := Outcome.bind_eq_ok.mp removed
      cases removed
      exact ih.setTable (((ih id table present).removeEntry entry) r isTable)

-- The forwarding table has a level for the prefix of a route. It may be there only because two longer
-- prefixes branch at it, or because a route that was the first of its kind left it behind.
def HasLevel (env : Env) (c : Context) (entry : RouteEntry) : Prop :=
  ∃ table key, c.tables entry.fib = some (.prefixTable table) ∧
    newPrefixKey env.texts table.desc entry.fibFields = .ok key ∧
    table.tree.hasLevel key.bits = true

end Keys

def CreateRouteEntryRequest.ToCpu (attrs : RouteAttrs) (req : CreateRouteEntryRequest) : Prop :=
  req.packetAction.forwards = true ∧ attrs.getType (toString req.nextHopId) = .port ∧
    attrs.cpuPort req.entry.switchId = .ok req.nextHopId

-- No table has the prefix of the route already. The trap table is looked at for the routes that are
-- written to it.
structure NotPresent (env : Env) (attrs : RouteAttrs) (c : Context) (req : CreateRouteEntryRequest) :
    Prop where
  fib : ∀ table key, c.tables req.entry.fib = some (.prefixTable table) →
    newPrefixKey env.texts table.desc req.entry.fibFields = .ok key →
    table.tree.stored key.bits = none
  trap : req.ToCpu attrs → ∀ table fd, c.tables trapTableID = some (.flowTable table) →
    Flow.newDesc req.entry.trapFlow.fields req.entry.trapFlow.qualifiers = .ok fd →
    Flow.Map.Absent fd (table.contents 0 0)

section Targets

variable {attrs : RouteAttrs} {req : CreateRouteEntryRequest} {actions : List ActionDesc}

theorem target_trap (isTrap : req.target attrs = .ok (.trap actions)) : req.ToCpu attrs := by
  unfold CreateRouteEntryRequest.target at isTrap
  split at isTrap
  · next forwards =>
    cases kind : attrs.getType (toString req.nextHopId) with
    | port =>
      simp only [kind] at isTrap
      split at isTrap
      · cases isTrap
      · next cpuPort cpu =>
        split at isTrap
        · next same => exact ⟨forwards, kind, same ▸ cpu⟩
        · cases isTrap
    | _ =>
      rw [kind] at isTrap
      cases isTrap
  · cases isTrap

theorem target_fib (isFib : req.target attrs = .ok (.fib actions)) : ¬ req.ToCpu attrs := by
  intro ⟨forwards, kind, cpu⟩
  unfold CreateRouteEntryRequest.target at isFib
  simp [forwards, kind, cpu] at isFib

end Targets

section Inverse

variable {env : Env} {call : Call} {attrs : RouteAttrs} {c c' c'' : Context}
  {req : CreateRouteEntryRequest}

theorem fib_route_restored (provisioned : Provisioned c) {actions : List ActionDesc}
    (isFib : req.target attrs = .ok (.fib actions))
    (created : createRouteEntry env call attrs c req = .ok (c', none))
    (absent : NotPresent env attrs c req)
    (removed : removeRouteEntry env c' req.entry = .ok (c'', none)) : c''.contents = c.contents := by
  unfold createRouteEntry at created
  rw [isFib] at created
  obtain ⟨t, t', present, entryAdded, rfl⟩ := Context.tableEntryAdd_ok created
  obtain ⟨table, table', rfl, rfl, added⟩ := Table.addEntry_prefix entryAdded
  obtain ⟨valid, desc⟩ := provisioned.fib present
  obtain ⟨valid', desc', fields, key, acts, isFields, made, -, stored'⟩ :=
    (Prefix.EntryTable.addEntry_spec valid (some req.entry.fibFields) _).whenever _ added
  cases isFields
  -- The second call finds the table that the first one left, and makes the same key.
  obtain ⟨u, u', present', entryRemoved, rfl⟩ := Context.tableEntryRemove_ok removed
  obtain ⟨again, table'', rfl, rfl, gone⟩ := Table.removeEntry_prefix entryRemoved
  rw [Context.setTable_self, Option.some_inj] at present'
  cases present'
  have nonempty := fib_key_nonempty desc made
  rw [← desc'] at made
  rcases Prefix.EntryTable.removeEntry_spec valid' made nonempty with
    ⟨⟨message, failed⟩, -⟩ | ⟨after, isAfter, -, -, -, stored''⟩
  · rw [failed] at gone
    cases gone
  · rw [isAfter] at gone
    cases gone
    have unheld : table.tree.stored key.bits = none := absent.fib table key present (desc' ▸ made)
    have whole : table''.tree.stored = table.tree.stored := by
      rw [stored'', stored', Function.update_idem, ← unheld, Function.update_eq_self]
    rw [Context.setTable_contents, Context.setTable_contents, Function.update_idem,
      Function.update_eq_self_iff, Context.contents, present]
    exact congrArg (fun stored => some (Contents.prefixes stored)) whole

theorem trap_route_stays (provisioned : Provisioned c) {actions : List ActionDesc}
    (isTrap : req.target attrs = .ok (.trap actions))
    (created : createRouteEntry env call attrs c req = .ok (c', none))
    (absent : NotPresent env attrs c req)
    (removed : removeRouteEntry env c' req.entry = .ok (c'', none)) : c''.contents ≠ c.contents := by
  unfold createRouteEntry at created
  rw [isTrap] at created
  obtain ⟨⟨c₁, err⟩, added, created⟩ := Outcome.bind_eq_ok.mp created
  cases err with
  | some err => cases created
  | none =>
    cases created
    obtain ⟨t, t', present, entryAdded, rfl⟩ := Context.tableEntryAdd_ok added
    obtain ⟨table, table', rfl, rfl, flowAdded⟩ := Table.addEntry_flow entryAdded
    obtain ⟨-, -, after⟩ := ((provisioned _ _ present rfl).addEntry env.sets call.orders rfl
      (newActions call.objects actions)).whenever _ flowAdded
    obtain ⟨fd, acts, built, -, contents⟩ := after rfl
    have grown := contents (absent.trap (target_trap isTrap) table fd present built)
    obtain ⟨u, u', -, -, rfl⟩ := Context.tableEntryRemove_ok removed
    intro same
    have there := congrFun same trapTableID
    rw [Context.setTable_contents, Function.update_of_ne req.entry.fib_ne_trap,
      Context.setTable_contents, Function.update_self, Context.contents, present] at there
    have flows : table'.contents = table.contents :=
      Contents.flows.inj (Option.some_inj.mp there)
    have longer := congrFun (congrFun (grown.symm.trans flows) 0) 0
    have sizes := congrArg List.length longer
    simp [RouteEntry.trapFlow] at sizes

theorem removeRouteEntry_hasLevel (provisioned : Provisioned c) :
    HasLevel env c req.entry ↔
      ∃ after, removeRouteEntry env c req.entry = .ok (after, none) := by
  constructor
  · rintro ⟨table, key, present, made, level⟩
    obtain ⟨valid, desc⟩ := provisioned.fib present
    rcases Prefix.EntryTable.removeEntry_spec valid made (fib_key_nonempty desc made) with
      ⟨-, missing⟩ | ⟨after, isAfter, -⟩
    · rw [missing] at level
      cases level
    · refine ⟨c.setTable req.entry.fib (.prefixTable after), ?_⟩
      unfold removeRouteEntry Context.tableEntryRemove Table.removeEntry
      simp only [present, EntryDesc.prefix?, isAfter, reported, Outcome.ok_bind, Outcome.pure_eq,
        Option.map_none]
      rfl
  · rintro ⟨after, removed⟩
    obtain ⟨t, t', present, removed, -⟩ := Context.tableEntryRemove_ok removed
    obtain ⟨table, table', rfl, -, removed⟩ := Table.removeEntry_prefix removed
    obtain ⟨valid, desc⟩ := provisioned.fib present
    cases made : newPrefixKey env.texts table.desc req.entry.fibFields with
    | error err => simp [Prefix.EntryTable.removeEntry, made] at removed
    | ok key =>
      rcases Prefix.EntryTable.removeEntry_spec valid made (fib_key_nonempty desc made) with
        ⟨⟨message, failed⟩, -⟩ | ⟨after, -, level, -⟩
      · rw [failed] at removed
        cases removed
      · exact ⟨table, key, present, made, level⟩

theorem keysOnly_singleton {ed : EntryDesc} (keysOnly : KeysOnly ed) (ad : List ActionDesc) :
    ∀ entry ∈ [(ed, ad)], KeysOnly entry.1 := by
  intro entry member
  rw [List.mem_singleton] at member
  exact member ▸ keysOnly

theorem Reached.createRouteEntry (reached : Reached env c) {err : Option String}
    (created : createRouteEntry env call attrs c req = .ok (c', err)) : Reached env c' := by
  unfold Sai.createRouteEntry at created
  split at created
  · cases created
    exact reached
  · next actions _ =>
    obtain ⟨r, added, created⟩ := Outcome.bind_eq_ok.mp created
    have next : Reached env r.1 := by
      refine .add reached (keysOnly_singleton ?_ actions) added
      rintro flow ⟨⟩
      rfl
    cases created
    exact next
  · next actions _ =>
    refine .add reached (keysOnly_singleton ?_ actions) created
    rintro flow ⟨⟩

theorem Reached.removeRouteEntry (reached : Reached env c) {entry : RouteEntry}
    {err : Option String} (removed : removeRouteEntry env c entry = .ok (c', err)) :
    Reached env c' :=
  .remove reached removed

theorem HasLevel.trap {t : Table} :
    HasLevel env (c.setTable trapTableID t) req.entry ↔ HasLevel env c req.entry := by
  unfold HasLevel
  rw [Context.setTable_other c t req.entry.fib_ne_trap.symm]

theorem route_restored_iff (reached : Reached env c)
    (created : createRouteEntry env call attrs c req = .ok (c', none))
    (absent : NotPresent env attrs c req) :
    (∀ c'', removeRouteEntry env c' req.entry = .ok (c'', none) → c''.contents = c.contents) ↔
      ¬ (req.ToCpu attrs ∧ HasLevel env c req.entry) := by
  have provisioned := reached.provisioned
  cases target : req.target attrs with
  | error err =>
    unfold createRouteEntry at created
    rw [target] at created
    cases created
  | ok destination =>
    cases destination with
    | fib actions =>
      exact iff_of_true (fun c'' removed =>
        fib_route_restored provisioned target created absent removed)
        fun both => target_fib target both.1
    | trap actions =>
      have stays := fun c'' => @trap_route_stays env call attrs c c' c'' req provisioned actions
        target created absent
      have next : Provisioned c' := (reached.createRouteEntry created).provisioned
      -- The trap table is none of those that the removal looks at.
      unfold createRouteEntry at created
      rw [target] at created
      obtain ⟨⟨c₁, err⟩, added, created⟩ := Outcome.bind_eq_ok.mp created
      cases err with
      | some err => cases created
      | none =>
        cases created
        obtain ⟨t, t', -, -, rfl⟩ := Context.tableEntryAdd_ok added
        rw [← HasLevel.trap, removeRouteEntry_hasLevel next]
        constructor
        · intro restores both
          obtain ⟨c'', removed⟩ := both.2
          exact stays c'' removed (restores c'' removed)
        · intro fails c'' removed
          exact absurd ⟨target_trap target, c'', removed⟩ fails

end Inverse

section Example

def plainEnv : Env where
  sets := fun _ => none
  isEqual := fun _ _ => false
  texts := { field := fun _ => "", group := fun _ => "", entry := fun _ => "" }
  exactText := fun _ => ""
  keyText := fun _ => ""
  exactEntryText := fun _ => ""

def plainCall : Call where
  now := 0
  orders := { fields := Shuffle.id, levels := Shuffle.id }
  objects := default

def tenSlashEight : RouteEntry where
  switchId := 1
  vrId := 2
  destination := { addr := [10, 0, 0, 0], mask := [255, 0, 0, 0] }

def dropTen : CreateRouteEntryRequest where
  entry := tenSlashEight
  packetAction := .drop
  nextHopId := 0

def cpuTen : CreateRouteEntryRequest where
  entry := tenSlashEight
  packetAction := .forward
  nextHopId := 7

def cpuAttrs : RouteAttrs where
  getType := fun _ => .port
  cpuPort := fun _ => .ok 7

def left : Outcome (Context × Option String) → Context
  | .ok result => result.1
  | _ => switchTables

def succeeds : Outcome (Context × Option String) → Bool
  | .ok (_, none) => true
  | _ => false

theorem eq_left {outcome : Outcome (Context × Option String)} (good : succeeds outcome = true) :
    outcome = .ok (left outcome, none) := by
  unfold succeeds at good
  split at good
  · rfl
  · cases good

def vacant (env : Env) (c : Context) (entry : RouteEntry) : Bool :=
  (match c.tables entry.fib with
    | some (.prefixTable table) =>
      match newPrefixKey env.texts table.desc entry.fibFields with
      | .ok key => (table.tree.stored key.bits).isNone
      | .error _ => true
    | _ => true) &&
  match c.tables trapTableID with
  | some (.flowTable table) => (table.contents 0 0).isEmpty
  | _ => true

theorem notPresent_of_vacant {env : Env} {c : Context} {req : CreateRouteEntryRequest}
    (free : vacant env c req.entry = true) (attrs : RouteAttrs) : NotPresent env attrs c req := by
  obtain ⟨noRoute, noFlow⟩ := Bool.and_eq_true_iff.mp free
  constructor
  case fib =>
    intro table key present made
    rw [present] at noRoute
    simp only [made] at noRoute
    exact Option.isNone_iff_eq_none.mp noRoute
  case trap =>
    intro _ table fd present _
    rw [present] at noFlow
    rw [List.isEmpty_iff.mp noFlow]
    rintro _ ⟨⟩

def dropCreated : Outcome (Context × Option String) :=
  createRouteEntry plainEnv plainCall cpuAttrs switchTables dropTen

def dropRemoved : Outcome (Context × Option String) :=
  removeRouteEntry plainEnv (left dropCreated) tenSlashEight

def cpuCreated : Outcome (Context × Option String) :=
  createRouteEntry plainEnv plainCall cpuAttrs (left dropRemoved) cpuTen

def cpuRemoved : Outcome (Context × Option String) :=
  removeRouteEntry plainEnv (left cpuCreated) tenSlashEight

theorem dropCreated_ok : dropCreated = .ok (left dropCreated, none) :=
  eq_left (by decide +kernel)

theorem route_restored_iff_drop :
    (∀ c'', removeRouteEntry plainEnv (left dropCreated) dropTen.entry = .ok (c'', none) →
        c''.contents = switchTables.contents) ↔
      ¬ (dropTen.ToCpu cpuAttrs ∧ HasLevel plainEnv switchTables dropTen.entry) :=
  route_restored_iff .start dropCreated_ok (notPresent_of_vacant (by decide +kernel) cpuAttrs)

-- The first route of a forwarding table leaves its level behind when it goes. A route to the CPU port
-- for the same prefix can then be removed, and stays in the trap table.
theorem cpu_route_left_behind :
    ∃ env call attrs c req c' c'', Reached env c ∧
      createRouteEntry env call attrs c req = .ok (c', none) ∧ NotPresent env attrs c req ∧
      removeRouteEntry env c' req.entry = .ok (c'', none) ∧ c''.contents ≠ c.contents := by
  have second : dropRemoved = .ok (left dropRemoved, none) := eq_left (by decide +kernel)
  have third : cpuCreated = .ok (left cpuCreated, none) := eq_left (by decide +kernel)
  have fourth : cpuRemoved = .ok (left cpuRemoved, none) := eq_left (by decide +kernel)
  have absent : NotPresent plainEnv cpuAttrs (left dropRemoved) cpuTen :=
    notPresent_of_vacant (by decide +kernel) cpuAttrs
  have reached : Reached plainEnv (left dropRemoved) :=
    (Reached.start.createRouteEntry dropCreated_ok).removeRouteEntry second
  refine ⟨plainEnv, plainCall, cpuAttrs, left dropRemoved, cpuTen, left cpuCreated, left cpuRemoved,
    reached, third, absent, fourth, ?_⟩
  exact trap_route_stays reached.provisioned rfl third absent fourth

end Example

end Lemming.Sai

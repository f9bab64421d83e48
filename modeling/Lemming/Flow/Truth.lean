import Lemming.Build.References
import Lemming.Flow.Qualifiers

set_option autoImplicit false

namespace Lemming.Flow

open Packet Shared

variable {A : Type} {maxSize : FieldID → Nat} {sets : Sets} {E : Desc → EntryQualifier → Prop}

section Matching

variable {packet : PacketFields}

theorem qualifier_match_congr {q : EntryQualifier} {l l' : FieldList}
    (inside : ∀ f ∈ q.values, f ∈ l.fields) (inside' : ∀ f ∈ q.values, f ∈ l'.fields) :
    q.match sets (l'.makePacketQualifier maxSize packet) =
      q.match sets (l.makePacketQualifier maxSize packet) := by
  rw [Bool.eq_iff_iff, EntryQualifier.match, EntryQualifier.match, List.all_eq_true,
    List.all_eq_true]
  refine forall₂_congr fun entry member => ?_
  have isKey : entry.1 ∈ q.values := AList.mem_keys.mpr (List.mem_map_of_mem member)
  dsimp only
  rw [makePacketQualifier_lookup, makePacketQualifier_lookup, if_pos (inside _ isKey),
    if_pos (inside' _ isKey)]

end Matching

namespace Table

variable {t after : Table A} {fd : Desc} {packet : PacketFields}

def Regular (maxSize : FieldID → Nat) (t : Table A) : Prop :=
  ∀ b ∈ t.banks, ∀ p, ∀ flow ∈ b.contents p, flow.1.Fits maxSize

def Room (maxSize : FieldID → Nat) (packet : PacketFields) (f : FieldID) : Prop :=
  ∀ bytes, packet f = some bytes → bytes.length ≤ maxSize f

theorem room_iff {f : FieldID} :
    (packetBytes maxSize packet f).length = maxSize f ↔ Room maxSize packet f := by
  rw [packetBytes, pad_length, Room]
  cases packet f with
  | none => simp
  | some bytes => simp

variable {key : PacketKey}

theorem processLoop_congr {key' : PacketKey} {qualifier qualifier' : PacketQualifier}
    {banks banks' : List (FlowBank A)}
    (same : List.Forall₂ (fun b b' : FlowBank A => b'.matchLoop sets key' qualifier' b'.allocated b'.head =
      b.matchLoop sets key qualifier b.allocated b.head) banks banks') (state : List A × Bool) :
    processLoop sets key' qualifier' banks' state = processLoop sets key qualifier banks state := by
  induction same generalizing state with
  | nil => rfl
  | cons first _ ih =>
    obtain ⟨actions, found⟩ := state
    rw [processLoop, processLoop, first]
    congr 1
    funext hit
    cases hit <;> exact ih _

theorem processLoop_append {qualifier : PacketQualifier} {banks more : List (FlowBank A)}
    (each : ∀ b ∈ more, b.matchLoop sets key qualifier b.allocated b.head = .ok none)
    (state : List A × Bool) :
    processLoop sets key qualifier (banks ++ more) state = processLoop sets key qualifier banks state := by
  induction banks generalizing state with
  | nil =>
    induction more with
    | nil => rfl
    | cons b rest ih =>
      obtain ⟨first, later⟩ := List.forall_mem_cons.mp each
      obtain ⟨actions, found⟩ := state
      simp only [List.nil_append, processLoop, first, Outcome.ok_bind] at ih ⊢
      exact ih later
  | cons b rest ih =>
    obtain ⟨actions, found⟩ := state
    rw [List.cons_append, processLoop, processLoop]
    congr 1
    funext hit
    cases hit <;> exact ih _

theorem process_grown (sets : Sets) (t : Table A) (bankID : Nat) (packet : PacketFields) :
    (t.grown bankID).process sets maxSize packet = t.process sets maxSize packet := by
  have same := @processLoop_append A sets (t.keyDesc.list.makePacketKey maxSize packet)
    (t.qualifierDesc.list.makePacketQualifier maxSize packet) t.banks
    (List.replicate (bankID + 1 - t.banks.length) FlowBank.empty) (by
      intro b member
      rw [List.eq_of_mem_replicate member]
      rfl) ([], false)
  simp only [process, grown, same]

theorem Learned.process_congr (learned : t.Learned maxSize E fd after)
    (same : ∀ known : Desc, (∀ f ∈ known.keys, f ∈ t.keyDesc.list.fields) →
      (after.keyDesc.list.makeEntryKey maxSize known).match
          (after.keyDesc.list.makePacketKey maxSize packet) =
        (t.keyDesc.list.makeEntryKey maxSize known).match
          (t.keyDesc.list.makePacketKey maxSize packet)) :
    after.process sets maxSize packet = t.process sets maxSize packet := by
  have banks := @processLoop_congr A sets (t.keyDesc.list.makePacketKey maxSize packet)
    (after.keyDesc.list.makePacketKey maxSize packet)
    (t.qualifierDesc.list.makePacketQualifier maxSize packet)
    (after.qualifierDesc.list.makePacketQualifier maxSize packet) _ _
    (learned.banks.imp fun b b' related => by
      obtain ⟨ids, arranged, arranged', rekeyed⟩ := related
      rw [arranged.matchLoop fun m facts => facts.match_eq sets _ _,
        arranged'.matchLoop fun m facts => facts.match_eq sets _ _]
      congr 1
      refine FlowBank.findSome?_congr fun id member => ?_
      obtain ⟨level, present, facts⟩ := arranged.present id member
      rw [rekeyed.nodes id member level present, present]
      refine facts.picked_rekeyed fun n inside entry isEntry => ?_
      obtain ⟨inKeys, inQuals, -⟩ := facts.known inside isEntry
      rw [same entry.desc inKeys, qualifier_match_congr inQuals fun f held =>
        (learned.qualifiers f).mpr (Or.inl (inQuals f held))]) ([], false)
  rw [process, process, banks, learned.actions]

theorem Learned.process_room (learned : t.Learned maxSize E fd after)
    (room : ∀ f, f ∈ t.keyDesc.list.fields ∨ f ∈ fd.keys → Room maxSize packet f) :
    after.process sets maxSize packet = t.process sets maxSize packet := by
  refine learned.process_congr fun known inside => ?_
  rw [Bool.eq_iff_iff, match_iff_of_sized (fun f member => room_iff.mpr (room f (Or.inl member))) inside,
    match_iff_of_sized (fun f member => room_iff.mpr (room f ((learned.keys f).mp member)))
      fun f held => (learned.keys f).mpr (Or.inl (inside f held))]

theorem Learned.process_overlong (learned : t.Learned maxSize E fd after) (regular : t.Regular maxSize)
    (overlong : ¬ ∀ f, f ∈ t.keyDesc.list.fields ∨ f ∈ fd.keys → Room maxSize packet f) :
    after.process sets maxSize packet = .ok t.actions := by
  have long : ¬ ∀ f ∈ after.keyDesc.list.fields, (packetBytes maxSize packet f).length = maxSize f := by
    refine fun sized => overlong fun f either => ?_
    exact room_iff.mp (sized f ((learned.keys f).mpr either))
  have none := @processLoop_append A sets (after.keyDesc.list.makePacketKey maxSize packet)
    (after.qualifierDesc.list.makePacketQualifier maxSize packet) [] after.banks (by
      intro b' member
      obtain ⟨i, present⟩ := List.mem_iff_getElem?.mp member
      obtain ⟨b, isOld, ids, arranged, arranged', rekeyed⟩ := forall₂_getElem? learned.banks present
      rw [arranged'.matchLoop fun m facts => facts.match_eq sets _ _]
      congr 1
      rw [List.findSome?_eq_none_iff]
      intro id listed
      obtain ⟨level, node, facts⟩ := arranged.present id listed
      have kept := facts.keyed.rekeyed after.keyDesc.list
      have nothing : level.flows.ids.find? ((level.flows.rekeyed maxSize after.keyDesc.list
          level.flows.ids).admits sets (after.keyDesc.list.makePacketKey maxSize packet)
            (after.qualifierDesc.list.makePacketQualifier maxSize packet)) = none := by
        rw [List.find?_eq_none]
        intro n inside
        obtain ⟨entry, isEntry, -⟩ := facts.keyed.present n inside
        have found := (arranged.levels (b.priority id) id).mpr ⟨listed, rfl⟩
        have fits : entry.desc.Fits maxSize := by
          refine regular b (List.mem_of_getElem? isOld) (b.priority id) (entry.desc, entry.actions) ?_
          rw [FlowBank.contents_some found node, Map.contents, Map.flows, List.mem_filterMap]
          exact ⟨n, inside, by rw [Map.flow?, isEntry]; rfl⟩
        simp [Map.admits, Map.rekeyed_entries inside isEntry, match_overlong fits long fun f held =>
          (learned.keys f).mpr (Or.inl ((facts.known inside isEntry).1 f held))]
      rw [rekeyed.nodes id listed level node, Option.bind_some, Map.picked, kept.ids_eq, nothing]
      rfl) ([], false)
  rw [List.nil_append] at none
  rw [process, none, learned.actions]
  rfl

theorem Regular.grown (regular : t.Regular maxSize) (bankID : Nat) :
    (t.grown bankID).Regular maxSize := by
  intro b member p
  rcases List.mem_append.mp member with old | new
  · exact regular b old p
  · rw [List.eq_of_mem_replicate new, FlowBank.contents_none rfl]
    exact nofun

-- The packet meets the same entries after the table has learned the key fields of the flow. The key of
-- a packet with an overlong field compares with no entry.
def Steady (sets : Sets) (maxSize : FieldID → Nat) (t : Table A) (fd : Desc) (packet : PacketFields) :
    Prop :=
  (∀ f ∈ fd.keys, f ∈ t.keyDesc.fields) ∨
    (∀ f, f ∈ t.keyDesc.fields ∨ f ∈ fd.keys → Room maxSize packet f) ∨
    t.Regular maxSize ∧ t.process sets maxSize packet = .ok t.actions

section Learning

variable {bankID : Nat} (standing : t.Standing maxSize E)
  (learned : (t.grown bankID).Learned maxSize E fd after)

include standing learned

theorem Standing.process_of_steady (steady : t.Steady sets maxSize fd packet) :
    after.process sets maxSize packet = t.process sets maxSize packet := by
  by_cases room : ∀ f, f ∈ t.keyDesc.list.fields ∨ f ∈ fd.keys → Room maxSize packet f
  · rw [learned.process_room room, process_grown]
  rcases steady with known | fits | ⟨regular, default⟩
  · rw [learned.process_congr fun _ _ => by rw [learned.same known], process_grown]
  · simp only [← standing.keys] at fits
    exact absurd fits room
  · rw [learned.process_overlong (regular.grown bankID) room, default]
    rfl

theorem Standing.steady_of_process (regular : t.Regular maxSize)
    (same : after.process sets maxSize packet = t.process sets maxSize packet) :
    t.Steady sets maxSize fd packet := by
  by_cases room : ∀ f, f ∈ t.keyDesc.fields ∨ f ∈ fd.keys → Room maxSize packet f
  · exact Or.inr (Or.inl room)
  · simp only [← standing.keys] at room
    exact Or.inr (Or.inr ⟨regular,
      same.symm.trans (learned.process_overlong (regular.grown bankID) room)⟩)

end Learning

section Requests

variable {O : Type} [DecidableEq O] (kind : Object.Kind O) (kinds : O → Build.ObjectKind)
  (texts : Build.Texts)

-- `AddEntry` with the objects that its actions refer to. The actions are built once the flow is
-- described; a request that fails before takes no reference. An update releases the references of the
-- actions it replaces after that.
def addEntryWith (sets : Sets) (maxSize : FieldID → Nat) (orders : Orders) (objects : Object.Table O)
    (t : Table (Build.Action O)) (entry : Option FlowEntryDesc) (ad : List Build.ActionDesc) :
    Outcome (Object.Table O × Table (Build.Action O) × Option String) :=
  match entry.map fun flow => newDesc flow.fields flow.qualifiers with
  | some (.ok _) => do
    let (objects, actions) ← Build.newActions kind kinds texts objects ad
    let (t, err) ← t.addEntry sets maxSize orders entry actions
    return (objects, t, err)
  | _ => do
    let (t, err) ← t.addEntry sets maxSize orders entry (.ok [])
    return (objects, t, err)

structure Truthful (sets : Sets) (maxSize : FieldID → Nat) (packets : Set PacketFields)
    (objects : Object.Table O) (t : Table (Build.Action O)) (entry : Option FlowEntryDesc)
    (ad : List Build.ActionDesc) (objects' : Object.Table O) (t' : Table (Build.Action O))
    (err : Option String) : Prop where
  added : err = none → ∃ flow fd actions, entry = some flow ∧
    newDesc flow.fields flow.qualifiers = .ok fd ∧
    Build.newActions kind kinds texts objects ad = .ok (objects', .ok actions) ∧
    t'.Has flow.bank.toNat flow.priority fd actions
  unchanged : err ≠ none → Build.SameCounts objects objects' ∧
    ∀ packet ∈ packets, t'.process sets maxSize packet = t.process sets maxSize packet

-- A request whose result is true: the sets of the flow exist if its actions can be built, and otherwise
-- no select spills references and the new key fields make no key too long.
def Honest (sets : Sets) (maxSize : FieldID → Nat) (packets : Set PacketFields)
    (objects : Object.Table O) (t : Table (Build.Action O)) (entry : Option FlowEntryDesc)
    (ad : List Build.ActionDesc) : Prop :=
  ∀ flow fd, entry = some flow → newDesc flow.fields flow.qualifiers = .ok fd →
    match Build.refsOfAll kinds objects ad with
    | some _ => t.Accepts sets flow.bank.toNat flow.priority fd
    | none => Build.spilledAll kinds objects ad = [] ∧
        ∀ packet ∈ packets, t.Steady sets maxSize fd packet

theorem add_entry_truthful_iff (sets : Sets) (orders : Orders) (packets : Set PacketFields)
    {t : Table (Build.Action O)} (reached : t.Reached maxSize) {objects : Object.Table O}
    (entry : Option FlowEntryDesc) {ad : List Build.ActionDesc} (room : Build.HasRoom objects ad) :
    ∃ objects' t' err,
      t.addEntryWith kind kinds texts sets maxSize orders objects entry ad =
        .ok (objects', t', err) ∧
      (t.Honest kinds sets maxSize packets objects entry ad →
        t.Truthful kind kinds texts sets maxSize packets objects entry ad objects' t' err) ∧
      (t.Regular maxSize →
        t.Truthful kind kinds texts sets maxSize packets objects entry ad objects' t' err →
          t.Honest kinds sets maxSize packets objects entry ad) := by
  have standing := reached.standing
  cases entry with
  | none =>
    refine ⟨objects, t, _, rfl, fun _ => ⟨by rintro ⟨⟩, fun _ => ⟨fun _ => rfl, fun _ _ => rfl⟩⟩, ?_⟩
    rintro - - flow fd ⟨⟩
  | some flow =>
    rcases newDesc_returns flow with ⟨fd, made⟩ | ⟨message, failed⟩
    · have only {P : FlowEntryDesc → Desc → Prop} : (∀ flow' fd', some flow = some flow' →
          newDesc flow'.fields flow'.qualifiers = .ok fd' → P flow' fd') ↔ P flow fd := by
        constructor
        · exact fun all => all flow fd rfl made
        · rintro holds flow' fd' isFlow made'
          cases isFlow
          cases made.symm.trans made'
          exact holds
      have builds := Build.newActions_builds kind kinds texts objects ad room
      simp only [Honest, only, addEntryWith, Option.map_some, made]
      cases isBuilt : Build.refsOfAll kinds objects ad with
      | some refs =>
        rw [isBuilt] at builds
        obtain ⟨actions, built, -⟩ := builds
        obtain ⟨after, run, -, has, -⟩ := standing.addEntry_done sets orders made
          (fun _ _ _ _ => trivial) actions
        refine ⟨_, after, none, by simp only [built, Outcome.ok_bind, run]; rfl, fun accepts => ?_, fun _ truthful => ?_⟩
        · exact ⟨fun _ => ⟨flow, fd, actions, rfl, made, built, has.mpr accepts⟩, fun failed => absurd rfl failed⟩
        · obtain ⟨flow', fd', actions', isFlow, made', built', held⟩ := truthful.added rfl
          cases isFlow
          cases made.symm.trans made'
          cases built.symm.trans built'
          exact has.mp held
      | none =>
        rw [isBuilt] at builds
        obtain ⟨message, failed⟩ := builds
        obtain ⟨after, run, -, learned⟩ := standing.addEntry_refused sets orders made message
        refine ⟨_, after, _, by simp only [failed, Outcome.ok_bind, run]; rfl, ?_, fun regular truthful => ?_⟩
        · rintro ⟨spilled, steady⟩
          refine ⟨by rintro ⟨⟩, fun _ => ⟨(Build.raised_eq_iff objects _).mpr spilled, ?_⟩⟩
          intro packet inside
          exact standing.process_of_steady learned (steady packet inside)
        · obtain ⟨counts, same⟩ := truthful.unchanged (by rintro ⟨⟩)
          exact ⟨(Build.raised_eq_iff objects _).mp counts, fun packet inside =>
            standing.steady_of_process learned regular (same packet inside)⟩
    · have run : t.addEntryWith kind kinds texts sets maxSize orders objects (some flow) ad =
          .ok (objects, t.grown flow.bank.toNat, some message) := by
        simp [addEntryWith, failed, Table.addEntry, Table.grown]
      refine ⟨_, _, _, run, fun _ => ⟨by rintro ⟨⟩, fun _ => ⟨fun _ => rfl, fun packet _ => ?_⟩⟩,
        fun _ _ => ?_⟩
      · exact process_grown sets t flow.bank.toNat packet
      · rintro flow' fd isFlow made
        cases isFlow
        cases failed.symm.trans made

end Requests

section OneField

def numbered (num : Int32) : PacketFieldId := { field := some ⟨num, 0⟩ }

def byteFlow (num : Int32) : FlowEntryDesc := ⟨0, 1, [⟨numbered num, [7], []⟩], []⟩

def addToPort (objects : Object.Table (Fin 2)) (t : Table (Build.Action (Fin 2)))
    (flow : FlowEntryDesc) (ad : List Build.ActionDesc) :
    Outcome (Object.Table (Fin 2) × Table (Build.Action (Fin 2)) × Option String) :=
  t.addEntryWith Build.noParts Build.allPorts Build.blank (fun _ => none) (fun _ => 1) ⟨.id, .id⟩
    objects (some flow) ad

theorem byte_flow_truthful :
    (∃ objects' t' err,
      addToPort Build.onePort (build 1 []) (byteFlow 5) [Build.toPort] = .ok (objects', t', err) ∧
      Truthful Build.noParts Build.allPorts Build.blank (fun _ => none) (fun _ => 1) Set.univ
        Build.onePort (build 1 []) (some (byteFlow 5)) [Build.toPort] objects' t' err) ∧
    ∃ objects' t' err,
      addToPort Build.onePort (build 1 []) (byteFlow 5) [.missing] = .ok (objects', t', err) ∧
      Truthful Build.noParts Build.allPorts Build.blank (fun _ => none) (fun _ => 1)
        {fun _ => some [7]} Build.onePort (build 1 []) (some (byteFlow 5)) [.missing] objects' t'
        err := by
  have made {fd : Desc} (isMade : newDesc (byteFlow 5).fields (byteFlow 5).qualifiers = .ok fd) :
      fd.qualifiers = ∅ := by
    cases isMade
    rfl
  constructor
  · obtain ⟨objects', t', err, run, truthful, -⟩ := add_entry_truthful_iff Build.noParts
      Build.allPorts Build.blank (fun _ => none) ⟨.id, .id⟩ Set.univ (.build 1 [])
      (some (byteFlow 5)) (show Build.HasRoom Build.onePort [Build.toPort] by
        unfold Build.HasRoom
        decide)
    refine ⟨objects', t', err, run, truthful ?_⟩
    intro flow fd isFlow isMade
    cases isFlow
    show ∀ f s, fd.qualifiers.lookup f = some s → _
    rw [made isMade]
    exact nofun
  · obtain ⟨objects', t', err, run, truthful, -⟩ := add_entry_truthful_iff Build.noParts
      Build.allPorts Build.blank (fun _ => none) ⟨.id, .id⟩ {fun _ => some [7]} (.build 1 [])
      (some (byteFlow 5)) (show Build.HasRoom Build.onePort [.missing] by
        unfold Build.HasRoom
        decide)
    refine ⟨objects', t', err, run, truthful ?_⟩
    intro flow fd isFlow isMade
    refine ⟨rfl, fun packet isPacket => Or.inr (Or.inl fun f _ bytes isField => ?_)⟩
    cases isPacket
    cases isField
    exact Nat.le_refl 1

def twoBytes : PacketFields := fun f => if f.num = 6 then some [1, 2] else some [7]

-- A request whose set is missing returns nil, and no level has the flow. A request that fails makes the
-- key of a packet longer, which then meets the default actions.
theorem request_not_truthful :
    (∃ objects' t', addToPort Build.onePort (build 1 []) ⟨0, 1, [], [⟨numbered 5, "s"⟩]⟩
        [Build.toPort] = .ok (objects', t', none) ∧ ¬ ∃ fd actions, t'.Has 0 1 fd actions) ∧
    ∃ objects₁ t₁ objects₂ t₂ message,
      addToPort Build.onePort (build 1 []) (byteFlow 5) [Build.toPort] = .ok (objects₁, t₁, none) ∧
      addToPort objects₁ t₁ (byteFlow 6) [.missing] = .ok (objects₂, t₂, some message) ∧
      t₁.process (fun _ => none) (fun _ => 1) twoBytes ≠
        t₂.process (fun _ => none) (fun _ => 1) twoBytes := by
  constructor
  · refine ⟨_, _, rfl, ?_⟩
    rintro ⟨fd, actions, b, isBank, level, isLevel, id, entry, found, -⟩
    cases isBank
    cases isLevel
    cases found
  · have run : (do
        let (objects₁, t₁, err₁) ← addToPort Build.onePort (build 1 []) (byteFlow 5) [Build.toPort]
        let before ← t₁.process (fun _ => none) (fun _ => 1) twoBytes
        let (_, t₂, err₂) ← addToPort objects₁ t₁ (byteFlow 6) [.missing]
        let after ← t₂.process (fun _ => none) (fun _ => 1) twoBytes
        return (err₁.isSome, err₂.isSome, before.length, after.length)) =
          Outcome.ok (false, true, 1, 0) := by
      decide +kernel
    obtain ⟨⟨objects₁, t₁, err₁⟩, first, rest⟩ := Outcome.bind_eq_ok.mp run
    obtain ⟨before, isBefore, rest⟩ := Outcome.bind_eq_ok.mp rest
    obtain ⟨⟨objects₂, t₂, err₂⟩, second, rest⟩ := Outcome.bind_eq_ok.mp rest
    obtain ⟨after, isAfter, rest⟩ := Outcome.bind_eq_ok.mp rest
    have results := Outcome.ok.inj rest
    simp only [Prod.mk.injEq] at results
    obtain ⟨noError, isError, one, zero⟩ := results
    obtain ⟨message, rfl⟩ := Option.isSome_iff_exists.mp isError
    obtain rfl : err₁ = none := Option.isSome_eq_false_iff.mp noError |> Option.isNone_iff_eq_none.mp
    refine ⟨objects₁, t₁, objects₂, t₂, message, first, second, ?_⟩
    rw [isBefore, isAfter]
    intro same
    rw [Outcome.ok.inj same, zero] at one
    cases one

end OneField

end Table

end Lemming.Flow

import Lemming.Protocol.Rebuilding
import Lemming.Protocol.Updating

set_option autoImplicit false

namespace Lemming.Protocol

open Shared Lemming.Packet

section Slots

variable {group : HeaderGroup} {above above' below descs : List (Desc Slice)} {desc : Desc Slice}

theorem slot_some (found : slot group above descs = some (above', desc, below)) :
    above'.reverse ++ desc :: below = above.reverse ++ descs ∧ desc.group = group := by
  induction descs generalizing above with
  | nil => cases found
  | cons first rest ih =>
    rw [slot] at found
    split at found
    · cases found
      exact ⟨rfl, ‹_›⟩
    · obtain ⟨joined, isGroup⟩ := ih found
      refine ⟨?_, isGroup⟩
      rw [joined, List.reverse_cons, List.append_assoc]
      rfl

theorem slot_find {group : HeaderGroup} {above descs : List (Desc Slice)} :
    (slot group above descs).map (fun place => place.2.1) = descs.find? (·.group = group) := by
  induction descs generalizing above with
  | nil => rfl
  | cons desc below ih =>
    rw [slot]
    by_cases here : desc.group = group
    · simp [here]
    · simp [here, ih]

theorem slot_none : slot group above descs = none ↔ ∀ desc ∈ descs, desc.group ≠ group := by
  induction descs generalizing above with
  | nil => simp [slot]
  | cons first rest ih =>
    rw [slot]
    split
    · rename_i isGroup
      exact iff_of_false nofun fun other => other first List.mem_cons_self isGroup
    · rename_i other
      rw [ih]
      simp [other]

namespace Desc

variable {low : Nat}

theorem Ordered.low_le (ordered : Ordered low descs) :
    ∀ desc ∈ descs, low ≤ desc.group.position := by
  induction descs generalizing low with
  | nil => exact nofun
  | cons first rest ih =>
    intro desc mem
    rcases List.mem_cons.mp mem with rfl | later
    · exact ordered.1
    · have := ih ordered.2 desc later
      have := ordered.1
      omega

theorem Ordered.unique (ordered : Ordered low descs) {first second : Desc Slice}
    (isFirst : first ∈ descs) (isSecond : second ∈ descs) (same : first.group = second.group) :
    first = second := by
  induction descs generalizing low with
  | nil => cases isFirst
  | cons desc rest ih =>
    have later := ordered.2.low_le
    rcases List.mem_cons.mp isFirst with rfl | inRest
    · rcases List.mem_cons.mp isSecond with rfl | inRest
      · rfl
      · have := later second inRest
        rw [← same] at this
        omega
    · rcases List.mem_cons.mp isSecond with rfl | inRest'
      · have := later first inRest
        rw [same] at this
        omega
      · exact ih ordered.2 inRest inRest'

theorem Ordered.raise {low' : Nat} (ordered : Ordered low descs)
    (le : ∀ desc ∈ descs, low' ≤ desc.group.position) : Ordered low' descs := by
  cases descs with
  | nil => trivial
  | cons first rest => exact ⟨le first List.mem_cons_self, ordered.2⟩

theorem ordered_append {front back : List (Desc Slice)} :
    Ordered low (front ++ back) ↔ Ordered low front ∧ Ordered low back ∧
      ∀ first ∈ front, ∀ second ∈ back, first.group.position < second.group.position := by
  induction front generalizing low with
  | nil => simp [Ordered]
  | cons desc rest ih =>
    simp only [List.cons_append, Ordered, ih, List.mem_cons]
    constructor
    · rintro ⟨le, front, back, apart⟩
      refine ⟨⟨le, front⟩, back.mono (by omega), ?_⟩
      rintro first (rfl | later) second isBack
      · exact back.low_le second isBack
      · exact apart first later second isBack
    · rintro ⟨⟨le, front⟩, back, apart⟩
      exact ⟨le, front, back.raise (apart desc (Or.inl rfl)),
        fun first later => apart first (Or.inr later)⟩

end Desc

end Slots

section Rebuilding

variable {heap : Heap UInt8} {above below : List (Desc Slice)}

theorem payload_yields (inside : Desc.Inside heap below)
    (sound : ∀ desc ∈ above ++ below, desc.Sound) :
    (Desc.payload heap above below).Yields fun (heap', bytes, below') =>
      heap.Only (Desc.reach below) heap' ∧ below'.map Desc.form = below.map Desc.form ∧
        bytes.length = Desc.size below := by
  refine (Desc.rebuildLoop_yields below.length ⟨Nat.le_refl _, inside, sound⟩).bind ?_
  rintro ⟨heap', headers, below'⟩ ⟨only, same, total⟩
  refine .pure ⟨only, ?_, total⟩
  rw [← same, List.map_map]
  rfl

theorem payload_rebuilds (above below : List (Desc Slice)) : Rebuilds Desc.payload above below :=
  fun _ inside sound => (payload_yields inside sound).imp fun _ is => ⟨is.1, is.2.1⟩

theorem rebuildHeaders_yields :
    ∀ {heap : Heap UInt8} {above below : List (Desc Slice)},
      Desc.Inside heap (above ++ below) → (∀ desc ∈ above ++ below, desc.Sound) →
      (Packet.rebuildHeaders heap above below).Yields fun (heap', headers) =>
        heap.Only (Desc.reach (above ++ below)) heap' ∧
          headers.map Desc.form = (above.reverse ++ below).map Desc.form ∧
          (above = [] → headers = below) ∧
          (above ≠ [] → ∀ desc rest md, headers = desc :: rest → desc.handler = .metadata md →
            md.length = Desc.size rest) := by
  intro heap above
  induction above generalizing heap with
  | nil =>
    exact fun inside sound =>
      .pure ⟨.refl _ _, rfl, fun _ => rfl, fun nonempty => absurd rfl nonempty⟩
  | cons desc above ih =>
    intro below inside sound
    have inHere : Desc.Inside heap (desc :: below) := by
      intro other mem
      refine inside other ?_
      simp only [List.cons_append, List.mem_cons, List.mem_append] at mem ⊢
      tauto
    rw [Packet.rebuildHeaders]
    refine (rebuild_yields (payload_rebuilds _ _) inHere sound).bind ?_
    rintro ⟨heap₁, handler, below'⟩ ⟨only₁, sameHandler, same, counted⟩
    have sameAll : (above ++ { desc with handler } :: below').map Desc.form =
        (above ++ desc :: below).map Desc.form := by
      simp only [List.map_append, List.map_cons, same, Desc.form, sameHandler]
    have perm : ∀ other ∈ above ++ desc :: below, other ∈ desc :: above ++ below :=
      fun other => List.perm_middle.mem_iff.mp
    have reach : Desc.reach (above ++ { desc with handler } :: below') ⊆
        Desc.reach (desc :: above ++ below) := by
      rw [Desc.reach_of_form sameAll]
      intro s part
      obtain ⟨other, mem, part⟩ := List.mem_flatMap.mp part
      exact List.mem_flatMap.mpr ⟨other, perm other mem, part⟩
    refine (ih ?_ ?_).imp ?_
    · exact Desc.Inside.rebuilt (fun other mem => inside other (perm other mem)) only₁.1 sameAll
    · exact Desc.sound_of_form sameAll fun other mem => sound other (perm other mem)
    rintro ⟨heap₂, headers⟩ ⟨only₂, same₂, done, counted₂⟩
    refine ⟨?_, ?_, by rintro ⟨⟩, ?_⟩
    · refine (only₁.mono ?_).trans (only₂.mono reach)
      intro s part
      simp only [Desc.reach, List.cons_append, List.flatMap_cons, List.flatMap_append,
        List.mem_append] at part ⊢
      tauto
    · rw [same₂]
      simp only [List.map_append, List.map_cons, List.reverse_cons, same, Desc.form, sameHandler,
        List.append_assoc, List.cons_append, List.nil_append]
    · intro _ first rest md isHeaders isMetadata
      cases above with
      | nil =>
        rw [done rfl] at isHeaders
        cases isHeaders
        rw [counted md isMetadata, Desc.size_of_form same]
      | cons next above => exact counted₂ (by rintro ⟨⟩) first rest md isHeaders isMetadata

end Rebuilding

section Packets

-- What every operation on a packet may rely on: its chain starts with metadata and has its groups in
-- order, and the headers lie on the heap and have the sizes their handlers rely on.
structure Packet.Sound (packet : Packet) : Prop where
  metadata : ∃ md dirty below, packet.headers = ⟨.packet, .metadata md, dirty⟩ :: below
  ordered : Desc.Ordered 0 packet.headers
  inside : Desc.Inside packet.heap packet.headers
  sound : ∀ desc ∈ packet.headers, desc.Sound

theorem Desc.metadata_of_form {descs descs' : List (Desc Slice)}
    (same : descs'.map form = descs.map form)
    (metadata : ∃ md dirty below, descs = ⟨.packet, .metadata md, dirty⟩ :: below) :
    ∃ md dirty below, descs' = ⟨.packet, .metadata md, dirty⟩ :: below := by
  obtain ⟨md, dirty, below, rfl⟩ := metadata
  rcases descs' with _ | ⟨⟨group, handler, dirty'⟩, below'⟩
  · cases same
  · simp only [List.map_cons, List.cons.injEq, form, Prod.mk.injEq] at same
    obtain ⟨⟨rfl, sameHandler⟩, -⟩ := same
    cases handler with
    | metadata md' => exact ⟨md', dirty', below', rfl⟩
    | _ => cases sameHandler

theorem Desc.reach_subset {desc : Desc Slice} {descs : List (Desc Slice)} (mem : desc ∈ descs) :
    desc.handler.reach ⊆ reach descs :=
  fun _ part => List.mem_flatMap.mpr ⟨desc, mem, part⟩

namespace Packet

variable {packet : Packet}

def size (packet : Packet) : Nat := Desc.size packet.headers

def recorded (packet : Packet) : Nat :=
  match packet.headers with
  | ⟨_, .metadata md, _⟩ :: _ => md.length
  | _ => 0

variable {packet' : Packet}

theorem Sound.of_form (sound : packet.Sound) (grown : packet.heap.Grown packet'.heap)
    (same : packet'.headers.map Desc.form = packet.headers.map Desc.form) : packet'.Sound where
  metadata := Desc.metadata_of_form same sound.metadata
  ordered := Desc.ordered_of_form same sound.ordered
  inside := sound.inside.rebuilt grown same
  sound := Desc.sound_of_form same sound.sound

theorem frame_yields (sound : packet.Sound) :
    packet.frame.Yields fun (bytes, packet') => bytes.length = packet.size ∧ packet'.Sound := by
  obtain ⟨md, dirty, below, isHeaders⟩ := sound.metadata
  have inside := sound.inside
  have all := sound.sound
  rw [isHeaders] at inside all
  have inBelow : Desc.Inside packet.heap below := fun desc mem =>
    inside desc (List.mem_cons_of_mem _ mem)
  simp only [frame, isHeaders]
  refine (payload_yields inBelow all).bind ?_
  rintro ⟨heap', bytes, below'⟩ ⟨only, same, length⟩
  refine .pure ⟨?_, ?_⟩
  · rw [length, size, isHeaders]
    simp [Desc.size, Handler.size]
  · refine sound.of_form only.1 ?_
    simp only [isHeaders, List.map_cons, same]

theorem length_recorded (sound : packet.Sound) :
    packet.length = .ok (packet.recorded % 2 ^ 64) := by
  obtain ⟨md, dirty, below, isHeaders⟩ := sound.metadata
  have isGroup : fieldGroup lengthField = some .packet := by decide
  have isField : packet.field { num := lengthField } = .ok (octetsOf 8 md.length, packet) := by
    simp only [field, fieldDesc, Bool.false_eq_true, if_false, isGroup, Outcome.ok_bind,
      Option.bind_some, isHeaders, slot, if_true]
    rw [← isHeaders]
    rfl
  have octets : (256 : Nat) ^ 8 = 2 ^ 64 := by decide
  rw [length, isField]
  have whole : (octetsOf 8 md.length).take 8 = octetsOf 8 md.length :=
    List.take_of_length_le (by rw [octetsOf_length])
  simp only [Field.bigEndian, octetsOf_length, Nat.lt_irrefl, if_false, whole, octetsValue_octetsOf,
    recorded, isHeaders, octets]

theorem udfLoop_only {headers : List (Desc Slice)} (groups : List HeaderGroup) (offset : UInt8) :
    ∀ {heap : Heap UInt8}, Desc.Inside heap headers →
      heap.Only (Desc.reach headers) (udfLoop headers heap groups offset).1 := by
  induction groups generalizing offset with
  | nil => exact fun _ => .refl _ _
  | cons group groups ih =>
    intro heap inside
    rw [udfLoop]
    cases found : slot group [] headers with
    | none => exact ih offset inside
    | some place =>
      obtain ⟨above, desc, below⟩ := place
      have mem : desc ∈ headers := by
        have joined := (slot_some found).1
        rw [List.reverse_nil, List.nil_append] at joined
        simp [← joined]
      have only := (Handler.header_only (inside desc mem)).mono (Desc.reach_subset mem)
      dsimp only
      split
      · exact only
      · exact only.trans (ih _ (inside.grown only.1))

theorem fieldDesc_only (inside : Desc.Inside packet.heap packet.headers) (id : FieldID) :
    (packet.fieldDesc id).Whenever fun (heap, group, id') =>
      packet.heap.Only (Desc.reach packet.headers) heap ∧ id'.isUDF = id.isUDF ∧
        (id.isUDF = false → id' = id ∧ fieldGroup id.num = group) := by
  unfold fieldDesc
  split
  · rename_i isUDF
    split
    · exact nofun
    · rename_i group isGroup
      have only := udfLoop_only (sequence.drop group.position) id.offset inside
      split
      · rename_i heap found offset isLoop
        rw [isLoop] at only
        exact .pure ⟨only, rfl, fun named => by rw [isUDF] at named; cases named⟩
      · rename_i heap isLoop
        rw [isLoop] at only
        exact .pure ⟨only, rfl, fun named => by rw [isUDF] at named; cases named⟩
  · split
    · exact nofun
    · exact .pure ⟨.refl _ _, rfl, fun _ => ⟨rfl, ‹_›⟩⟩

variable {heap : Heap UInt8}

theorem Sound.changed {headers : List (Desc Slice)} (sound : packet.Sound)
    (grown : packet.heap.Grown heap)
    (metadata : ∃ md dirty rest, headers = ⟨.packet, .metadata md, dirty⟩ :: rest)
    (ordered : Desc.Ordered 0 headers)
    (known : ∀ desc ∈ headers, desc ∈ packet.headers ∨ desc.handler.Inside heap ∧ desc.Sound) :
    Sound { packet with heap, headers } where
  metadata := metadata
  ordered := ordered
  inside desc mem := (known desc mem).elim (sound.inside.grown grown desc) And.left
  sound desc mem := (known desc mem).elim (sound.sound desc) And.right

theorem Sound.front {front back : List (Desc Slice)} (sound : packet.Sound)
    (isHeaders : packet.headers = front ++ back) (nonempty : front ≠ []) :
    ∃ md dirty rest, front = ⟨.packet, .metadata md, dirty⟩ :: rest := by
  obtain ⟨md, dirty, rest, isFirst⟩ := sound.metadata
  rw [isHeaders] at isFirst
  cases front with
  | nil => exact absurd rfl nonempty
  | cons first front =>
    cases isFirst
    exact ⟨md, dirty, front, rfl⟩

variable {desc : Desc Slice}

theorem Sound.replace {front below : List (Desc Slice)} {desc' : Desc Slice} (sound : packet.Sound)
    (isHeaders : packet.headers = front ++ desc :: below) (grown : packet.heap.Grown heap)
    (sameGroup : desc'.group = desc.group) (inside : desc'.handler.Inside heap)
    (shaped : desc'.Sound) :
    Sound { packet with heap, headers := front ++ desc' :: below } := by
  refine sound.changed grown ?_ ?_ ?_
  · cases front with
    | nil =>
      obtain ⟨md, dirty, rest, isFirst⟩ := sound.metadata
      rw [isHeaders] at isFirst
      cases isFirst
      obtain ⟨group', handler', dirty'⟩ := desc'
      obtain rfl : group' = .packet := sameGroup
      obtain ⟨-, isGroup⟩ := shaped
      cases handler' with
      | metadata md' => exact ⟨md', dirty', below, rfl⟩
      | _ => cases isGroup
    | cons first front =>
      obtain ⟨md, dirty, _, isFirst⟩ := sound.front isHeaders (List.cons_ne_nil _ _)
      exact ⟨md, dirty, _, congrArg (· ++ desc' :: below) isFirst⟩
  · have ordered := sound.ordered
    rw [isHeaders, Desc.ordered_append] at ordered
    obtain ⟨before, after, apart⟩ := ordered
    refine Desc.ordered_append.mpr ⟨before, ?_, ?_⟩
    · rw [Desc.Ordered, sameGroup]
      exact after
    · intro first isFront second isBack
      rcases List.mem_cons.mp isBack with rfl | later
      · rw [sameGroup]
        exact apart first isFront desc List.mem_cons_self
      · exact apart first isFront second (List.mem_cons_of_mem _ later)
  · rw [isHeaders]
    intro other mem
    rcases List.mem_append.mp mem with isFront | _ | ⟨_, isBelow⟩
    · exact Or.inl (List.mem_append_left _ isFront)
    · exact Or.inr ⟨inside, shaped⟩
    · exact Or.inl (List.mem_append_right _ (List.mem_cons_of_mem _ isBelow))

theorem Sound.slot_eq {group : HeaderGroup} {above below : List (Desc Slice)} (sound : packet.Sound)
    (found : slot group [] packet.headers = some (above, desc, below)) :
    packet.headers = above.reverse ++ desc :: below ∧ desc ∈ packet.headers ∧
      desc.handler.group = group := by
  obtain ⟨joined, isGroup⟩ := slot_some found
  have isHeaders : packet.headers = above.reverse ++ desc :: below := joined.symm
  have mem : desc ∈ packet.headers := by simp [isHeaders]
  exact ⟨isHeaders, mem, (sound.sound desc mem).2.symm.trans isGroup⟩

def Extends (packet : Packet) (id : FieldID) : Prop :=
  ∃ desc ∈ packet.headers, desc.handler.Extends id

variable {id : FieldID}

theorem Extends.named {handler : Handler Slice} (extended : handler.Extends id) :
    id.isUDF = false ∧ fieldGroup id.num = some .l3 ∧ handler.group = .l3 := by
  cases handler with
  | ip linked headers =>
    obtain ⟨ip, -, extended⟩ := extended
    cases ip with
    | gre header key seq payload =>
      refine ⟨extended.1, ?_, rfl⟩
      rcases extended.2 with ⟨isKey, -⟩ | ⟨isSeq, -⟩
      · rw [isKey]
        decide
      · rw [isSeq]
        decide
    | _ => exact extended.elim
  | _ => exact extended.elim

theorem update_cases {op : UpdateOp} {arg : Bytes} (isOk : packet.update id op arg = .ok packet') :
    ∃ heap group id' above desc below heap' handler' dirty,
      packet.fieldDesc id = .ok (heap, some group, id') ∧
      slot group [] packet.headers = some (above, desc, below) ∧
      desc.handler.updateField heap id' op arg = .ok (heap', handler', dirty) ∧
      packet' = { packet with
        heap := heap'
        headers := above.reverse ++
          { desc with handler := handler', dirty := dirty || desc.dirty } :: below } := by
  unfold update at isOk
  obtain ⟨⟨heap, group, id'⟩, isField, isOk⟩ := Outcome.bind_eq_ok.mp isOk
  cases group with
  | none => cases isOk
  | some group =>
    cases found : slot group [] packet.headers with
    | none =>
      simp only [Option.bind_some, found] at isOk
      cases isOk
    | some place =>
      obtain ⟨above, desc, below⟩ := place
      simp only [Option.bind_some, found] at isOk
      obtain ⟨⟨heap', handler', dirty⟩, updated, isOk⟩ := Outcome.bind_eq_ok.mp isOk
      cases isOk
      exact ⟨_, _, _, _, _, _, _, _, _, isField, found,
        Outcome.wrap_eq_ok.mp updated, rfl⟩

theorem Sound.extends_iff {id' : FieldID} {group : HeaderGroup} {above below : List (Desc Slice)}
    (sound : packet.Sound) (isField : packet.fieldDesc id = .ok (heap, some group, id'))
    (found : slot group [] packet.headers = some (above, desc, below)) :
    packet.Extends id ↔ desc.handler.Extends id' := by
  obtain ⟨-, sameUDF, named⟩ := fieldDesc_only sound.inside id _ isField
  obtain ⟨isHeaders, mem, isGroup⟩ := sound.slot_eq found
  constructor
  · rintro ⟨other, isOther, extended⟩
    obtain ⟨isNamed, isL3, inL3⟩ := Extends.named extended
    obtain ⟨rfl, sameGroup⟩ := named isNamed
    obtain rfl : .l3 = group := Option.some.inj (isL3.symm.trans sameGroup)
    have isSame : other.group = desc.group := by
      rw [(sound.sound other isOther).2, inL3, (sound.sound desc mem).2, isGroup]
    rwa [← sound.ordered.unique isOther mem isSame]
  · intro extended
    obtain ⟨isNamed, -, -⟩ := Extends.named extended
    rw [sameUDF] at isNamed
    obtain ⟨rfl, -⟩ := named isNamed
    exact ⟨desc, mem, extended⟩

theorem update_effect {op : UpdateOp} {arg : Bytes} (sound : packet.Sound)
    (isOk : packet.update id op arg = .ok packet') :
    packet'.Sound ∧ packet'.recorded = packet.recorded ∧
      (¬ packet.Extends id → packet'.size = packet.size) ∧
      (packet.Extends id → packet'.size = packet.size + 4) := by
  obtain ⟨heap, group, id', above, desc, below, heap', handler', dirty, isField, found, updated, rfl⟩ :=
    update_cases isOk
  obtain ⟨only, sameUDF, named⟩ := fieldDesc_only sound.inside id _ isField
  obtain ⟨isHeaders, mem, isGroup⟩ := sound.slot_eq found
  have soundDesc := sound.sound desc mem
  obtain ⟨effect, kept⟩ := Handler.updateField_effect ((sound.inside desc mem).grown only.1)
    soundDesc.1 op arg _ updated
  have grown := only.1.trans effect.only.1
  have extends_iff := sound.extends_iff isField found
  have sizes : packet.size = Desc.size above.reverse + (desc.handler.size + Desc.size below) := by
    simp [size, isHeaders, Desc.size]
  refine ⟨?_, ?_, ?_, ?_⟩
  · exact sound.replace isHeaders grown rfl effect.inside
      ⟨effect.shaped, soundDesc.2.trans effect.group.symm⟩
  · obtain ⟨md, dirty, rest, isFirst⟩ := sound.metadata
    rw [isHeaders] at isFirst
    simp only [recorded, isHeaders]
    generalize above.reverse = front at isFirst
    cases front with
    | nil =>
      cases isFirst
      have isMetadata := effect.group
      cases handler' with
      | metadata md' =>
        obtain ⟨md₀, same, lengths⟩ := kept md' rfl
        cases same
        exact lengths
      | _ => cases isMetadata
    | cons first front =>
      cases isFirst
      rfl
  · intro plain
    rw [extends_iff] at plain
    have same := congrArg Handler.size (effect.form plain)
    rw [Handler.form_size, Handler.form_size] at same
    rw [sizes, ← same]
    simp [size, Desc.size]
  · intro extended
    have more := effect.size (extends_iff.mp extended)
    rw [sizes]
    simp [size, Desc.size]
    omega

end Packet

end Packets

end Lemming.Protocol

import Lemming.Protocol.Walk
import Lemming.Protocol.Splicing

set_option autoImplicit false

namespace Lemming.Protocol

open Shared Lemming.Packet

theorem Handler.layers_bytes (handler : Handler Bytes) :
    handler.layers.flatMap Prod.snd = handler.bytes := by
  cases handler with
  | ip linked headers => simp [layers, bytes, List.flatMap_map, IPHeader.layer]
  | _ => simp [layers, bytes]

section Placing

def part (off n : Nat) : Slice := ⟨0, off, n⟩

variable {heap : Heap UInt8} {off : Nat}

theorem covers_front {n m : Nat} {s : Slice} (covers : (part off n).Covers s) :
    (part off (n + m)).Covers s := by
  simp only [part, Slice.Covers] at covers ⊢
  omega

theorem covers_back {n m : Nat} {s : Slice} (covers : (part (off + n) m).Covers s) :
    (part off (n + m)).Covers s := by
  simp only [part, Slice.Covers] at covers ⊢
  omega

theorem get_part {n : Nat} {bytes : Bytes} (held : (part off n).get heap = bytes) (off' n' : Nat)
    (inside : off' + n' ≤ n) : (part (off + off') n').get heap = slice bytes off' n' := by
  rw [← held]
  exact Slice.get_sub (s := part off n) inside

theorem get_parts {front back : Bytes}
    (held : (part off (front ++ back).length).get heap = front ++ back) :
    (part off front.length).get heap = front ∧
      (part (off + front.length) back.length).get heap = back := by
  rw [List.length_append] at held
  constructor
  · have isFront := get_part held 0 front.length (by omega)
    rw [Nat.add_zero] at isFront
    rw [isFront]
    simp [slice]
  · rw [get_part held front.length back.length (by omega)]
    simp [slice]

namespace IPHeader

variable (ip : IPHeader Bytes)

theorem place_covered (off : Nat) :
    (∀ s ∈ (ip.place off).slices, (part off ip.bytes.length).Covers s) ∧
      ∀ s ∈ (ip.place off).reach, (part off ip.bytes.length).Covers s := by
  cases ip with
  | ip4 header payload => simp [place, slices, reach, bytes, part, Slice.Covers]
  | ip6 header payload => simp [place, slices, reach, bytes, part, Slice.Covers]
  | gre header key seq payload =>
    simp only [place, slices, reach, bytes, part, Slice.Covers, List.mem_cons, List.not_mem_nil,
      or_false, List.length_append, forall_eq_or_imp, forall_eq]
    refine ⟨⟨⟨trivial, ?_⟩, ⟨trivial, ?_⟩, trivial, ?_⟩, ⟨trivial, ?_⟩, ⟨trivial, ?_⟩, trivial, ?_⟩
    all_goals omega

theorem place_size (off : Nat) : (ip.place off).size = ip.bytes.length := by
  cases ip <;> simp [place, size, bytes, Nat.add_assoc]

theorem place_id (off : Nat) : (ip.place off).id = ip.id := by
  cases ip <;> rfl

theorem place_shaped {ip : IPHeader Bytes} (shaped : ip.Shaped List.length) (off : Nat) :
    (ip.place off).Shaped Slice.len := by
  cases ip <;> exact shaped

variable {headers : List (IPHeader Bytes)} {off : Nat}

theorem placeAll_covered :
    (∀ s ∈ (placeAll off headers).flatMap slices,
        (part off (headers.flatMap bytes).length).Covers s) ∧
      ∀ s ∈ (placeAll off headers).flatMap reach,
        (part off (headers.flatMap bytes).length).Covers s := by
  induction headers generalizing off with
  | nil => exact ⟨nofun, nofun⟩
  | cons ip inner ih =>
    obtain ⟨inSlices, inReach⟩ := ip.place_covered off
    obtain ⟨innerSlices, innerReach⟩ := @ih (off + ip.bytes.length)
    simp only [placeAll, List.flatMap_cons, List.mem_append, List.length_append]
    constructor
    · rintro s (here | there)
      · exact covers_front (inSlices s here)
      · exact covers_back (innerSlices s there)
    · rintro s (here | there)
      · exact covers_front (inReach s here)
      · exact covers_back (innerReach s there)

theorem placeAll_size :
    ((placeAll off headers).map size).sum = (headers.flatMap bytes).length := by
  induction headers generalizing off with
  | nil => rfl
  | cons ip inner ih =>
    simp only [placeAll, List.map_cons, List.sum_cons, place_size, ih, List.flatMap_cons,
      List.length_append]

theorem placeAll_shaped (shaped : ∀ ip ∈ headers, ip.Shaped List.length) :
    ∀ ip ∈ placeAll off headers, ip.Shaped Slice.len := by
  induction headers generalizing off with
  | nil => exact nofun
  | cons ip inner ih =>
    rintro placed (_ | ⟨_, mem⟩)
    · exact place_shaped (shaped ip List.mem_cons_self) off
    · exact ih (fun other isOther => shaped other (List.mem_cons_of_mem _ isOther)) placed mem

end IPHeader

namespace Handler

variable {handler : Handler Bytes}

theorem place_covered (handler : Handler Bytes) (off : Nat) :
    (∀ s ∈ (handler.place off).slices, (part off handler.bytes.length).Covers s) ∧
      ∀ s ∈ (handler.place off).reach, (part off handler.bytes.length).Covers s := by
  cases handler with
  | ip linked headers => exact IPHeader.placeAll_covered
  | _ => simp [place, slices, reach, bytes, part, Slice.Covers]

theorem place_size (handler : Handler Bytes) (off : Nat) :
    (handler.place off).size = handler.bytes.length := by
  cases handler with
  | ip linked headers => exact IPHeader.placeAll_size
  | _ => rfl

theorem place_group (handler : Handler Bytes) (off : Nat) :
    (handler.place off).group = handler.group := by
  cases handler <;> rfl

theorem place_shaped (shaped : handler.Shaped List.length) (off : Nat) :
    (handler.place off).Shaped Slice.len := by
  cases handler with
  | ip linked headers =>
    refine ⟨shaped.1, ?_, IPHeader.placeAll_shaped shaped.2.2⟩
    cases headers with
    | nil => exact absurd rfl shaped.2.1
    | cons ip inner => exact nofun
  | _ => exact shaped

end Handler

namespace Desc

variable {descs : List (Desc Bytes)} {off : Nat}

def bytes (descs : List (Desc Bytes)) : Bytes :=
  descs.flatMap fun desc => desc.handler.bytes

theorem layersOf_bytes (descs : List (Desc Bytes)) :
    (layersOf descs).flatMap Prod.snd = bytes descs := by
  rw [layersOf, List.flatMap_assoc]
  simp only [Handler.layers_bytes]
  rfl

theorem placeAll_covered :
    (∀ s ∈ slices (placeAll off descs), (part off (bytes descs).length).Covers s) ∧
      ∀ s ∈ reach (placeAll off descs), (part off (bytes descs).length).Covers s := by
  induction descs generalizing off with
  | nil => exact ⟨nofun, nofun⟩
  | cons desc below ih =>
    obtain ⟨inSlices, inReach⟩ := desc.handler.place_covered off
    obtain ⟨belowSlices, belowReach⟩ := @ih (off + desc.handler.bytes.length)
    simp only [slices, reach, bytes, placeAll, List.flatMap_cons, List.mem_append,
      List.length_append] at belowSlices belowReach ⊢
    constructor
    · rintro s (here | there)
      · exact covers_front (inSlices s here)
      · exact covers_back (belowSlices s there)
    · rintro s (here | there)
      · exact covers_front (inReach s here)
      · exact covers_back (belowReach s there)

theorem placeAll_size : size (placeAll off descs) = (bytes descs).length := by
  induction descs generalizing off with
  | nil => rfl
  | cons desc below ih =>
    have rest := @ih (off + desc.handler.bytes.length)
    simp only [size, placeAll, List.map_cons, List.sum_cons, Handler.place_size, bytes,
      List.flatMap_cons, List.length_append] at rest ⊢
    rw [rest]

theorem placeAll_length : (placeAll off descs).length = descs.length := by
  induction descs generalizing off with
  | nil => rfl
  | cons desc below ih => rw [placeAll, List.length_cons, List.length_cons, ih]

theorem placeAll_sound (fresh : ∀ desc ∈ descs, desc.Fresh) :
    ∀ desc ∈ placeAll off descs, desc.Sound := by
  induction descs generalizing off with
  | nil => exact nofun
  | cons desc below ih =>
    rintro placed (_ | ⟨_, mem⟩)
    · obtain ⟨-, fits, isGroup, -⟩ := fresh desc List.mem_cons_self
      exact ⟨Handler.place_shaped fits.shaped off, isGroup.trans (Handler.place_group _ _).symm⟩
    · exact ih (fun other isOther => fresh other (List.mem_cons_of_mem _ isOther)) placed mem

theorem placeAll_ordered {low : Nat} (ordered : Ordered low descs) :
    Ordered low (placeAll off descs) := by
  induction descs generalizing off low with
  | nil => trivial
  | cons desc below ih => exact ⟨ordered.1, ih ordered.2⟩

end Desc

namespace Packet

variable {packet : Packet} {start : HeaderId} {bytes spare tail : Bytes} {descs : List (Desc Bytes)}

theorem Fresh.sound (fresh : packet.Fresh start bytes spare descs)
    (covered : bytes = Desc.bytes descs ++ tail) :
    packet.Sound ∧ packet.size = (Desc.bytes descs).length ∧ packet.recorded = bytes.length := by
  obtain ⟨rfl, ordered, freshAll⟩ := fresh
  refine ⟨⟨⟨_, _, _, rfl⟩, ⟨Nat.zero_le _, Desc.placeAll_ordered ordered⟩, ?_, ?_⟩, ?_, rfl⟩
  · rw [Desc.inside_iff]
    intro s mem
    have covers := Desc.placeAll_covered.1 s mem
    refine covers.inside ⟨Nat.zero_lt_one, ?_⟩
    rw [covered]
    simp [part, Heap.array]
  · rintro desc (_ | ⟨_, mem⟩)
    · exact ⟨trivial, rfl⟩
    · exact Desc.placeAll_sound freshAll desc mem
  · have placed : Desc.size (Desc.placeAll 0 descs) = (Desc.bytes descs).length := Desc.placeAll_size
    simp only [size, Desc.size, List.map_cons, List.sum_cons, metadataDesc, Handler.size,
      Nat.zero_add] at placed ⊢
    exact placed

theorem newPacket_ok {fuel : Nat} (isOk : newPacket fuel start bytes spare = .ok packet) :
    ∃ descs tail, packetFormat.Layout (resolve start bytes) bytes (layersOf descs) tail ∧
      packet.Fresh start bytes spare descs ∧ bytes = Desc.bytes descs ++ tail := by
  have notMetadata : start ≠ .metadata := by
    rintro rfl
    rw [newPacket_metadata] at isOk
    cases isOk
  have walk := newPacket_walk notMetadata fuel bytes spare
  rw [isOk] at walk
  cases walk with
  | @read _ layers next rest path is =>
    obtain ⟨rfl, descs, fresh, rfl⟩ := is
    refine ⟨descs, rest, path, fresh, ?_⟩
    rw [← Desc.layersOf_bytes]
    exact path.frame_eq

end Packet

end Placing

inductive Operation where
  | update (id : FieldID) (op : UpdateOp) (arg : Bytes)
  | encap (id : HeaderId)
  | decap (id : HeaderId)

namespace Packet

def apply (packet : Packet) : Operation → Outcome Packet
  | .update id op arg => packet.update id op arg
  | .encap id => packet.encap id
  | .decap id => packet.decap id

def Along (P : Packet → Prop) : List Operation → Packet → Prop
  | [], packet => P packet
  | op :: ops, packet => P packet ∧ ∀ next, packet.apply op = .ok next → Along P ops next

def Steps (Q : Packet → Operation → Prop) : List Operation → Packet → Prop
  | [], _ => True
  | op :: ops, packet => ∀ next, packet.apply op = .ok next → Q packet op ∧ Steps Q ops next

def Counted (packet : Packet) : Prop :=
  packet.frame.Yields fun (bytes, _) => packet.length = .ok (bytes.length % 2 ^ 64)

def Adds (packet : Packet) : Operation → Prop
  | .update id _ _ => packet.Extends id
  | _ => False

variable {packet next : Packet} {op : Operation}

theorem counted_iff (sound : packet.Sound) :
    packet.Counted ↔ packet.recorded % 2 ^ 64 = packet.size % 2 ^ 64 := by
  obtain ⟨⟨bytes, after⟩, isFrame, length, -⟩ := frame_yields sound
  rw [Counted, isFrame, length_recorded sound]
  constructor
  · rintro ⟨value, isValue, same⟩
    cases isValue
    rw [← length]
    exact Outcome.ok.inj same
  · intro same
    refine .pure (congrArg Outcome.ok ?_)
    rw [same, length]

theorem apply_keeps (sound : packet.Sound) (recorded : packet.recorded = packet.size)
    (plain : ¬ packet.Adds op) (isOk : packet.apply op = .ok next) :
    next.Sound ∧ next.recorded = next.size := by
  cases op with
  | update id op arg =>
    obtain ⟨sound', sameRecord, sameSize, -⟩ := update_effect sound isOk
    exact ⟨sound', by rw [sameRecord, sameSize plain, recorded]⟩
  | encap id =>
    have spliced := encap_spliced sound isOk
    exact ⟨spliced.sound, spliced.recorded⟩
  | decap id =>
    have spliced := decap_spliced sound isOk
    exact ⟨spliced.sound, spliced.recorded⟩

theorem apply_breaks (sound : packet.Sound) (recorded : packet.recorded = packet.size)
    (adds : packet.Adds op) (isOk : packet.apply op = .ok next) : ¬ next.Counted := by
  cases op with
  | update id op arg =>
    obtain ⟨sound', sameRecord, -, more⟩ := update_effect sound isOk
    rw [counted_iff sound', sameRecord, recorded, more adds]
    omega
  | _ => exact adds.elim

theorem Along.head {P : Packet → Prop} {ops : List Operation} (along : packet.Along P ops) :
    P packet := by
  cases ops with
  | nil => exact along
  | cons op ops => exact along.1

theorem along_counted {ops : List Operation} (sound : packet.Sound)
    (recorded : packet.recorded = packet.size) :
    packet.Along Counted ops ↔ packet.Steps (fun packet op => ¬ packet.Adds op) ops := by
  have counted : packet.Counted := (counted_iff sound).mpr (by rw [recorded])
  induction ops generalizing packet with
  | nil => exact iff_of_true counted trivial
  | cons op ops ih =>
    refine ⟨fun along next isOk => ?_, fun steps => ⟨counted, fun next isOk => ?_⟩⟩
    · have onward := along.2 next isOk
      have plain : ¬ packet.Adds op := fun adds => apply_breaks sound recorded adds isOk onward.head
      obtain ⟨sound', recorded'⟩ := apply_keeps sound recorded plain isOk
      exact ⟨plain, (ih sound' recorded' onward.head).mp onward⟩
    · obtain ⟨plain, onward⟩ := steps next isOk
      obtain ⟨sound', recorded'⟩ := apply_keeps sound recorded plain isOk
      exact (ih sound' recorded' ((counted_iff sound').mpr (by rw [recorded']))).mpr onward

end Packet

theorem length_counts_frame_iff {fuel : Nat} {start : HeaderId} {bytes spare : Bytes} {packet : Packet}
    (parsed : newPacket fuel start bytes spare = .ok packet) (small : bytes.length < 2 ^ 63)
    (ops : List Operation) :
    packet.Along Packet.Counted ops ↔
      (∃ layers, packetFormat.Layout (resolve start bytes) bytes layers []) ∧
        packet.Steps (fun packet op => ¬ packet.Adds op) ops := by
  obtain ⟨descs, tail, layout, fresh, covered⟩ := Packet.newPacket_ok parsed
  obtain ⟨sound, size, recorded⟩ := fresh.sound covered
  have total : bytes.length = (Desc.bytes descs).length + tail.length := by
    rw [covered, List.length_append]
  have counted : packet.Counted ↔ tail = [] := by
    rw [Packet.counted_iff sound, size, recorded, ← List.length_eq_zero_iff]
    omega
  constructor
  · intro along
    have whole := counted.mp along.head
    subst whole
    refine ⟨⟨_, layout⟩, (Packet.along_counted sound ?_).mp along⟩
    rw [size, recorded, total, List.length_nil, Nat.add_zero]
  · rintro ⟨⟨layers, whole⟩, steps⟩
    obtain ⟨-, -, none⟩ := layout.unique packetFormat_deterministic (packetFormat_deterministic.stop _)
      whole (packetFormat_deterministic.stop _)
    refine (Packet.along_counted sound ?_).mpr steps
    rw [size, recorded, total, none, List.length_nil, Nat.add_zero]

theorem length_counts_frame_opaque :
    ∃ packet, newPacket 3 .opaqueData [1, 2, 3] [] = .ok packet ∧
      packet.Along Packet.Counted [.encap .ethernet, .decap .ethernet] := by
  obtain ⟨packet, parsed⟩ : ∃ packet, newPacket 3 .opaqueData [1, 2, 3] [] = .ok packet := ⟨_, rfl⟩
  refine ⟨packet, parsed, (length_counts_frame_iff parsed (by decide) _).mpr ⟨?_, ?_⟩⟩
  · have reads : packetFormat.Reads .opaqueData [1, 2, 3] [] := rfl
    have ends : packetFormat.Path .none [] [] .none [] := .here _ _
    exact ⟨[(.opaqueData, [1, 2, 3])], .header reads ends⟩
  · exact fun _ _ => ⟨id, fun _ _ => ⟨id, trivial⟩⟩

-- An ARP header is followed by padding, which is dropped but counted.
theorem length_counts_padding :
    ∃ packet after, newPacket 3 .arp (List.replicate 29 0) [] = .ok packet ∧
      packet.length = .ok 29 ∧ packet.frame = .ok (List.replicate 28 0, after) :=
  ⟨_, _, rfl, rfl, rfl⟩

end Lemming.Protocol

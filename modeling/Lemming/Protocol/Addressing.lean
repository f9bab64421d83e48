import Lemming.Protocol.Emission

set_option autoImplicit false

namespace Lemming.Protocol

open Shared Lemming.Packet

def locate : List Bytes → Nat → Option (Bytes × Nat)
  | [], _ => none
  | header :: headers, offset =>
    if offset < header.length then some (header, offset)
    else locate headers (offset - header.length)

theorem locate_slice {headers : List Bytes} {offset place n : Nat} {header : Bytes}
    (found : locate headers offset = some (header, place)) (fits : place + n ≤ header.length) :
    slice headers.flatten offset n = slice header place n := by
  induction headers generalizing offset with
  | nil => cases found
  | cons first headers ih =>
    rw [locate] at found
    split at found
    · cases found
      exact slice_append fits _
    · rename_i behind
      rw [← ih found, List.flatten_cons, slice, slice,
        List.drop_append, List.drop_eq_nil_of_le (by omega), List.nil_append]

section Picking

variable {present : List (HeaderGroup × Bytes)} {offset : UInt8} {header : Bytes} {place : Nat}

def pick : List (HeaderGroup × Bytes) → UInt8 → Option (HeaderGroup × UInt8)
  | [], _ => none
  | (group, header) :: present, offset =>
    if offset < UInt8.ofNat header.length then some (group, offset)
    else pick present (offset - UInt8.ofNat header.length)

theorem below_length {n : Nat} : offset < UInt8.ofNat n ↔ offset.toNat < n % 256 := by
  rw [UInt8.lt_iff_toNat_lt, UInt8.toNat_ofNat']

theorem behind_short {n : Nat} (behind : ¬ offset.toNat < n) :
    ¬ offset < UInt8.ofNat n ∧ (offset - UInt8.ofNat n).toNat = offset.toNat - n := by
  have small := offset.toNat_lt
  have isNat : (UInt8.ofNat n).toNat = n := by
    rw [UInt8.toNat_ofNat']
    exact Nat.mod_eq_of_lt (by omega)
  refine ⟨by rw [below_length]; omega, ?_⟩
  rw [UInt8.toNat_sub_of_le _ _ (by rw [UInt8.le_iff_toNat_le, isNat]; omega), isNat]

theorem pick_located (found : locate (present.map Prod.snd) offset.toNat = some (header, place))
    (low : place < header.length % 256) :
    ∃ group offset', pick present offset = some (group, offset') ∧ offset'.toNat = place ∧
      (group, header) ∈ present := by
  induction present generalizing offset with
  | nil => cases found
  | cons first present ih =>
    obtain ⟨group, first⟩ := first
    rw [List.map_cons, locate] at found
    rw [pick]
    split at found
    · cases found
      exact ⟨group, offset, if_pos (below_length.mpr low), rfl, List.mem_cons_self⟩
    · rename_i behind
      obtain ⟨passed, isNat⟩ := behind_short behind
      rw [← isNat] at found
      obtain ⟨group', offset', isPick, isPlace, mem⟩ := ih found
      exact ⟨group', offset', by rw [if_neg passed, isPick], isPlace, List.mem_cons_of_mem _ mem⟩

theorem pick_empty (empty : ∀ entry ∈ present, entry.2 = []) (offset : UInt8) :
    pick present offset = none := by
  induction present generalizing offset with
  | nil => rfl
  | cons first present ih =>
    obtain ⟨group, first⟩ := first
    obtain rfl : first = [] := empty _ List.mem_cons_self
    rw [pick, if_neg (by simp)]
    exact ih (fun entry mem => empty entry (List.mem_cons_of_mem _ mem)) _

theorem pick_passed (found : locate (present.map Prod.snd) offset.toNat = some (header, place))
    (high : ¬ place < header.length % 256)
    (last : present.Pairwise fun a b => 256 ≤ a.2.length → b.2 = []) :
    pick present offset = none := by
  induction present generalizing offset with
  | nil => cases found
  | cons first present ih =>
    obtain ⟨group, first⟩ := first
    rw [List.map_cons, locate] at found
    rw [pick]
    split at found
    · cases found
      rw [if_neg (by rwa [below_length])]
      exact pick_empty (fun entry mem => (List.pairwise_cons.mp last).1 entry mem (by omega)) _
    · rename_i behind
      obtain ⟨passed, isNat⟩ := behind_short behind
      rw [if_neg passed]
      rw [← isNat] at found
      exact ih found (List.pairwise_cons.mp last).2

end Picking

section Walking

def presentIn (heap : Heap UInt8) (headers : List (Desc Slice)) (groups : List HeaderGroup) :
    List (HeaderGroup × Bytes) :=
  groups.filterMap fun group =>
    (headers.find? (·.group = group)).map fun desc => (group, (desc.handler.header heap).2)

variable {heap : Heap UInt8} {headers : List (Desc Slice)}

theorem udfLoop_pick (clean : ∀ desc ∈ headers, (desc.handler.header heap).1 = heap)
    (groups : List HeaderGroup) (offset : UInt8) :
    Packet.udfLoop headers heap groups offset =
      (heap, pick (presentIn heap headers groups) offset) := by
  induction groups generalizing offset with
  | nil => rfl
  | cons group groups ih =>
    have isFind := @slot_find group [] headers
    rw [Packet.udfLoop, presentIn, List.filterMap_cons, ← isFind]
    cases found : slot group [] headers with
    | none => exact ih offset
    | some place =>
      obtain ⟨above, desc, below⟩ := place
      rw [found] at isFind
      have isClean := clean desc (List.mem_of_find?_eq_some isFind.symm)
      simp only [Option.map_some, isClean, pick]
      split
      · rfl
      · exact ih _

theorem Desc.Ordered.increasing {low : Nat} (ordered : Desc.Ordered low headers) :
    headers.Pairwise fun a b => a.group.position < b.group.position := by
  induction headers generalizing low with
  | nil => exact .nil
  | cons desc below ih =>
    exact .cons (fun other mem => ordered.2.low_le other mem) (ih ordered.2)

theorem presentIn_last {low : Nat} (inside : Desc.Inside heap headers)
    (ordered : Desc.Ordered low headers)
    (last : headers.Pairwise fun a b => 256 ≤ a.handler.size → b.handler.size = 0) (skip : Nat) :
    (presentIn heap headers (sequence.drop skip)).Pairwise fun a b => 256 ≤ a.2.length → b.2 = [] := by
  -- Of any two headers the one of the earlier group stands first.
  have both {a b : Desc Slice} (isA : a ∈ headers) (isB : b ∈ headers)
      (less : a.group.position < b.group.position) : 256 ≤ a.handler.size → b.handler.size = 0 := by
    obtain ⟨front, back, rfl⟩ := List.append_of_mem isA
    have increasing := ordered.increasing
    rw [List.pairwise_append] at last increasing
    rcases List.mem_append.mp isB with before | after
    · exact absurd (increasing.2.2 b before a List.mem_cons_self) (Nat.lt_asymm less)
    rcases List.mem_cons.mp after with rfl | after
    · exact absurd less (Nat.lt_irrefl _)
    · exact (List.pairwise_cons.mp last.2.1).1 b after
  have groups : (sequence.drop skip).Pairwise fun g h => g.position < h.position :=
    List.Pairwise.sublist (List.drop_sublist _ _) (by decide)
  rw [presentIn, List.pairwise_filterMap]
  refine groups.imp fun {g h} before => ?_
  intro entry isEntry entry' isEntry'
  obtain ⟨desc, found, rfl⟩ := Option.map_eq_some_iff.mp isEntry
  obtain ⟨desc', found', rfl⟩ := Option.map_eq_some_iff.mp isEntry'
  have mem := List.mem_of_find?_eq_some found
  have mem' := List.mem_of_find?_eq_some found'
  have isGroup : desc.group = g := by simpa using List.find?_some found
  have isGroup' : desc'.group = h := by simpa using List.find?_some found'
  intro long
  rw [Handler.header_length (inside desc mem)] at long
  refine List.eq_nil_of_length_eq_zero ?_
  rw [Handler.header_length (inside desc' mem')]
  exact both mem mem' (by rw [isGroup, isGroup']; exact before) long

end Walking

section Reading

variable {heap : Heap UInt8} {id : FieldID}

theorem Handler.field_udf {handler : Handler Slice} (inside : handler.Inside heap)
    (udf : id.isUDF = true) (unnamed : id.num = 0)
    (plain : handler.Each fun headers => ∃ ip, headers = [ip] ∧ ip.id ≠ .gre)
    (nonempty : (handler.header heap).2 ≠ [])
    (fits : id.offset.toNat + id.size.toNat ≤ (handler.header heap).2.length) :
    handler.field heap id =
      .ok (slice (handler.header heap).2 id.offset.toNat id.size.toNat) := by
  have read {header : Slice} (inHeader : header.Inside heap)
      (fits : id.offset.toNat + id.size.toNat ≤ (header.get heap).length) :
      (∀ places, FieldRef.find places header id = some (.part id.offset.toNat id.size.toNat)) ∧
        (header.sub id.offset.toNat id.size.toNat).get heap =
          slice (header.get heap) id.offset.toNat id.size.toNat := by
    rw [Slice.get_length inHeader] at fits
    refine ⟨fun places => ?_, Slice.get_sub fits⟩
    rw [FieldRef.find, if_pos udf, FieldRef.within, if_neg (Nat.not_lt.mpr fits)]
  cases handler with
  | metadata md => exact absurd rfl nonempty
  | ip linked headers =>
    obtain ⟨ip, rfl, notGRE⟩ := plain linked headers rfl
    cases ip with
    | gre header key seq payload => exact absurd rfl notGRE
    | ip4 header payload | ip6 header payload =>
      simp only [Handler.header, IPHeader.headerAll, IPHeader.header, List.flatMap_cons,
        List.flatMap_nil, List.append_nil] at nonempty fits ⊢
      obtain ⟨isPart, isRead⟩ := read (inside header (by simp [slices, IPHeader.slices])) fits
      simp [Handler.field, IPHeader.lookup, IPHeader.lookupLoop, unnamed, IPHeader.id, IPHeader.find,
        IPHeader.field, udf, isPart, FieldRef.get, isRead, keyField, sequenceField]
  | ethernet eth =>
    obtain ⟨isPart, isRead⟩ := read (inside eth.header (by simp [slices])) fits
    simp [Handler.field, Ethernet.readField, Ethernet.field, udf, isPart, FieldRef.get, isRead,
      Handler.header]
  | tcp header =>
    obtain ⟨isPart, isRead⟩ := read (inside header (by simp [slices])) fits
    simp [Handler.field, udf, isPart, FieldRef.get, isRead, Handler.header]
  | icmp6 type options header =>
    obtain ⟨isPart, isRead⟩ := read (inside header (by simp [slices])) fits
    simp [Handler.field, icmp6Field, plainField, isPart, FieldRef.get, isRead, Handler.header]
  | udp header | arp header | icmp4 header | opaqueData header =>
    obtain ⟨isPart, isRead⟩ := read (inside header (by simp [slices])) fits
    simp [Handler.field, plainField, isPart, FieldRef.get, isRead, Handler.header]

end Reading

section Parsed

theorem reads_short {id : HeaderId} {header rest : Bytes} (reads : Reads id header rest) :
    header.length < 256 ∨ rest = [] := by
  have octets (off n : Nat) : octetsValue (slice header off n) < 256 ^ n :=
    (octetsValue_lt _).trans_le (Nat.pow_le_pow_right (by decide) (List.length_take_le _ _))
  cases id with
  | ethernet | ethernetVlan | ethernet1Q =>
    rw [Reads.eq_def] at reads
    have := Ethernet.newEthernet_size (etherType header)
    exact Or.inl (by dsimp only at reads; omega)
  | ip4 => exact Or.inl (by have := reads.2; unfold ihl at this; omega)
  | ip6 | arp => exact Or.inl (by rw [show header.length = _ from reads]; decide)
  | gre =>
    have isLength : header.length = 4 + 4 * greFlag header 5 + 4 * greFlag header 4 := reads
    unfold greFlag at isLength
    exact Or.inl (by omega)
  | tcp =>
    have isLength := reads.2
    have small := octets 12 2
    unfold dataOffset at isLength
    exact Or.inl (by omega)
  | udp | icmp4 => exact Or.inr reads.2
  | icmp6 => exact Or.inr reads.2.1
  | opaqueData => exact Or.inr reads
  | _ => exact reads.elim

theorem resolve_ne_gre (start : HeaderId) (frame : Bytes) : resolve start frame ≠ .gre := by
  cases start with
  | ip =>
    rw [resolve]
    split
    · rintro ⟨⟩
    split <;> rintro ⟨⟩
  | ethernet | ethernetVlan | ethernet1Q =>
    rcases newEthernet_id (etherType frame) with isID | isID | isID <;>
      rw [resolve, isID] <;> rintro ⟨⟩
  | _ => rintro ⟨⟩

theorem follow_ne_gre {id : HeaderId} {header : Bytes} (outside : ¬ id.InTunnel) :
    follow id header ≠ .gre := by
  have known : ∀ entry ∈ nextHeader, entry.2 ≠ .gre := by decide
  have announced (value : Nat) : (nextHeader.lookup value).getD .opaqueData ≠ .gre := by
    cases found : nextHeader.lookup value with
    | none => rintro ⟨⟩
    | some id => exact known _ (lookup_entry found)
  cases id with
  | ethernet | ethernetVlan | ethernet1Q => exact announced _
  | ip4 | ip6 | gre => exact absurd (by simp [HeaderId.InTunnel]) outside
  | _ => rintro ⟨⟩

variable {desc : Desc Bytes} {descs : List (Desc Bytes)} {id : HeaderId} {frame tail : Bytes}

def Desc.Single (desc : Desc Bytes) : Prop :=
  ∃ id, desc.handler.layers = [(id, desc.handler.bytes)] ∧ (id.InTunnel → desc.group = .l3)

theorem Desc.Fresh.single (fresh : desc.Fresh)
    (few : ∀ linked headers, desc.handler = .ip linked headers → headers.length ≤ 1) :
    desc.Single := by
  obtain ⟨group, handler, dirty⟩ := desc
  obtain ⟨nonempty, fits, isGroup, -⟩ := fresh
  cases handler with
  | metadata md => exact absurd rfl nonempty
  | ethernet eth =>
    have isID := newEthernet_id (etherType eth.header)
    rw [show newEthernet _ = _ from fits] at isID
    refine ⟨eth.id, rfl, fun inTunnel => ?_⟩
    rcases isID with isID | isID | isID <;> rw [show eth.id = _ from isID] at inTunnel <;>
      exact absurd inTunnel (by decide)
  | ip linked headers =>
    rcases headers with _ | ⟨ip, _ | ⟨other, inner⟩⟩
    · exact absurd rfl nonempty
    · exact ⟨ip.id, by simp [Handler.layers, Handler.bytes, IPHeader.layer], fun _ => isGroup⟩
    · exact absurd (few _ _ rfl) (by simp)
  | _ => exact ⟨_, rfl, by rintro (⟨⟨⟩⟩ | ⟨⟨⟩⟩ | ⟨⟨⟩⟩)⟩

theorem single_path : ∀ {descs : List (Desc Bytes)} {id : HeaderId} {frame : Bytes} {low : Nat},
    packetFormat.Path id frame (layersOf descs) .none tail → (∀ desc ∈ descs, desc.Single) →
      Desc.Ordered low descs → (id = .gre → 2 < low) →
      (descs.map fun desc => desc.handler.bytes.length).Pairwise (fun a b => 256 ≤ a → b = 0) ∧
        ∀ layer ∈ layersOf descs, layer.1 ≠ .gre
  | [], _, _, _, _, _, _, _ => ⟨.nil, by rintro layer ⟨⟩⟩
  | desc :: below, id, frame, low, path, single, ordered, start => by
    obtain ⟨id', isLayers, isL3⟩ := single desc List.mem_cons_self
    have cut : layersOf (desc :: below) = (id', desc.handler.bytes) :: layersOf below := by
      rw [layersOf, List.flatMap_cons, isLayers]
      rfl
    rw [cut] at path ⊢
    cases path with
    | @header _ _ _ after _ _ reads onward =>
      obtain ⟨last, noGRE⟩ := single_path onward
        (fun other mem => single other (List.mem_cons_of_mem _ mem)) ordered.2 fun isGRE => by
          have inTunnel : id.InTunnel := by
            by_contra outside
            simp only [packetFormat, outside, false_and, if_false] at isGRE
            exact follow_ne_gre outside isGRE
          rw [isL3 inTunnel]
          decide
      refine ⟨.cons (fun n mem long => ?_) last, ?_⟩
      · obtain ⟨other, isOther, rfl⟩ := List.mem_map.mp mem
        have none : after = [] := (reads_short reads).resolve_left (Nat.not_lt.mpr long)
        have empty := onward.frame_eq
        rw [none, Desc.layersOf_bytes, eq_comm, List.append_eq_nil_iff] at empty
        rw [List.flatMap_eq_nil_iff.mp empty.1 other isOther]
        rfl
      · rintro layer (_ | ⟨_, mem⟩)
        · rintro rfl
          have late := start rfl
          have early := ordered.1
          rw [isL3 (by decide)] at early
          exact absurd late (Nat.not_lt.mpr early)
        · exact noGRE layer mem

theorem placeAll_sizes {off : Nat} :
    (Desc.placeAll off descs).map (fun desc => desc.handler.size) =
      descs.map fun desc => desc.handler.bytes.length := by
  induction descs generalizing off with
  | nil => rfl
  | cons desc below ih => rw [Desc.placeAll, List.map_cons, List.map_cons, ih, Handler.place_size]

theorem few_placed {off : Nat}
    (few : ∀ placed ∈ Desc.placeAll off descs, placed.handler.Each fun headers => headers.length ≤ 1) :
    ∀ desc ∈ descs, ∀ linked headers, desc.handler = .ip linked headers → headers.length ≤ 1 := by
  induction descs generalizing off with
  | nil => rintro desc ⟨⟩
  | cons first below ih =>
    rintro desc (_ | ⟨_, mem⟩) linked headers isIP
    · have here := few _ List.mem_cons_self linked (IPHeader.placeAll off headers) (by rw [isIP]; rfl)
      rcases headers with _ | ⟨ip, _ | ⟨other, inner⟩⟩
      · exact Nat.zero_le 1
      · exact Nat.le_refl 1
      · exact absurd here (by simp [IPHeader.placeAll])
    · exact ih (fun placed isPlaced => few placed (List.mem_cons_of_mem _ isPlaced)) desc mem linked
        headers isIP

theorem plain_placed {off : Nat} (single : ∀ desc ∈ descs, desc.Single)
    (noGRE : ∀ layer ∈ layersOf descs, layer.1 ≠ .gre) :
    ∀ placed ∈ Desc.placeAll off descs,
      placed.handler.Each fun headers => ∃ ip, headers = [ip] ∧ ip.id ≠ .gre := by
  induction descs generalizing off with
  | nil => rintro placed ⟨⟩
  | cons desc below ih =>
    rintro placed (_ | ⟨_, mem⟩)
    · intro linked headers isIP
      obtain ⟨id, isLayers, -⟩ := single desc List.mem_cons_self
      have noGRE := noGRE (id, desc.handler.bytes) (by simp [layersOf, isLayers])
      cases isHandler : desc.handler with
      | ip linked' headers' =>
        rw [isHandler] at isIP isLayers
        cases isIP
        rcases headers' with _ | ⟨ip, _ | ⟨other, inner⟩⟩
        · cases isLayers
        · have isID : ip.id = id := congrArg Prod.fst (List.cons.inj isLayers).1
          exact ⟨_, rfl, by rwa [ip.place_id, isID]⟩
        · cases (List.cons.inj isLayers).2
      | _ => rw [isHandler] at isIP; cases isIP
    · exact ih (fun other isOther => single other (List.mem_cons_of_mem _ isOther))
        (fun layer isLayer => noGRE layer (List.mem_append_right _ isLayer)) placed mem

def Packet.headersFrom (packet : Packet) (group : HeaderGroup) : List Bytes :=
  (presentIn packet.heap packet.headers (sequence.drop group.position)).map Prod.snd

theorem udf_addresses_frame_iff {fuel : Nat} {start : HeaderId} {bytes spare : Bytes} {packet : Packet}
    (parsed : newPacket fuel start bytes spare = .ok packet)
    (few : packet.Each fun headers => headers.length ≤ 1) {number : Int32} {group : HeaderGroup}
    (known : groupNumbers.lookup number = some group) (offset size inst : UInt8) {header : Bytes}
    {place : Nat} (found : locate (packet.headersFrom group) offset.toNat = some (header, place))
    (within : place + size.toNat ≤ header.length) :
    (∃ after, packet.field { isUDF := true, header := number, offset, size, inst } =
        .ok (slice (packet.headersFrom group).flatten offset.toNat size.toNat, after)) ↔
      place < header.length % 256 := by
  obtain ⟨descs, tail, layout, fresh, covered⟩ := Packet.newPacket_ok parsed
  obtain ⟨sound, -, -⟩ := fresh.sound covered
  have isHeaders : packet.headers = metadataDesc bytes.length :: Desc.placeAll 0 descs := by
    rw [fresh.packet_eq]
  have single : ∀ desc ∈ descs, desc.Single := fun desc mem => (fresh.fresh desc mem).single
    (few_placed (fun placed isPlaced => few placed
      (by rw [isHeaders]; exact List.mem_cons_of_mem _ isPlaced)) desc mem)
  obtain ⟨last, noGRE⟩ := single_path layout single fresh.ordered
    fun isGRE => absurd isGRE (resolve_ne_gre _ _)
  have plain : packet.Each fun headers => ∃ ip, headers = [ip] ∧ ip.id ≠ .gre := by
    rw [Packet.Each, isHeaders]
    rintro desc (_ | ⟨_, mem⟩)
    · rintro linked headers ⟨⟩
    · exact plain_placed single noGRE desc mem
  have clean : ∀ desc ∈ packet.headers, (desc.handler.header packet.heap).1 = packet.heap := by
    intro desc mem
    refine Handler.header_compact (sound.inside desc mem) ?_
    rw [isHeaders] at mem
    rcases List.mem_cons.mp mem with rfl | mem
    · trivial
    · exact Desc.placeAll_compact desc mem
  have lastPlaced : packet.headers.Pairwise fun a b => 256 ≤ a.handler.size → b.handler.size = 0 := by
    rw [isHeaders]
    refine .cons (fun _ _ long => absurd long (by simp [metadataDesc, Handler.size])) ?_
    rw [← placeAll_sizes, List.pairwise_map] at last
    exact last
  have isDesc : ∀ picked, pick (presentIn packet.heap packet.headers (sequence.drop group.position))
      offset = picked → packet.fieldDesc { isUDF := true, header := number, offset, size, inst } =
        .ok (packet.heap, picked.map Prod.fst,
          { isUDF := true, header := number, offset := (picked.map Prod.snd).getD offset, size, inst })
      := by
    rintro picked rfl
    simp only [Packet.fieldDesc, if_true, known, udfLoop_pick clean]
    cases pick _ offset <;> rfl
  rw [locate_slice found within]
  constructor
  · rintro ⟨after, isOk⟩
    by_contra high
    rw [Packet.field, isDesc none
      (pick_passed found high (presentIn_last sound.inside sound.ordered lastPlaced _))] at isOk
    cases isOk
  · intro low
    obtain ⟨group', offset', isPick, rfl, mem⟩ := pick_located found low
    obtain ⟨g, -, isEntry⟩ := List.mem_filterMap.mp mem
    obtain ⟨desc, isFind, same⟩ := Option.map_eq_some_iff.mp isEntry
    cases same
    have isDescs := List.mem_of_find?_eq_some isFind
    rw [← @slot_find group' [] packet.headers] at isFind
    obtain ⟨⟨above, desc', below⟩, isSlot, rfl⟩ := Option.map_eq_some_iff.mp isFind
    have isField : desc'.handler.field packet.heap
        { isUDF := true, header := number, offset := offset', size, inst } = .ok _ :=
      Handler.field_udf (sound.inside _ isDescs) rfl rfl (plain _ isDescs)
        (by rintro none; rw [none] at low; cases low) within
    refine ⟨packet, ?_⟩
    simp only [Packet.field, isDesc _ isPick, Outcome.ok_bind, Option.map_some, Option.getD_some,
      Option.bind_some, isSlot, isField, Outcome.wrap_ok]
    rfl

theorem udf_addresses_frame_short :
    ∃ packet, newPacket 6 .opaqueData [1, 2, 3] [] = .ok packet ∧
      ((∃ after, packet.field { isUDF := true, header := 6, offset := 1, size := 2 } =
          .ok (slice (packet.headersFrom .payload).flatten 1 2, after)) ↔ 1 < 3 % 256) := by
  obtain ⟨packet, parsed, isPacket⟩ : ∃ packet, newPacket 6 .opaqueData [1, 2, 3] [] = .ok packet ∧
      packet = ⟨.opaqueData, [[1, 2, 3]], [metadataDesc 3,
        ⟨.payload, .opaqueData ⟨0, 0, 3⟩, false⟩]⟩ := ⟨_, rfl, rfl⟩
  refine ⟨packet, parsed, @udf_addresses_frame_iff _ _ _ _ _ parsed ?_ 6 .payload rfl 1 2 0 [1, 2, 3]
    1 ?_ (by decide)⟩
  · subst isPacket
    rintro desc (_ | ⟨_, _ | ⟨_, ⟨⟩⟩⟩) linked headers ⟨⟩
  · subst isPacket
    rfl

theorem udf_misses_long :
    (do
      let packet ← newPacket 6 .opaqueData (List.replicate 256 7) []
      let (field, _) ← packet.field { isUDF := true, header := 6, offset := 0, size := 1 }
      return field) = Outcome.error "Field failed for packet, Header does not exist" := by
  decide +kernel

end Parsed

end Lemming.Protocol

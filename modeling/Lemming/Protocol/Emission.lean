import Lemming.Protocol.Settling

set_option autoImplicit false

namespace Lemming.Protocol

open Shared Lemming.Packet

variable {heap : Heap UInt8} {off : Nat}

theorem firstOf_path {id : HeaderId} {frame tail : Bytes} {layers : Layers}
    (path : packetFormat.Path id frame layers .none tail) : id = firstOf .none layers := by
  cases path <;> rfl

theorem setValue_same {header : Slice} {at' n value : Nat} (inside : header.Inside heap)
    (fits : at' + n ≤ header.len) (numeric : n = 1 ∨ n = 2 ∨ n = 4 ∨ n = 8)
    (here : octetsValue (slice (header.get heap) at' n) = value) :
    Header.setValue heap header at' n value = .ok heap := by
  have part : (header.sub at' n).get heap = slice (header.get heap) at' n := Slice.get_sub fits
  have length : ((header.sub at' n).get heap).length = n :=
    Slice.get_length ((Slice.covers_sub fits).inside inside)
  have octets : octetsOf n value = (header.sub at' n).get heap := by
    have back := octetsOf_octetsValue ((header.sub at' n).get heap)
    rw [length, part, here] at back
    rw [back, part]
  rw [Header.setValue, if_neg (by omega), if_pos numeric, octets,
    Slice.set_get ((Slice.covers_sub fits).inside inside)]

namespace IPHeader

theorem place_whole (ip : IPHeader Bytes) (off : Nat) : (ip.place off).whole = part off ip.bytes.length := by
  cases ip with
  | gre header key seq payload => simp [place, whole, part, bytes, Nat.add_assoc]
  | _ => rfl

theorem held_placeAll {headers : List (IPHeader Bytes)}
    (stored : (part off (headers.flatMap bytes).length).get heap = headers.flatMap bytes) :
    (placeAll off headers).map (held heap) = headers.map layer := by
  induction headers generalizing off with
  | nil => rfl
  | cons ip inner ih =>
    obtain ⟨isFirst, isRest⟩ := get_parts stored
    rw [placeAll, List.map_cons, List.map_cons, ih isRest, held, place_whole, isFirst, place_id]
    rfl

theorem placeAll_separate {headers : List (IPHeader Bytes)} :
    (placeAll off headers).Pairwise Separate := by
  induction headers generalizing off with
  | nil => exact .nil
  | cons ip inner ih =>
    refine .cons (fun other mem s isFirst t isOther => ?_) ih
    have first := (place_covered ip off).2 s isFirst
    have later := placeAll_covered.2 t (List.mem_flatMap.mpr ⟨other, mem, isOther⟩)
    simp only [part, Slice.Covers] at first later
    unfold Slice.Apart
    omega

end IPHeader

section Fresh

variable {desc : Desc Bytes} {descs : List (Desc Bytes)} {above : List (Desc Slice)} {tail : Bytes}

theorem payloadID_placed (fresh : ∀ desc ∈ descs, desc.Fresh) :
    Desc.payloadID (Desc.placeAll off descs) = .ok (firstOf .none (layersOf descs)) := by
  cases descs with
  | nil => rfl
  | cons desc below =>
    obtain ⟨nonempty, -⟩ := fresh desc List.mem_cons_self
    obtain ⟨group, handler, dirty⟩ := desc
    cases handler with
    | metadata md => exact absurd rfl nonempty
    | ip linked headers =>
      cases headers with
      | nil => exact absurd rfl nonempty
      | cons ip inner => exact congrArg Outcome.ok (ip.place_id off)
    | _ => rfl

variable {id : HeaderId}

theorem payload_after {header frame : Bytes} (isL4 : id = .tcp ∨ id = .udp)
    (path : packetFormat.Path id frame ((id, header) :: layersOf descs) .none tail)
    (fresh : ∀ desc ∈ descs, desc.Fresh) : Desc.cleanPayload (Desc.placeAll off descs) = true := by
  cases path with
  | @header _ _ _ after _ _ reads onward =>
    have isNext := firstOf_path onward
    have follows : packetFormat.next id header after = .opaqueData := by
      rcases isL4 with rfl | rfl <;> rfl
    cases descs with
    | nil =>
      rw [follows] at isNext
      cases isNext
    | cons desc below =>
      have clean := (fresh desc List.mem_cons_self).2.2.2
      simp [Desc.placeAll, Desc.cleanPayload, clean]

theorem lookup_entry {α β : Type} [BEq α] [LawfulBEq α] {table : List (α × β)} {key : α} {value : β}
    (found : table.lookup key = some value) : (key, value) ∈ table := by
  obtain ⟨front, back, rfl, -⟩ := List.lookup_eq_some_iff.mp found
  simp

theorem nextHeader_inverse {type value : Nat} (known : headerNext.lookup id = some type)
    (isID : (nextHeader.lookup value).getD .opaqueData = id) : value = type := by
  have distinct : ∀ a ∈ headerNext, ∀ b ∈ headerNext, a.1 = b.1 → a.2 = b.2 := by decide
  cases found : nextHeader.lookup value with
  | none =>
    rw [found] at isID
    subst isID
    cases known
  | some other =>
    rw [found] at isID
    obtain rfl : other = id := isID
    have entry : (other, value) ∈ headerNext := by
      obtain ⟨⟨id, type⟩, mem, same⟩ := List.mem_map.mp (lookup_entry found)
      cases same
      exact mem
    exact distinct _ entry _ (lookup_entry known) rfl

theorem rebuildEthernet_fresh {eth : Ethernet Slice} {below : List (Desc Slice)} {next : HeaderId}
    (inside : eth.header.Inside heap)
    (fits : newEthernet (etherType (eth.header.get heap)) = (eth.toEthernetTags, eth.header.len))
    (isNext : Desc.payloadID below = .ok next)
    (follows : next = .none ∨ next = follow eth.id (eth.header.get heap)) :
    Handler.rebuildEthernet heap below eth = .ok heap := by
  have fits' := (newEthernet_next (etherType (eth.header.get heap))).1
  have isEthernet := newEthernet_id (etherType (eth.header.get heap))
  rw [fits] at fits' isEthernet
  rw [Handler.rebuildEthernet, isNext, Outcome.ok_bind]
  cases known : headerNext.lookup next with
  | none => rfl
  | some type =>
    refine setValue_same inside (Nat.le_of_eq fits') (by decide) ?_
    have isFollow : next = (nextHeader.lookup (octetsValue
        (slice (eth.header.get heap) eth.next 2))).getD .opaqueData := by
      rcases follows with isNone | isFollow
      · rw [isNone] at known
        cases known
      · rw [isFollow]
        rcases isEthernet with isID | isID | isID <;> rw [isID] <;> simp only [follow, fits]
    exact nextHeader_inverse known isFollow.symm

section Clean

variable {payload : Heap UInt8 → List (Desc Slice) → List (Desc Slice) →
  Outcome (Heap UInt8 × Bytes × List (Desc Slice))} {below : List (Desc Slice)} {header : Slice}

-- Headers whose neighbours are clean are left alone.
theorem rebuildTCP_clean (soundAbove : ∀ desc ∈ above, desc.Sound)
    (before : Desc.cleanEnvelope above = true) (after : Desc.cleanPayload below = true)
    (self : Desc Slice) :
    Handler.rebuildTCP heap payload above below false self header = .ok (heap, below) := by
  obtain ⟨envelope, isEnvelope⟩ := envelopeID_ok soundAbove
  rw [Handler.rebuildTCP, isEnvelope, Outcome.ok_bind]
  split
  · rfl
  · rw [if_pos (by simp [before, after])]
    rfl

theorem rebuildUDP_clean (before : Desc.cleanEnvelope above = true)
    (after : Desc.cleanPayload below = true) :
    Handler.rebuildUDP heap above below false header = .ok heap := by
  rw [Handler.rebuildUDP, if_pos (by simp [before, after])]
  rfl

theorem rebuildICMP6_clean (before : Desc.cleanEnvelope above = true) :
    Handler.rebuildICMP6 heap above below false header = .ok heap := by
  rw [Handler.rebuildICMP6, if_pos (by simp [before])]
  rfl

end Clean

theorem rebuild_fresh {payload : Heap UInt8 → List (Desc Slice) → List (Desc Slice) →
      Outcome (Heap UInt8 × Bytes × List (Desc Slice))} {frame : Bytes}
    (fresh : desc.Fresh) (freshBelow : ∀ desc ∈ descs, desc.Fresh)
    (soundAbove : ∀ desc ∈ above, desc.Sound)
    (clean : id ∈ [.tcp, .udp, .icmp6] → Desc.cleanEnvelope above = true)
    (inside : (part off desc.handler.bytes.length).Inside heap)
    (stored : (part off desc.handler.bytes.length).get heap = desc.handler.bytes)
    (off' : Nat) (inBelow : Desc.Inside heap (Desc.placeAll off' descs))
    (path : packetFormat.Path id frame (layersOf (desc :: descs)) .none tail) :
    (Handler.rebuild heap payload above (Desc.placeAll off' descs)
        { desc with handler := desc.handler.place off }).Yields fun (heap', handler', below') =>
      below' = Desc.placeAll off' descs ∧ heap.Only [part off desc.handler.bytes.length] heap' ∧
        handler'.form = (desc.handler.place off).form ∧
        handler'.header heap' = (heap', flat (settle (firstOf .none (layersOf descs))
          (Desc.bytes descs).length desc.handler.layers)) := by
  have isLayers : layersOf (desc :: descs) = desc.handler.layers ++ layersOf descs := rfl
  obtain ⟨nonempty, fits, -, isClean⟩ := fresh
  obtain ⟨group, handler, dirty⟩ := desc
  obtain rfl : dirty = false := isClean
  dsimp only at nonempty fits inside stored isLayers ⊢
  rw [isLayers] at path
  -- A header that is not settled is copied as it is.
  have plain {id : HeaderId} {header : Bytes} (outside : ¬ id.InTunnel)
      (isHeader : (part off header.length).get heap = header) :
      (part off header.length).get heap =
        flat (settle (firstOf .none (layersOf descs)) (Desc.bytes descs).length [(id, header)]) := by
    rw [settle_outside (by simpa using outside), isHeader]
    simp [flat]
  have isNext : Desc.payloadID (Desc.placeAll off' descs) = .ok (firstOf .none (layersOf descs)) :=
    payloadID_placed freshBelow
  cases handler with
  | metadata md => exact absurd rfl nonempty
  | ethernet eth =>
    have outside : ¬ eth.id.InTunnel := by
      have isID := newEthernet_id (etherType eth.header)
      rw [show newEthernet _ = _ from fits] at isID
      rcases isID with isID | isID | isID <;> rw [show eth.id = _ from isID] <;> decide
    have same : Handler.rebuildEthernet heap (Desc.placeAll off' descs)
        { eth with header := ⟨0, off, eth.header.length⟩ } = .ok heap := by
      have isHeader : Slice.get heap ⟨0, off, eth.header.length⟩ = eth.header := stored
      refine rebuildEthernet_fresh inside ?_ isNext ?_
      · simp only [isHeader]
        exact fits
      · simp only [isHeader]
        cases path with
        | @header _ _ _ after _ _ reads onward =>
          have follows : packetFormat.next eth.id eth.header after =
              firstOf .none (layersOf descs) := firstOf_path onward
          rw [← follows]
          simp only [packetFormat, outside, false_and, if_false]
          exact Or.inr trivial
    rw [Handler.rebuild]
    simp only [Handler.place, same]
    exact .pure ⟨rfl, .refl _ _, rfl, congrArg (Prod.mk heap) (plain outside stored)⟩
  | ip linked headers =>
    obtain ⟨rfl, -, shaped⟩ : linked = true ∧ headers ≠ [] ∧ ∀ ip ∈ headers, ip.Shaped List.length :=
      fits
    have covered : ∀ s ∈ (Handler.place off (.ip true headers)).reach,
        (part off (Handler.ip true headers).bytes.length).Covers s :=
      (Handler.place_covered _ off).2
    have insideAll : Desc.Inside heap
        (⟨group, (Handler.ip true headers).place off, false⟩ :: Desc.placeAll off' descs) := by
      rintro other (_ | ⟨_, mem⟩)
      · exact fun s mem => ((Handler.place_covered _ off).1 s mem).inside inside
      · exact inBelow other mem
    have compactAll : Desc.Compact
        (⟨group, (Handler.ip true headers).place off, false⟩ :: Desc.placeAll off' descs) := by
      rintro other (_ | ⟨_, mem⟩)
      · exact IPHeader.placeAll_compact
      · exact Desc.placeAll_compact other mem
    refine (Handler.rebuild_settles rfl insideAll compactAll
      (IPHeader.placeAll_shaped shaped) IPHeader.placeAll_separate isNext).imp ?_
    rintro ⟨heap', handler', below'⟩ ⟨same, only, sameForm, isHeader⟩
    refine ⟨same, only.covered fun s mem => ⟨_, List.mem_singleton_self _, covered s mem⟩, sameForm, ?_⟩
    rw [isHeader, IPHeader.held_placeAll stored, Desc.placeAll_size]
    rfl
  | tcp header =>
    obtain rfl := firstOf_path path
    have after : Desc.cleanPayload (Desc.placeAll off' descs) = true :=
      payload_after (Or.inl rfl) path freshBelow
    rw [Handler.rebuild]
    simp only [Handler.place, rebuildTCP_clean soundAbove (clean (.head _)) after]
    exact .pure ⟨rfl, .refl _ _, rfl, congrArg (Prod.mk heap) (plain (by decide) stored)⟩
  | udp header =>
    obtain rfl := firstOf_path path
    have after : Desc.cleanPayload (Desc.placeAll off' descs) = true :=
      payload_after (Or.inr rfl) path freshBelow
    rw [Handler.rebuild]
    simp only [Handler.place, rebuildUDP_clean (clean (.tail _ (.head _))) after]
    exact .pure ⟨rfl, .refl _ _, rfl, congrArg (Prod.mk heap) (plain (by decide) stored)⟩
  | icmp4 header | arp header | opaqueData header =>
    exact .pure ⟨rfl, .refl _ _, rfl, congrArg (Prod.mk heap) (plain (by decide) stored)⟩
  | icmp6 type options header =>
    obtain rfl := firstOf_path path
    rw [Handler.rebuild]
    simp only [Handler.place, rebuildICMP6_clean (clean (.tail _ (.tail _ (.head _))))]
    exact .pure ⟨rfl, .refl _ _, rfl, congrArg (Prod.mk heap) (plain (by decide) stored)⟩

theorem rebuildLoop_fresh (n : Nat) : ∀ {heap : Heap UInt8} {above : List (Desc Slice)}
    {descs : List (Desc Bytes)} {off : Nat} {frame : Bytes} {id : HeaderId},
    descs.length ≤ n → (∀ desc ∈ descs, desc.Fresh) → (∀ desc ∈ above, desc.Sound) →
      (id ∈ [.tcp, .udp, .icmp6] → Desc.cleanEnvelope above = true) →
      (part off (Desc.bytes descs).length).Inside heap →
      (part off (Desc.bytes descs).length).get heap = Desc.bytes descs →
      packetFormat.Path id frame (layersOf descs) .none tail →
      (Desc.rebuildLoop n heap above (Desc.placeAll off descs)).Yields fun (_, headers, _) =>
        Desc.joinPayload headers = flat (settle .none 0 (layersOf descs)) := by
  induction n with
  | zero =>
    intro heap above descs off frame id few _ _ _ _ _ _
    obtain rfl : descs = [] := List.length_eq_zero_iff.mp (by omega)
    exact .pure rfl
  | succ n ih =>
    intro heap above descs off frame id few fresh soundAbove clean inside stored path
    cases descs with
    | nil => exact .pure rfl
    | cons desc descs =>
      have freshDesc := fresh desc List.mem_cons_self
      have freshBelow : ∀ other ∈ descs, other.Fresh := fun other mem =>
        fresh other (List.mem_cons_of_mem _ mem)
      have whole : (Desc.bytes (desc :: descs)).length =
          desc.handler.bytes.length + (Desc.bytes descs).length := by
        simp [Desc.bytes]
      obtain ⟨storedDesc, storedBelow⟩ : (part off desc.handler.bytes.length).get heap =
          desc.handler.bytes ∧ (part (off + desc.handler.bytes.length) (Desc.bytes descs).length).get
            heap = Desc.bytes descs := get_parts stored
      rw [whole] at inside
      have inDesc : (part off desc.handler.bytes.length).Inside heap :=
        Slice.Covers.inside (covers_front (.refl _)) inside
      have inRest : (part (off + desc.handler.bytes.length) (Desc.bytes descs).length).Inside heap :=
        Slice.Covers.inside (covers_back (.refl _)) inside
      have inBelow : Desc.Inside heap (Desc.placeAll (off + desc.handler.bytes.length) descs) :=
        Desc.inside_iff.mpr fun s mem => (Desc.placeAll_covered.1 s mem).inside inRest
      rw [Desc.placeAll, Desc.rebuildLoop]
      refine (rebuild_fresh freshDesc freshBelow soundAbove clean inDesc storedDesc _ inBelow path).bind ?_
      rintro ⟨heap₁, handler₁, below₁⟩ ⟨rfl, only, sameForm, isHeader⟩
      simp only [isHeader]
      -- What comes after the descriptor lies apart from it.
      have storedAfter : (part (off + desc.handler.bytes.length) (Desc.bytes descs).length).get heap₁ =
          Desc.bytes descs := by
        refine (only.2 _ inRest fun s mem => ?_).trans storedBelow
        rw [List.mem_singleton.mp mem]
        exact Or.inr (Or.inl (Nat.le_refl _))
      have soundNow : ∀ other ∈ { desc with handler := handler₁ } :: above, other.Sound := by
        have placed : (⟨desc.group, desc.handler.place off, desc.dirty⟩ : Desc Slice).Sound :=
          ⟨Handler.place_shaped freshDesc.2.1.shaped off,
            freshDesc.2.2.1.trans (Handler.place_group _ _).symm⟩
        rintro other (_ | ⟨_, mem⟩)
        · refine Desc.Sound.of_form ?_ placed
          simp only [Desc.form, sameForm]
        · exact soundAbove other mem
      obtain ⟨middle, between, -, onward⟩ := Format.Path.split path
      have stillClean : Desc.cleanEnvelope ({ desc with handler := handler₁ } :: above) = true := by
        simp [Desc.cleanEnvelope, freshDesc.2.2.2]
      refine (ih (Nat.le_of_succ_le_succ few) freshBelow soundNow (fun _ => stillClean)
        (inRest.grown only.1) storedAfter onward).bind ?_
      rintro ⟨heap₂, headers, below₂⟩ isRest
      refine .pure ?_
      have cut : layersOf (desc :: descs) = desc.handler.layers ++ layersOf descs := rfl
      have total : (flat (layersOf descs)).length = (Desc.bytes descs).length :=
        congrArg List.length (Desc.layersOf_bytes descs)
      have joined : Desc.joinPayload (flat (settle (firstOf .none (layersOf descs))
            (Desc.bytes descs).length desc.handler.layers) :: headers) =
          flat (settle (firstOf .none (layersOf descs)) (Desc.bytes descs).length desc.handler.layers) ++
            Desc.joinPayload headers := rfl
      simp only [joined]
      rw [show Desc.joinPayload headers = _ from isRest, cut, settle_append, flat_append, total,
        Nat.add_zero]

end Fresh

section Frames

variable {fuel : Nat} {start : HeaderId} {bytes spare : Bytes} {packet : Packet} {layers : Layers}

theorem path_large {id target : HeaderId} {frame rest : Bytes}
    (path : packetFormat.Path id frame layers target rest) : Large layers := by
  induction path with
  | here => exact nofun
  | header reads onward ih =>
    rintro layer (_ | ⟨_, mem⟩)
    · exact Reads.minimum_le reads
    · exact ih layer mem

theorem frame_placed {descs : List (Desc Bytes)} {tail : Bytes} (md : Metadata) (dirty : Bool)
    (freshAll : ∀ desc ∈ descs, desc.Fresh) (covered : bytes = Desc.bytes descs ++ tail)
    (layout : packetFormat.Layout (resolve start bytes) bytes (layersOf descs) tail)
    (clean : resolve start bytes ∈ [.tcp, .udp, .icmp6] → dirty = false) :
    (Packet.frame ⟨start, [bytes ++ spare], ⟨.packet, .metadata md, dirty⟩ :: Desc.placeAll 0 descs⟩).Yields
      fun r => r.1 = flat (settle .none 0 (layersOf descs)) := by
  have stored : (part 0 (Desc.bytes descs).length).get [bytes ++ spare] = Desc.bytes descs := by
    simp [part, Slice.get, Heap.array, slice, covered]
  have inside : (part 0 (Desc.bytes descs).length).Inside [bytes ++ spare] := by
    refine ⟨Nat.zero_lt_one, ?_⟩
    rw [covered]
    simp [part, Heap.array]
  have above : ∀ desc ∈ [(⟨.packet, .metadata md, dirty⟩ : Desc Slice)], desc.Sound := by
    rintro desc (_ | ⟨_, ⟨⟩⟩)
    exact ⟨trivial, rfl⟩
  have out : (Desc.payload [bytes ++ spare] [⟨.packet, .metadata md, dirty⟩]
      (Desc.placeAll 0 descs)).Yields fun s => s.2.1 = flat (settle .none 0 (layersOf descs)) := by
    refine (rebuildLoop_fresh _ (Nat.le_of_eq Desc.placeAll_length.symm) freshAll above
      (fun heeds => by rw [Desc.cleanEnvelope, clean heeds]; rfl) inside stored layout).bind ?_
    rintro ⟨heap, headers, descs'⟩ isOut
    exact .pure isOut
  exact out.bind fun _ isOut => .pure isOut

theorem Packet.Fresh.frame {descs : List (Desc Bytes)} {tail : Bytes}
    (fresh : packet.Fresh start bytes spare descs) (covered : bytes = Desc.bytes descs ++ tail)
    (layout : packetFormat.Layout (resolve start bytes) bytes (layersOf descs) tail) :
    packet.frame.Yields fun (out, _) => out = flat (settle .none 0 (layersOf descs)) := by
  obtain ⟨rfl, -, freshAll⟩ := fresh
  exact frame_placed _ _ freshAll covered layout fun _ => rfl

theorem flat_inj {layers' : Layers} (kinds : layers.map Prod.fst = layers'.map Prod.fst)
    (lengths : (layers.map fun layer => layer.2.length) = layers'.map fun layer => layer.2.length)
    (same : flat layers = flat layers') : layers = layers' := by
  induction layers generalizing layers' with
  | nil =>
    cases layers' with
    | nil => rfl
    | cons layer' inner' => cases kinds
  | cons layer inner ih =>
    cases layers' with
    | nil => cases kinds
    | cons layer' inner' =>
      obtain ⟨kind, header⟩ := layer
      obtain ⟨kind', header'⟩ := layer'
      simp only [List.map_cons, List.cons.injEq] at kinds lengths
      obtain ⟨rfl, rest⟩ := List.append_inj same lengths.1
      obtain rfl := kinds.1
      rw [ih kinds.2 lengths.2 rest]

theorem flat_settle_iff {tail : Bytes}
    (layout : packetFormat.Layout (resolve start bytes) bytes layers tail) :
    flat (settle .none 0 layers) = bytes ↔ tail = [] ∧ settle .none 0 layers = layers := by
  have large := path_large layout
  have whole : bytes = flat layers ++ tail := layout.frame_eq
  constructor
  · intro same
    have lengths := congrArg List.length same
    rw [whole, List.length_append, settle_length large] at lengths
    obtain rfl : tail = [] := List.eq_nil_of_length_eq_zero (by omega)
    rw [List.append_nil] at whole
    exact ⟨rfl, flat_inj settle_map_fst (settle_lengths large) (same.trans whole)⟩
  · rintro ⟨rfl, settled⟩
    rw [settled, whole, List.append_nil]

theorem frame_settles_headers (parsed : newPacket fuel start bytes spare = .ok packet) :
    ∃ layers tail, packetFormat.Layout (resolve start bytes) bytes layers tail ∧
      packet.frame.Yields fun (out, _) => out = flat (settle .none 0 layers) ∧
        (out = bytes ↔ tail = [] ∧ settle .none 0 layers = layers) := by
  obtain ⟨descs, tail, layout, fresh, covered⟩ := Packet.newPacket_ok parsed
  refine ⟨layersOf descs, tail, layout, (fresh.frame covered layout).imp ?_⟩
  rintro ⟨out, after⟩ isOut
  obtain rfl : out = flat (settle .none 0 (layersOf descs)) := isOut
  exact ⟨rfl, flat_settle_iff layout⟩

def unregistered : Bytes :=
  [0x45, 0, 0, 21, 0, 0, 0, 0, 64, 89, 0x66, 0x8e, 10, 0, 0, 1, 10, 0, 0, 2, 7]

def nested : Bytes :=
  [0x45, 0, 0, 41, 0, 0, 0, 0, 64, 4, 0, 0, 10, 0, 0, 3, 10, 0, 0, 4] ++ unregistered

theorem frame_settles_nested :
    ∃ packet, newPacket 8 .ip4 nested [] = .ok packet ∧
      ∃ layers tail, packetFormat.Layout .ip4 nested layers tail ∧
        packet.frame.Yields fun (out, _) => out = flat (settle .none 0 layers) ∧
          (out = nested ↔ tail = [] ∧ settle .none 0 layers = layers) := by
  obtain ⟨packet, parsed⟩ : ∃ packet, newPacket 8 .ip4 nested [] = .ok packet := ⟨_, rfl⟩
  exact ⟨packet, parsed, frame_settles_headers parsed⟩

theorem frame_rewrites_protocol :
    ∃ packet out after, newPacket 6 .ip4 unregistered [] = .ok packet ∧
      packet.frame = .ok (out, after) ∧ out[9]? = some 255 ∧ unregistered[9]? = some 89 :=
  ⟨_, _, _, rfl, rfl, rfl, rfl⟩

end Frames

end Lemming.Protocol

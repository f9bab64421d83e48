import Lemming.Protocol.Emission

set_option autoImplicit false

namespace Lemming.Protocol

open Shared Lemming.Packet

section Derived

variable {kind next : HeaderId} {length : Nat} {header : Bytes}

def Underived (kind : HeaderId) (off n : Nat) : Prop :=
  match kind with
  | .ip4 => off + n ≤ 2 ∨ 4 ≤ off ∧ off + n ≤ 9 ∨ 12 ≤ off
  | .ip6 => off + n ≤ 4 ∨ 7 ≤ off
  | _ => off + n ≤ 2 ∨ 4 ≤ off

def marked (next : HeaderId) (length : Nat) (header : Bytes) : Bytes :=
  put (put header 9 1 (protoOf next)) 2 2 (length + header.length)

theorem marked_length (large : 12 ≤ header.length) :
    (marked next length header).length = header.length := by
  have first : (put header 9 1 (protoOf next)).length = header.length := put_length (by omega)
  rw [marked, put_length (by omega), first]

theorem ip4_lengths (next : HeaderId) (length : Nat) (large : 12 ≤ header.length) :
    (put header 9 1 (protoOf next)).length = header.length ∧
      (marked next length header).length = header.length :=
  ⟨put_length (by omega), marked_length large⟩

theorem derive_ip4 (large : 12 ≤ header.length) : derive .ip4 next length header =
    put (marked next length header) 10 2
      (Csum16.write 0 (put (marked next length header) 10 2 0)).toNat := by
  have ⟨same, whole⟩ := ip4_lengths next length large
  have unfolded : derive .ip4 next length header =
      put (put (put (put header 9 1 (protoOf next)) 2 2
        (length + (put header 9 1 (protoOf next)).length)) 10 2 0) 10 2
        (Csum16.write 0 (put (put (put header 9 1 (protoOf next)) 2 2
          (length + (put header 9 1 (protoOf next)).length)) 10 2 0)).toNat := rfl
  have collapse (value : Nat) : put (put (marked next length header) 10 2 0) 10 2 value =
      put (marked next length header) 10 2 value := put_put (by omega) value
  rw [unfolded, same]
  exact collapse _

theorem derive_ip6 : derive .ip6 next length header =
    put (put header 6 1 (protoOf next)) 4 2 length := rfl

theorem derive_gre : derive .gre next length header = put header 2 2 (typeOf next) := rfl

theorem derive_underived (inTunnel : kind.InTunnel) (large : minimumSize kind ≤ header.length)
    {off n : Nat} (underived : Underived kind off n) :
    slice (derive kind next length header) off n = slice header off n := by
  rcases inTunnel with rfl | rfl | rfl
  · replace large : 12 ≤ header.length := large
    replace underived : off + n ≤ 2 ∨ 4 ≤ off ∧ off + n ≤ 9 ∨ 12 ≤ off := underived
    have ⟨first, whole⟩ := ip4_lengths next length large
    rw [derive_ip4 large, slice_put_apart (by omega) (by omega), marked,
      slice_put_apart (by omega) (by omega), slice_put_apart (by omega) (by omega)]
  · replace large : 40 ≤ header.length := large
    replace underived : off + n ≤ 4 ∨ 7 ≤ off := underived
    have first : (put header 6 1 (protoOf next)).length = header.length := put_length (by omega)
    rw [derive_ip6, slice_put_apart (by omega) (by omega), slice_put_apart (by omega) (by omega)]
  · replace large : 4 ≤ header.length := large
    replace underived : off + n ≤ 2 ∨ 4 ≤ off := underived
    rw [derive_gre, slice_put_apart (by omega) (by omega)]

theorem derive_ip4_protocol (large : 12 ≤ header.length) :
    slice (derive .ip4 next length header) 9 1 = octetsOf 1 (protoOf next) := by
  have ⟨first, whole⟩ := ip4_lengths next length large
  rw [derive_ip4 large, slice_put_apart (by omega) (by omega), marked,
    slice_put_apart (by omega) (by omega), slice_put (by omega)]

theorem derive_ip4_length (large : 12 ≤ header.length) :
    slice (derive .ip4 next length header) 2 2 = octetsOf 2 (length + header.length) := by
  have ⟨first, whole⟩ := ip4_lengths next length large
  rw [derive_ip4 large, slice_put_apart (by omega) (by omega), marked, slice_put (by omega)]

theorem derive_ip6_protocol (large : 40 ≤ header.length) :
    slice (derive .ip6 next length header) 6 1 = octetsOf 1 (protoOf next) := by
  have first : (put header 6 1 (protoOf next)).length = header.length := put_length (by omega)
  rw [derive_ip6, slice_put_apart (by omega) (by omega), slice_put (by omega)]

theorem derive_ip6_length (large : 40 ≤ header.length) :
    slice (derive .ip6 next length header) 4 2 = octetsOf 2 length := by
  have first : (put header 6 1 (protoOf next)).length = header.length := put_length (by omega)
  rw [derive_ip6, slice_put (by omega)]

theorem derive_gre_type (large : 4 ≤ header.length) :
    slice (derive .gre next length header) 2 2 = octetsOf 2 (typeOf next) := by
  rw [derive_gre, slice_put (by omega)]

theorem derive_derive (inTunnel : kind.InTunnel) (large : minimumSize kind ≤ header.length) :
    derive kind next length (derive kind next length header) = derive kind next length header := by
  have size : (derive kind next length header).length = header.length := derive_length inTunnel large
  rcases inTunnel with rfl | rfl | rfl
  · replace large : 12 ≤ header.length := large
    have whole : (marked next length header).length = header.length := marked_length large
    -- The protocol and the length are there already, so only the checksum is written again.
    have again : marked next length (derive .ip4 next length header) = derive .ip4 next length header := by
      rw [marked, put_same (by omega) (derive_ip4_protocol large), size,
        put_same (by omega) (derive_ip4_length large)]
    rw [derive_ip4 (by omega), again, derive_ip4 large, put_put (by omega), put_put (by omega)]
  · replace large : 40 ≤ header.length := large
    conv_lhs => rw [derive_ip6]
    rw [put_same (by omega) (derive_ip6_protocol large), put_same (by omega) (derive_ip6_length large)]
  · replace large : 4 ≤ header.length := large
    conv_lhs => rw [derive_gre]
    exact put_same (by omega) (derive_gre_type large)

end Derived

section Paths

variable {id : HeaderId} {header : Bytes}

theorem follow_derive {next : HeaderId} {length : Nat} (inTunnel : id.InTunnel)
    (large : minimumSize id ≤ header.length) (isNext : next = follow id header) :
    follow id (derive id next length header) = next := by
  have ofProto : ∀ next ∈ HeaderId.opaqueData :: protoHeader.map Prod.snd,
      (protoHeader.lookup (protoOf next % 256 ^ 1)).getD .opaqueData = next := by decide
  have ofType : ∀ next ∈ HeaderId.opaqueData :: nextHeader.map Prod.snd,
      (nextHeader.lookup (typeOf next % 256 ^ 2)).getD .opaqueData = next := by decide
  rcases inTunnel with rfl | rfl | rfl
  · rw [follow, derive_ip4_protocol large, octetsValue_octetsOf]
    exact ofProto next (isNext ▸ lookup_mem _ _ _)
  · rw [follow, derive_ip6_protocol large, octetsValue_octetsOf]
    exact ofProto next (isNext ▸ lookup_mem _ _ _)
  · rw [follow, derive_gre_type large, octetsValue_octetsOf]
    exact ofType next (isNext ▸ lookup_mem _ _ _)

theorem Reads.derive {next : HeaderId} {length : Nat} {rest rest' : Bytes} (inTunnel : id.InTunnel)
    (reads : Reads id header rest) :
    Reads id (derive id next length header) rest' := by
  have large := reads.minimum_le
  have size : (Protocol.derive id next length header).length = header.length :=
    derive_length inTunnel large
  -- The first byte tells how long a header is, and it is not derived.
  have first : slice (Protocol.derive id next length header) 0 1 = slice header 0 1 := by
    apply derive_underived inTunnel large
    rcases inTunnel with rfl | rfl | rfl <;> exact Or.inl (by decide)
  rcases inTunnel with rfl | rfl | rfl
  · simp only [Reads, ihl, first, size]
    exact reads
  · exact size.trans reads
  · simp only [Reads, greFlag, first, size]
    exact reads

theorem Reads.nonempty {rest : Bytes} (reads : Reads id header rest)
    (some : header ++ rest ≠ []) : header ≠ [] := by
  rintro rfl
  have large := reads.minimum_le
  cases id with
  | opaqueData =>
    obtain rfl : rest = [] := reads
    exact some rfl
  | unspecified | none | metadata | tunnel6to4Auto | tunnel6to4Secure | ip | count | unnamed =>
    exact reads.elim
  | _ => exact absurd large (by simp [minimumSize])

theorem Reads.rest {rest rest' : Bytes} (reads : Reads id header rest)
    (empty : rest = [] → rest' = []) : Reads id header rest' := by
  cases id with
  | udp | icmp4 => exact ⟨reads.1, empty reads.2⟩
  | icmp6 => exact ⟨reads.1, empty reads.2.1, reads.2.2⟩
  | opaqueData => exact empty reads
  | _ => exact reads

theorem follow_ne_none (inTunnel : id.InTunnel) (header : Bytes) :
    follow id header ≠ .none := by
  have ofProto : ∀ next ∈ HeaderId.opaqueData :: protoHeader.map Prod.snd, next ≠ .none := by decide
  have ofType : ∀ next ∈ HeaderId.opaqueData :: nextHeader.map Prod.snd, next ≠ .none := by decide
  rcases inTunnel with rfl | rfl | rfl
  · exact ofProto _ (lookup_mem _ _ _)
  · exact ofProto _ (lookup_mem _ _ _)
  · exact ofType _ (lookup_mem _ _ _)

theorem flat_ne_nil {frame tail : Bytes} {layers : Layers}
    (path : packetFormat.Path id frame layers .none tail) (due : id ≠ .none) (some : frame ≠ []) :
    flat layers ≠ [] := by
  cases path with
  | here => exact absurd rfl due
  | header reads onward =>
    have nonempty := Reads.nonempty reads some
    rw [flat_cons]
    exact fun empty => nonempty (List.append_eq_nil_iff.mp empty).1

theorem path_settle {target : HeaderId} {frame tail : Bytes} {layers : Layers}
    (path : packetFormat.Path id frame layers target tail) (isEnd : target = .none) :
    packetFormat.Path id (flat (settle .none 0 layers)) (settle .none 0 layers) .none [] := by
  induction path with
  | here =>
    subst isEnd
    exact .here _ _
  | @header id target header after tail layers reads onward ih =>
    subst isEnd
    have reads : Reads id header after := reads
    have isNext := firstOf_path onward
    have whole : after = flat layers ++ tail := onward.frame_eq
    have empty_iff : flat (settle .none 0 layers) = [] ↔ flat layers = [] := by
      rw [← List.length_eq_zero_iff, settle_length (path_large onward), List.length_eq_zero_iff]
    have none_after : after = [] → flat (settle .none 0 layers) = [] := by
      rintro rfl
      exact empty_iff.mpr (List.append_eq_nil_iff.mp whole.symm).1
    rw [settle, flat_cons]
    by_cases inTunnel : id.InTunnel
    · simp only [settleOne, if_pos inTunnel, Nat.add_zero]
      have sameNext : packetFormat.next id
            (derive id (firstOf .none layers) (flat layers).length header)
            (flat (settle .none 0 layers)) = packetFormat.next id header after := by
        by_cases last : after = []
        · simp only [packetFormat, inTunnel, last, none_after last, and_self, if_true]
        · have isFollow : packetFormat.next id header after = follow id header := by
            simp only [packetFormat, last, and_false, if_false]
          have some : flat (settle .none 0 layers) ≠ [] := by
            rw [Ne, empty_iff]
            exact flat_ne_nil onward (isFollow ▸ follow_ne_none inTunnel header) last
          have isFirst : firstOf .none layers = follow id header := isNext.symm.trans isFollow
          simp only [packetFormat, some, last, and_false, if_false]
          rw [follow_derive inTunnel reads.minimum_le isFirst, isFirst]
      refine .header (Reads.derive inTunnel reads) ?_
      rw [sameNext]
      exact ih rfl
    · simp only [settleOne, if_neg inTunnel]
      have sameNext : packetFormat.next id header (flat (settle .none 0 layers)) =
          packetFormat.next id header after := by
        simp only [packetFormat, inTunnel, false_and, if_false]
      refine .header (reads.rest none_after) ?_
      rw [sameNext]
      exact ih rfl

end Paths

section Again

variable {fuel : Nat} {start : HeaderId} {bytes spare : Bytes} {packet : Packet} {layers : Layers}

theorem settle_settle {next : HeaderId} {length : Nat} (large : Large layers) :
    settle next length (settle next length layers) = settle next length layers := by
  induction layers with
  | nil => rfl
  | cons layer inner ih =>
    have largeInner : Large inner := fun other mem => large other (List.mem_cons_of_mem _ mem)
    rw [settle, settle, ih largeInner, firstOf_settle, settle_length largeInner]
    apply congrArg (List.cons · _)
    simp only [settleOne]
    split
    · rw [derive_derive ‹_› (large layer List.mem_cons_self)]
    · rfl

theorem front_settle {id : HeaderId} {frame tail : Bytes} {n : Nat}
    (path : packetFormat.Path id frame layers .none tail) (due : id ≠ .none)
    (short : n ≤ minimumSize id) (underived : id.InTunnel → n ≤ 1) :
    slice (flat (settle .none 0 layers)) 0 n = slice frame 0 n := by
  cases path with
  | here => exact absurd rfl due
  | @header _ _ header after _ inner reads onward =>
    have large := Reads.minimum_le reads
    have size : (settleOne (firstOf .none inner) ((flat inner).length + 0) (id, header)).2.length =
        header.length := settleOne_length large
    rw [settle, flat_cons, slice_append (by omega), slice_append (by omega), settleOne]
    dsimp only
    split
    · rename_i inTunnel
      have few := underived inTunnel
      apply derive_underived inTunnel large
      rcases inTunnel with rfl | rfl | rfl <;> exact Or.inl (by omega)
    · rfl

theorem resolve_settle {tail : Bytes}
    (layout : packetFormat.Layout (resolve start bytes) bytes layers tail) :
    resolve start (flat (settle .none 0 layers)) = resolve start bytes := by
  have ofEthernet
      (layout : packetFormat.Layout (newEthernet (etherType bytes)).1.id bytes layers tail) :
      (newEthernet (etherType (flat (settle .none 0 layers)))).1.id =
        (newEthernet (etherType bytes)).1.id := by
    have front : slice (flat (settle .none 0 layers)) 0 14 = slice bytes 0 14 := by
      rcases newEthernet_id (etherType bytes) with isID | isID | isID <;> rw [isID] at layout <;>
        exact front_settle layout (by decide) (by decide) (by decide)
    have ofFront (frame : Bytes) : etherType frame = octetsValue (slice (slice frame 0 14) 12 2) := by
      rw [slice_slice (by decide)]
      rfl
    rw [ofFront, front, ← ofFront]
  cases start with
  | ethernet | ethernetVlan | ethernet1Q => exact ofEthernet layout
  | ip =>
    have front : slice (flat (settle .none 0 layers)) 0 1 = slice bytes 0 1 := by
      simp only [resolve] at layout
      split at layout
      · exact front_settle layout (by decide) (by decide) fun _ => Nat.le_refl 1
      · split at layout
        · exact front_settle layout (by decide) (by decide) fun _ => Nat.le_refl 1
        · cases layout with
          | header reads => exact reads.elim
    have same : ipVersion (flat (settle .none 0 layers)) = ipVersion bytes := by
      rw [ipVersion, front, ipVersion]
    simp only [resolve, same]
  | _ => rfl

theorem newPacket_of_layout {tail : Bytes} (spare : Bytes)
    (layout : packetFormat.Layout (resolve start bytes) bytes layers tail) :
    (newPacket (bytes.length + 6) start bytes spare).Yields fun packet =>
      ∃ descs, packet.Fresh start bytes spare descs ∧ layersOf descs = layers := by
  have notMetadata : start ≠ .metadata := by
    rintro rfl
    cases layout with
    | header reads => exact reads.elim
  have walk := newPacket_walk notMetadata (bytes.length + 6) bytes spare
  generalize newPacket (bytes.length + 6) start bytes spare = outcome at walk ⊢
  cases walk with
  | @read packet layers' next rest path is =>
    obtain ⟨rfl, descs, fresh, same⟩ := is
    obtain ⟨rfl, -⟩ := layout.unique packetFormat_deterministic (packetFormat_deterministic.stop _)
      path (packetFormat_deterministic.stop _)
    exact .pure ⟨descs, fresh, same⟩
  | refuse message reached final due long =>
    obtain ⟨passed, other⟩ := reached
    have same := layout.unique packetFormat_deterministic (packetFormat_deterministic.stop _) other final
    exact absurd same.2.1.symm due
  | crash reached short =>
    obtain ⟨passed, other⟩ := reached
    have same := layout.unique packetFormat_deterministic (packetFormat_deterministic.stop _) other
      (shortIP4_final short)
    exact absurd same.2.1 (by decide)
  | exhaust few => omega

def Handler.outline : Handler Slice → List (HeaderId × Nat)
  | .metadata _ => []
  | .ethernet eth => [(eth.id, eth.header.len)]
  | .ip _ headers => headers.map fun ip => (ip.id, ip.size)
  | .tcp header => [(.tcp, header.len)]
  | .udp header => [(.udp, header.len)]
  | .arp header => [(.arp, header.len)]
  | .icmp4 header => [(.icmp4, header.len)]
  | .icmp6 _ _ header => [(.icmp6, header.len)]
  | .opaqueData header => [(.opaqueData, header.len)]

def Packet.outline (packet : Packet) : List (HeaderId × Nat) :=
  packet.headers.flatMap fun desc => desc.handler.outline

theorem IPHeader.outline_placeAll {headers : List (IPHeader Bytes)} {off : Nat} :
    (placeAll off headers).map (fun ip => (ip.id, ip.size)) =
      (headers.map layer).map fun layer => (layer.1, layer.2.length) := by
  induction headers generalizing off with
  | nil => rfl
  | cons ip inner ih =>
    rw [placeAll, List.map_cons, List.map_cons, List.map_cons, ih, place_id, place_size]
    rfl

theorem Packet.Fresh.outline {descs : List (Desc Bytes)} (fresh : packet.Fresh start bytes spare descs) :
    packet.outline = (layersOf descs).map fun layer => (layer.1, layer.2.length) := by
  obtain ⟨rfl, -, -⟩ := fresh
  have placed (off : Nat) : (Desc.placeAll off descs).flatMap (fun desc => desc.handler.outline) =
      (layersOf descs).map fun layer => (layer.1, layer.2.length) := by
    induction descs generalizing off with
    | nil => rfl
    | cons desc below ih =>
      have isDesc : (desc.handler.place off).outline =
          desc.handler.layers.map fun layer => (layer.1, layer.2.length) := by
        cases desc.handler with
        | ip linked headers => exact IPHeader.outline_placeAll
        | _ => rfl
      rw [Desc.placeAll, List.flatMap_cons, ih, isDesc, ← List.map_append]
      rfl
  exact placed 0

theorem frame_parses_again (parsed : newPacket fuel start bytes spare = .ok packet) :
    packet.frame.Yields fun (out, _) =>
      ∀ spare', (newPacket (out.length + 6) start out spare').Yields fun again =>
        again.outline = packet.outline ∧ again.frame.Yields fun (out', _) => out' = out := by
  obtain ⟨descs, tail, layout, fresh, covered⟩ := Packet.newPacket_ok parsed
  refine (fresh.frame covered layout).imp ?_
  rintro ⟨out, after⟩ isOut spare'
  obtain rfl : out = flat (settle .none 0 (layersOf descs)) := isOut
  have large := path_large layout
  have settled : packetFormat.Layout (resolve start (flat (settle .none 0 (layersOf descs))))
      (flat (settle .none 0 (layersOf descs))) (settle .none 0 (layersOf descs)) [] := by
    rw [resolve_settle layout]
    exact path_settle layout rfl
  refine (newPacket_of_layout spare' settled).imp ?_
  rintro again ⟨descs', fresh', same⟩
  have covered' : flat (settle .none 0 (layersOf descs)) = Desc.bytes descs' ++ [] := by
    rw [List.append_nil, ← Desc.layersOf_bytes, same]
    rfl
  have settled' : packetFormat.Layout (resolve start (flat (settle .none 0 (layersOf descs))))
      (flat (settle .none 0 (layersOf descs))) (layersOf descs') [] := by
    rw [same]
    exact settled
  refine ⟨?_, (fresh'.frame covered' settled').imp ?_⟩
  · rw [fresh.outline, fresh'.outline, same, settle_outline large]
  · rintro ⟨out', after'⟩ isOut'
    rw [show out' = _ from isOut', same, settle_settle large]

theorem frame_parses_again_nested :
    ∃ packet, newPacket 8 .ip4 nested [] = .ok packet ∧
      packet.frame.Yields fun (out, _) =>
        ∀ spare', (newPacket (out.length + 6) .ip4 out spare').Yields fun again =>
          again.outline = packet.outline ∧ again.frame.Yields fun (out', _) => out' = out := by
  obtain ⟨packet, parsed⟩ : ∃ packet, newPacket 8 .ip4 nested [] = .ok packet := ⟨_, rfl⟩
  exact ⟨packet, parsed, frame_parses_again parsed⟩

end Again

end Lemming.Protocol

import Lemming.Protocol.Compact

set_option autoImplicit false

namespace Lemming.Protocol

open Shared Lemming.Packet

section Layers

def flat (layers : Layers) : Bytes := layers.flatMap Prod.snd

def firstOf (next : HeaderId) : Layers → HeaderId
  | [] => next
  | (id, _) :: _ => id

def settleOne (next : HeaderId) (length : Nat) (layer : HeaderId × Bytes) : HeaderId × Bytes :=
  (layer.1, if layer.1.InTunnel then derive layer.1 next length layer.2 else layer.2)

-- Headers once each says what comes after it, where after all of them `length` bytes come, the first in
-- a header of kind `next`.
def settle (next : HeaderId) (length : Nat) : Layers → Layers
  | [] => []
  | layer :: inner =>
    settleOne (firstOf next inner) ((flat inner).length + length) layer :: settle next length inner

variable {next : HeaderId} {length : Nat} {layers : Layers} {layer : HeaderId × Bytes}

theorem flat_append (layers more : Layers) : flat (layers ++ more) = flat layers ++ flat more :=
  List.flatMap_append

theorem flat_cons (layer : HeaderId × Bytes) (layers : Layers) :
    flat (layer :: layers) = layer.2 ++ flat layers :=
  List.flatMap_cons

theorem settle_append (layers more : Layers) :
    settle next length (layers ++ more) =
      settle (firstOf next more) ((flat more).length + length) layers ++ settle next length more := by
  induction layers with
  | nil => rfl
  | cons layer inner ih =>
    have isNext : firstOf next (inner ++ more) = firstOf (firstOf next more) inner := by
      cases inner <;> rfl
    rw [List.cons_append, settle, settle, ih, isNext, flat_append, List.length_append, Nat.add_assoc]
    rfl

theorem settle_outside (outside : ∀ layer ∈ layers, ¬ layer.1.InTunnel) :
    settle next length layers = layers := by
  induction layers with
  | nil => rfl
  | cons layer inner ih =>
    rw [settle, ih fun other mem => outside other (List.mem_cons_of_mem _ mem), settleOne,
      if_neg (outside layer List.mem_cons_self)]

theorem derive_length {kind : HeaderId} {header : Bytes} (inTunnel : kind.InTunnel)
    (large : minimumSize kind ≤ header.length) :
    (derive kind next length header).length = header.length := by
  rcases inTunnel with rfl | rfl | rfl
  · replace large : 12 ≤ header.length := large
    have first : (overwrite header 9 (octetsOf 1 (protoOf next))).length = header.length :=
      overwrite_length (by rw [octetsOf_length]; omega)
    have second (bytes : Bytes) (value : Nat) (same : bytes.length = header.length) :
        (overwrite bytes 2 (octetsOf 2 value)).length = header.length := by
      rw [overwrite_length (by rw [octetsOf_length]; omega), same]
    have third (bytes : Bytes) (value : Nat) (same : bytes.length = header.length) :
        (overwrite bytes 10 (octetsOf 2 value)).length = header.length := by
      rw [overwrite_length (by rw [octetsOf_length]; omega), same]
    exact third _ _ (third _ _ (second _ _ first))
  · replace large : 40 ≤ header.length := large
    have first : (overwrite header 6 (octetsOf 1 (protoOf next))).length = header.length :=
      overwrite_length (by rw [octetsOf_length]; omega)
    simp only [derive]
    rw [overwrite_length (by rw [octetsOf_length, first]; omega), first]
  · replace large : 4 ≤ header.length := large
    simp only [derive]
    exact overwrite_length (by rw [octetsOf_length]; omega)

def Large (layers : Layers) : Prop :=
  ∀ layer ∈ layers, minimumSize layer.1 ≤ layer.2.length

theorem settleOne_length (large : minimumSize layer.1 ≤ layer.2.length) :
    (settleOne next length layer).2.length = layer.2.length := by
  simp only [settleOne]
  split
  · exact derive_length ‹_› large
  · rfl

theorem settle_map_fst : (settle next length layers).map Prod.fst = layers.map Prod.fst := by
  induction layers with
  | nil => rfl
  | cons layer inner ih => rw [settle, List.map_cons, List.map_cons, ih, settleOne]

theorem settle_outline (large : Large layers) :
    (settle next length layers).map (fun layer => (layer.1, layer.2.length)) =
      layers.map fun layer => (layer.1, layer.2.length) := by
  induction layers with
  | nil => rfl
  | cons layer inner ih =>
    rw [settle, List.map_cons, List.map_cons, settleOne_length (large layer List.mem_cons_self),
      ih fun other mem => large other (List.mem_cons_of_mem _ mem)]
    rfl

theorem settle_lengths (large : Large layers) :
    (settle next length layers).map (fun layer => layer.2.length) =
      layers.map fun layer => layer.2.length := by
  have outline : (settle next length layers).map (fun layer => (layer.1, layer.2.length)) =
      layers.map fun layer => (layer.1, layer.2.length) := settle_outline large
  have sizes := congrArg (List.map Prod.snd) outline
  rwa [List.map_map, List.map_map] at sizes

theorem flat_length (layers : Layers) :
    (flat layers).length = (layers.map fun layer => layer.2.length).sum := by
  simp [flat, List.length_flatMap]

theorem settle_length (large : Large layers) :
    (flat (settle next length layers)).length = (flat layers).length := by
  rw [flat_length, settle_lengths large, flat_length]

theorem firstOf_settle : firstOf next (settle next length layers) = firstOf next layers := by
  cases layers <;> rfl

end Layers

section Headers

namespace IPHeader

variable {heap : Heap UInt8} {ip : IPHeader Slice} {headers : List (IPHeader Slice)}

def held (heap : Heap UInt8) (ip : IPHeader Slice) : HeaderId × Bytes :=
  (ip.id, ip.whole.get heap)

theorem whole_mem_reach (ip : IPHeader Slice) : ip.whole ∈ ip.reach := by
  cases ip <;> exact List.mem_cons_self

theorem whole_covers_main (ip : IPHeader Slice) : ip.whole.Covers ip.main := by
  cases ip with
  | ip4 header payload | ip6 header payload => exact .refl _
  | gre header key seq payload =>
    refine ⟨rfl, Nat.le_refl _, ?_⟩
    simp only [main, whole]
    omega

theorem whole_len (ip : IPHeader Slice) : ip.whole.len = ip.size := by
  cases ip <;> rfl

theorem whole_inside (inside : ip.Inside heap) (compact : ip.Compact) : ip.whole.Inside heap := by
  have found := (header_inside inside).1
  rwa [header_compact inside compact] at found

theorem held_length (inside : InsideAll heap headers) (compact : ∀ ip ∈ headers, ip.Compact) :
    (flat (headers.map (held heap))).length = (headers.map size).sum := by
  rw [flat_length, List.map_map]
  congr 1
  refine List.map_congr_left fun ip mem => ?_
  simp only [Function.comp_apply, held]
  rw [Slice.get_length (whole_inside (inside ip mem) (compact ip mem)), whole_len]

def Separate (a b : IPHeader Slice) : Prop :=
  ∀ s ∈ a.reach, ∀ t ∈ b.reach, s.Apart t

theorem inTunnel (ip : IPHeader Slice) : ip.id.InTunnel := by
  cases ip <;> simp [IPHeader.id, HeaderId.InTunnel]

theorem setPayload_held (inside : ip.Inside heap) (shaped : ip.Shaped Slice.len)
    (compact : ip.Compact) (next : HeaderId) (length : Nat) :
    (ip.setPayload heap next length).Yields fun (heap', _) =>
      ip.held heap' = settleOne next length (ip.held heap) := by
  have settled (heap' : Heap UInt8)
      (derived : ip.whole.get heap' = derive ip.id next length (ip.whole.get heap)) :
      ip.held heap' = settleOne next length (ip.held heap) := by
    rw [held, settleOne, derived]
    simp only [held, inTunnel, if_true]
  cases ip with
  | gre header key seq payload =>
    have large : header.len = 4 := shaped.1
    have live := whole_inside inside compact
    have fits : 2 + 2 ≤ (IPHeader.gre header key seq payload).whole.len := by
      simp only [whole]
      omega
    -- The field lies in the first part, where the whole header starts.
    have same (value : Nat) : Header.setValue heap header 2 2 value =
        Header.setValue heap (IPHeader.gre header key seq payload).whole 2 2 value := by
      have inHeader : ¬ header.len < 2 + 2 := by omega
      simp only [Header.setValue, inHeader, Nat.not_lt.mpr fits, if_false]
      rfl
    rw [setPayload, same]
    refine (setValue_yields live fits (by decide) _).bind fun heap' ⟨_, written⟩ => .pure ?_
    exact settled heap' written
  | _ => exact (setPayload_yields inside shaped next length).imp fun _ is => settled _ is.2.1

theorem rebuildAll_settles (inside : InsideAll heap headers)
    (shaped : ∀ ip ∈ headers, ip.Shaped Slice.len) (compact : ∀ ip ∈ headers, ip.Compact)
    (separate : headers.Pairwise Separate) (next : HeaderId) (length : Nat) :
    (rebuildAll heap next length headers).Yields fun (heap', _) =>
      headers.map (held heap') = settle next length (headers.map (held heap)) := by
  induction headers with
  | nil => exact .pure rfl
  | cons ip inner ih =>
    have inInner : InsideAll heap inner := fun other mem => inside other (List.mem_cons_of_mem _ mem)
    have shapedInner : ∀ other ∈ inner, other.Shaped Slice.len := fun other mem =>
      shaped other (List.mem_cons_of_mem _ mem)
    have compactInner : ∀ other ∈ inner, other.Compact := fun other mem =>
      compact other (List.mem_cons_of_mem _ mem)
    obtain ⟨apart, separateInner⟩ := List.pairwise_cons.mp separate
    have inIP := inside ip List.mem_cons_self
    have compactIP := compact ip List.mem_cons_self
    have shapedIP := shaped ip List.mem_cons_self
    rw [rebuildAll]
    refine ((rebuildAll_yields inInner shapedInner next length).and
      (ih inInner shapedInner compactInner separateInner)).bind ?_
    rintro ⟨heap₁, inner', outer⟩ ⟨⟨only₁, -, rfl⟩, settled⟩
    have sameIP : ip.held heap₁ = ip.held heap := by
      refine congrArg (Prod.mk _) (only₁.2 _ (whole_inside inIP compactIP) fun s mem => ?_)
      obtain ⟨other, isOther, part⟩ := List.mem_flatMap.mp mem
      exact (apart other isOther _ (whole_mem_reach ip) s part).symm
    have liveIP := inIP.grown only₁.1
    refine ((setPayload_yields liveIP shapedIP _ _).and
      (setPayload_held liveIP shapedIP compactIP _ _)).bind ?_
    rintro ⟨heap₂, ip'⟩ ⟨⟨only₂, -⟩, isIP⟩
    refine .pure ?_
    dsimp only
    have sameInner : inner.map (held heap₂) = inner.map (held heap₁) := by
      refine List.map_congr_left fun other mem => congrArg (Prod.mk _) ?_
      have inOther := (inInner other mem).grown only₁.1
      refine only₂.2 _ (whole_inside inOther (compactInner other mem)) fun s isMain => ?_
      rw [List.mem_singleton.mp isMain]
      exact (whole_covers_main ip).apart
        (apart other mem _ (whole_mem_reach ip) _ (whole_mem_reach other))
    have isNext : outermost next inner = firstOf next (inner.map (held heap)) := by
      cases inner <;> rfl
    have total := held_length inInner compactInner
    rw [List.map_cons, List.map_cons, settle, isIP, sameIP, sameInner, settled, isNext, total]

theorem held_of_form {headers' : List (IPHeader Slice)} (same : headers'.map form = headers.map form) :
    headers'.map (held heap) = headers.map (held heap) := by
  have eq (ips : List (IPHeader Slice)) : ips.map (held heap) = (ips.map form).map (held heap) := by
    rw [List.map_map]
    refine List.map_congr_left fun ip _ => ?_
    cases ip <;> rfl
  rw [eq, same, ← eq]

end IPHeader

variable {heap : Heap UInt8}

theorem Handler.header_held {linked : Bool} {headers : List (IPHeader Slice)}
    (inside : IPHeader.InsideAll heap headers) (compact : ∀ ip ∈ headers, ip.Compact) :
    (Handler.ip linked headers).header heap = (heap, flat (headers.map (IPHeader.held heap))) := by
  rw [Handler.header, IPHeader.headerAll_compact inside compact]
  simp [flat, List.flatMap_map, IPHeader.held]

theorem Desc.payloadLength_compact {descs : List (Desc Slice)} (inside : Inside heap descs)
    (compact : Compact descs) :
    payloadLength heap descs = (heap, size descs) := by
  have total := (payloadLength_only inside).2
  refine Prod.ext ?_ total
  clear total
  induction descs with
  | nil => rfl
  | cons desc below ih =>
    rw [payloadLength]
    simp only
    rw [Handler.header_compact (inside desc List.mem_cons_self) (compact desc List.mem_cons_self)]
    exact ih (fun other mem => inside other (List.mem_cons_of_mem _ mem))
      fun other mem => compact other (List.mem_cons_of_mem _ mem)

theorem Handler.rebuild_settles {above below : List (Desc Slice)}
    {payload : Heap UInt8 → List (Desc Slice) → List (Desc Slice) →
      Outcome (Heap UInt8 × Bytes × List (Desc Slice))} {self : Desc Slice} {next : HeaderId}
    {headers : List (IPHeader Slice)} (isIP : self.handler = .ip true headers)
    (inside : Desc.Inside heap (self :: below)) (compact : Desc.Compact (self :: below))
    (shaped : ∀ ip ∈ headers, ip.Shaped Slice.len) (separate : headers.Pairwise IPHeader.Separate)
    (isNext : Desc.payloadID below = .ok next) :
    (Handler.rebuild heap payload above below self).Yields fun (heap', handler', below') =>
      below' = below ∧ heap.Only self.handler.reach heap' ∧ handler'.form = self.handler.form ∧
        handler'.header heap' =
          (heap', flat (settle next (Desc.size below) (headers.map (IPHeader.held heap)))) := by
  have inSelf := inside self List.mem_cons_self
  have compactSelf := compact self List.mem_cons_self
  have length := Desc.payloadLength_compact
    (fun desc mem => inside desc (List.mem_cons_of_mem _ mem))
    fun desc mem => compact desc (List.mem_cons_of_mem _ mem)
  rw [isIP] at inSelf compactSelf
  rw [Handler.rebuild, isIP]
  simp only [length, isNext, Bool.not_true, Bool.false_eq_true, if_false, Outcome.ok_bind]
  refine ((IPHeader.rebuildAll_yields inSelf.headers shaped next _).and
    (IPHeader.rebuildAll_settles inSelf.headers shaped compactSelf separate next _)).bind ?_
  rintro ⟨heap', headers', outer⟩ ⟨⟨only, same, -⟩, settled⟩
  have sameForm : (Handler.ip true headers').form = (Handler.ip true headers).form := by
    simp only [Handler.form, same]
  have inNew : (Handler.ip true headers').Inside heap' := inSelf.rebuilt only.1 sameForm
  refine .pure ⟨rfl, only, sameForm, ?_⟩
  rw [Handler.header_held inNew.headers (Handler.compact_of_form sameForm compactSelf),
    IPHeader.held_of_form same]
  exact congrArg (fun layers => (heap', flat layers)) settled

end Headers

section Paths

variable {id : HeaderId} {frame udp tail : Bytes} {layers all : Layers}

theorem path_udp (large : 8 ≤ udp.length) :
    packetFormat.Path .udp udp [(.udp, udp), (.opaqueData, [])] .none [] := by
  have ends : packetFormat.Path .none [] [] .none [] := .here _ _
  have payload : packetFormat.Path .opaqueData [] [(.opaqueData, [])] .none [] :=
    .header (show packetFormat.Reads .opaqueData [] [] from rfl) ends
  have reads : packetFormat.Reads .udp udp [] := ⟨large, rfl⟩
  have path := Format.Path.header reads payload
  rwa [List.append_nil] at path

theorem udp_layout (due : packetFormat.Path id frame layers .udp udp)
    (layout : packetFormat.Layout id frame all tail) :
    8 ≤ udp.length ∧ all = layers ++ [(.udp, udp), (.opaqueData, [])] := by
  have stops := packetFormat_deterministic.stop
  by_cases large : 8 ≤ udp.length
  · have whole := due.append (path_udp large)
    exact ⟨large, (layout.unique packetFormat_deterministic (stops _) whole (stops _)).1⟩
  · have final : packetFormat.Final .udp udp := by
      rintro header rest rfl ⟨enough, -⟩
      rw [List.length_append] at large
      omega
    have same := (layout.unique packetFormat_deterministic (stops _) due final).2.1
    cases same

theorem udp_of_mem (layout : packetFormat.Layout id frame all tail) (mem : (.udp, udp) ∈ all) :
    ∃ layers, packetFormat.Path id frame layers .udp udp := by
  obtain ⟨front, more, rfl⟩ := List.append_of_mem mem
  obtain ⟨middle, between, first, second⟩ := Format.Path.split layout
  cases second with
  | header reads onward =>
    obtain ⟨-, rfl⟩ : Reads .udp udp _ := reads
    rw [List.append_nil] at first
    exact ⟨front, first⟩

theorem udp_unique {other : Bytes} (layout : packetFormat.Layout id frame all tail)
    (due : packetFormat.Path id frame layers .udp udp) (mem : (.udp, other) ∈ all) : other = udp := by
  obtain ⟨front, before⟩ := udp_of_mem layout mem
  have same := (udp_layout before layout).2.symm.trans (udp_layout due layout).2
  have last := (List.append_inj' same rfl).2
  simp only [List.cons.injEq, Prod.mk.injEq, true_and] at last
  exact last.1

end Paths

theorem Desc.placeAll_mem {descs : List (Desc Bytes)} {off : Nat} {placed : Desc Slice}
    (mem : placed ∈ placeAll off descs) :
    ∃ off, ∃ desc ∈ descs, placed.handler = desc.handler.place off := by
  induction descs generalizing off with
  | nil => cases mem
  | cons desc below ih =>
    rcases List.mem_cons.mp mem with rfl | later
    · exact ⟨off, desc, List.mem_cons_self, rfl⟩
    · obtain ⟨off', other, isOther, same⟩ := ih later
      exact ⟨off', other, List.mem_cons_of_mem _ isOther, same⟩

namespace Packet

variable {packet packet' : Packet}

theorem remove_udp {handler handler₁ : Handler Slice} {heap heap₁ : Heap UInt8}
    (isGroup : handler.group = .l4) (removed : handler.remove heap .udp = .ok (heap₁, handler₁)) :
    ∃ s, handler = .udp s ∧ heap₁ = heap ∧ handler₁ = .udp .nil := by
  cases handler with
  | udp s =>
    cases removed
    exact ⟨s, rfl, rfl, rfl⟩
  | tcp s => cases removed
  | _ => cases isGroup

theorem decap_udp (sound : packet.Sound) (isOk : packet.decap .udp = .ok packet') :
    ∃ s, ∃ desc ∈ packet.headers, desc.handler = .udp s ∧ packet'.size + s.len = packet.size := by
  obtain ⟨above, desc, below, heap₁, handler₁, found, removed, rebuilt⟩ := decap_cases isOk
  obtain ⟨isHeaders, isGroup⟩ := slot_some found
  rw [List.reverse_nil, List.nil_append] at isHeaders
  have mem : desc ∈ packet.headers := by simp [← isHeaders]
  have isL4 : desc.handler.group = .l4 := (sound.sound desc mem).2.symm.trans isGroup
  obtain ⟨s, isUDP, rfl, rfl⟩ := remove_udp isL4 removed
  refine ⟨s, desc, mem, isUDP, ?_⟩
  have nonempty := sound.above_ne_nil isHeaders.symm fun md isMetadata => by
    rw [isUDP] at isMetadata
    cases isMetadata
  have rest : Sound { packet with headers := above.reverse ++ below } :=
    sound.erase isHeaders.symm (by simpa using nonempty) (.refl _)
  obtain ⟨⟨heap', headers⟩, isRebuilt, -, same, -, -⟩ := rebuildHeaders_sound nonempty rest
  cases isRebuilt.symm.trans rebuilt
  have left := Desc.size_of_form same
  rw [size, size, left, ← isHeaders]
  simp only [Desc.size, List.map_append, List.map_cons, List.sum_append, List.sum_cons, isUDP,
    Handler.size]
  omega

end Packet

section Parsed

variable {fuel : Nat} {start : HeaderId} {bytes spare udp : Bytes} {layers : Layers}
  {packet packet' : Packet}

theorem decap_keeps_payload_iff (parsed : newPacket fuel start bytes spare = .ok packet)
    (due : packetFormat.Path (resolve start bytes) bytes layers .udp udp)
    (isOk : packet.decap .udp = .ok packet') :
    ∃ out after, packet'.frame = .ok (out, after) ∧
      (out.drop (flat layers).length = udp.drop 8 ↔ udp.drop 8 = []) := by
  obtain ⟨descs, tail, layout, fresh, covered⟩ := Packet.newPacket_ok parsed
  obtain ⟨sound, size, -⟩ := fresh.sound covered
  obtain ⟨s, desc, mem, isUDP, left⟩ := Packet.decap_udp sound isOk
  obtain ⟨⟨out, after⟩, isFrame, length, -⟩ :=
    Packet.frame_yields (Packet.decap_spliced sound isOk).sound
  refine ⟨out, after, isFrame, ?_⟩
  -- The handler holds the rest of the frame from the UDP header on.
  have whole : s.len = udp.length := by
    rw [fresh.packet_eq] at mem
    rcases List.mem_cons.mp mem with rfl | placed
    · cases isUDP
    · obtain ⟨off, parsedDesc, isDesc, isPlaced⟩ := Desc.placeAll_mem placed
      rw [isUDP] at isPlaced
      cases isHandler : parsedDesc.handler with
      | udp header =>
        rw [isHandler] at isPlaced
        cases isPlaced
        have layer : (.udp, header) ∈ layersOf descs :=
          List.mem_flatMap.mpr ⟨parsedDesc, isDesc, by simp [isHandler, Handler.layers]⟩
        rw [udp_unique layout due layer]
      | _ =>
        rw [isHandler] at isPlaced
        cases isPlaced
  have total : (Desc.bytes descs).length = (flat layers).length + udp.length := by
    rw [← Desc.layersOf_bytes, (udp_layout due layout).2]
    simp [flat]
  have nothing : out.drop (flat layers).length = [] := by
    rw [List.drop_eq_nil_iff, length]
    omega
  rw [nothing, eq_comm]

def datagram (payload : Bytes) : Bytes :=
  [0x45, 0, 0, 28, 0, 0, 0, 0, 64, 17, 0, 0, 10, 0, 0, 1, 10, 0, 0, 2] ++
    [0, 53, 0, 53, 0, 8, 0, 0] ++ payload

theorem decap_keeps_payload_empty :
    ∃ packet packet' out after, newPacket 4 .ip4 (datagram []) [] = .ok packet ∧
      packet.decap .udp = .ok packet' ∧ packet'.frame = .ok (out, after) ∧ out.drop 20 = [] := by
  obtain ⟨packet, parsed⟩ : ∃ packet, newPacket 4 .ip4 (datagram []) [] = .ok packet := ⟨_, rfl⟩
  obtain ⟨packet', isOk⟩ : ∃ packet', packet.decap .udp = .ok packet' := by
    cases parsed
    exact ⟨_, rfl⟩
  have reads : packetFormat.Reads .ip4 ((datagram []).take 20) ((datagram []).drop 20) := by
    constructor <;> decide
  have onward : packetFormat.Path .udp ((datagram []).drop 20) [] .udp ((datagram []).drop 20) :=
    .here _ _
  have due : packetFormat.Path .ip4 (datagram []) [(.ip4, (datagram []).take 20)] .udp
      ((datagram []).drop 20) :=
    .header reads onward
  obtain ⟨out, after, isFrame, same⟩ := decap_keeps_payload_iff parsed due isOk
  exact ⟨packet, packet', out, after, parsed, isOk, isFrame, same.mpr rfl⟩

theorem decap_loses_payload :
    ∃ packet packet' out after, newPacket 4 .ip4 (datagram [1, 2]) [] = .ok packet ∧
      packet.decap .udp = .ok packet' ∧ packet'.frame = .ok (out, after) ∧
        out.drop 20 ≠ (datagram [1, 2]).drop 28 :=
  ⟨_, _, _, _, rfl, rfl, rfl, by decide⟩

end Parsed

end Lemming.Protocol

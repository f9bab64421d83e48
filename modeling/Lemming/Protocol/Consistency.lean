import Lemming.Shared.OnesComplement
import Mathlib.Data.Nat.Bitwise
import Lemming.Protocol.Stability
import Lemming.Protocol.Derivation

set_option autoImplicit false

namespace Lemming.Protocol

open Shared Lemming.Packet

namespace Csum16

theorem accumulate_eq {bytes : Bytes} : ∀ {sum : UInt32},
    (accumulate bytes sum).toNat = (sum.toNat + wordSum bytes) % 2 ^ 32 := by
  have shifted (high : UInt8) : (high.toUInt32 <<< 8).toNat = high.toNat * 256 := by
    have := high.toNat_lt
    rw [UInt32.toNat_shiftLeft]
    simp [Nat.shiftLeft_eq]
    omega
  induction bytes using wordSum.induct with
  | case1 => exact fun {sum} => (Nat.mod_eq_of_lt sum.toNat_lt).symm
  | case2 high =>
    intro sum
    rw [accumulate, UInt32.toNat_add, shifted, wordSum]
  | case3 high low rest ih =>
    intro sum
    have low_eq : low.toUInt32.toNat = low.toNat := rfl
    rw [accumulate, ih, UInt32.toNat_add, UInt32.toNat_add, shifted, low_eq, wordSum]
    omega

theorem high_zero_iff (sum : UInt32) : sum &&& 0xffff0000 = 0 ↔ sum.toNat < 65536 := by
  have cut : (sum &&& 0xffff0000).toNat = sum.toNat >>> 16 <<< 16 := by
    have mask : (0xffff0000 : UInt32).toNat = (2 ^ 16 - 1) <<< 16 := rfl
    rw [UInt32.toNat_and, mask]
    refine Nat.eq_of_testBit_eq fun i => ?_
    simp only [Nat.testBit_and, Nat.testBit_shiftLeft, Nat.testBit_two_pow_sub_one,
      Nat.testBit_shiftRight]
    by_cases low : 16 ≤ i
    · have back : 16 + (i - 16) = i := by omega
      by_cases inside : i < 32
      · have place : i - 16 < 16 := by omega
        simp [low, back, place]
      · have past : sum.toNat.testBit i = false :=
          Nat.testBit_lt_two_pow
            (sum.toNat_lt.trans_le (Nat.pow_le_pow_right (by decide) (by omega)))
        simp [back, past]
    · simp [low]
  have zero : (0 : UInt32).toNat = 0 := rfl
  rw [← UInt32.toNat_inj, cut, Nat.shiftRight_eq_div_pow, Nat.shiftLeft_eq, zero]
  omega

theorem fold_eq {fuel : Nat} : ∀ {sum : UInt32}, sum.toNat ≤ fuel →
    (fold fuel sum).toNat = carried sum.toNat := by
  induction fuel with
  | zero =>
    intro sum enough
    obtain zero : sum.toNat = 0 := by omega
    rw [fold, zero, carried_small (by decide)]
  | succ fuel ih =>
    intro sum enough
    rw [fold]
    split
    · rename_i small
      exact (carried_small ((high_zero_iff sum).mp small)).symm
    · rename_i large
      have large := mt (high_zero_iff sum).mpr large
      have bound := sum.toNat_lt
      have low : (sum &&& (0xffff : UInt32)).toNat = sum.toNat % 65536 := by
        rw [UInt32.toNat_and]
        exact Nat.and_two_pow_sub_one_eq_mod sum.toNat 16
      have high : (sum >>> (16 : UInt32)).toNat = sum.toNat / 65536 := by
        rw [UInt32.toNat_shiftRight]
        exact Nat.shiftRight_eq_div_pow _ _
      have next : ((sum &&& (0xffff : UInt32)) + (sum >>> (16 : UInt32))).toNat =
          sum.toNat % 65536 + sum.toNat / 65536 := by
        rw [UInt32.toNat_add, low, high]
        omega
      rw [ih (by rw [next]; omega), next, carried_fold]

theorem not_eq (sum : UInt16) : sum ^^^ 0xffff = ~~~ sum := by
  apply UInt16.eq_of_toBitVec_eq
  rw [UInt16.toBitVec_xor, UInt16.toBitVec_not]
  exact BitVec.xor_allOnes

theorem write_fold (sum : UInt16) (bytes : Bytes) :
    (write sum bytes).toNat = 65535 - carried ((65535 - sum.toNat + wordSum bytes) % 2 ^ 32) := by
  have start : (sum ^^^ 0xffff).toUInt32.toNat = 65535 - sum.toNat := by
    rw [not_eq, UInt16.toNat_toUInt32, UInt16.toNat_not]
    rfl
  have total := fold_eq (Nat.le_refl (accumulate bytes (sum ^^^ 0xffff).toUInt32).toNat)
  rw [accumulate_eq, start] at total
  have le := carried_le ((65535 - sum.toNat + wordSum bytes) % 2 ^ 32)
  have flip (value : UInt32) : (value ^^^ 0xffff).toUInt16 = ~~~ value.toUInt16 := by
    rw [UInt32.toUInt16_xor]
    exact not_eq _
  simp only [write]
  rw [flip, UInt16.toNat_not, UInt32.toNat_toUInt16, accumulate_eq, start, total,
    Nat.mod_eq_of_lt (b := 2 ^ 16) (by omega)]
  rfl

theorem write_eq {bytes : Bytes} (short : bytes.length ≤ 2 ^ 16) (sum : UInt16) :
    (write sum bytes).toNat = 65535 - carried (65535 - sum.toNat + wordSum bytes) := by
  have bound := wordSum_le bytes
  rw [write_fold, Nat.mod_eq_of_lt (by omega)]

theorem foldl_write {parts : List Bytes} (short : ∀ part ∈ parts, part.length ≤ 2 ^ 16) :
    ∀ sum : UInt16, (parts.foldl write sum).toNat =
      65535 - carried (65535 - sum.toNat + (parts.map wordSum).sum) := by
  induction parts with
  | nil =>
    intro sum
    have := sum.toNat_lt
    rw [List.foldl_nil, List.map_nil, List.sum_nil, carried_small (by omega)]
    omega
  | cons part parts ih =>
    intro sum
    have le := carried_le (65535 - sum.toNat + wordSum part)
    have back : 65535 - (65535 - carried (65535 - sum.toNat + wordSum part)) =
        carried (65535 - sum.toNat + wordSum part) := by omega
    rw [List.foldl_cons, ih (fun other mem => short other (List.mem_cons_of_mem _ mem)),
      write_eq (short part List.mem_cons_self), back, carried_add, List.map_cons, List.sum_cons,
      Nat.add_assoc]

theorem foldl_write_zero_iff {parts : List Bytes} (short : ∀ part ∈ parts, part.length < 2 ^ 16) :
    parts.foldl write 0 = 0 ↔ 65535 ∣ (parts.map wordSum).sum := by
  have le := carried_le (65535 + (parts.map wordSum).sum)
  have isSum := foldl_write (fun part mem => (short part mem).le) 0
  have zero : (0 : UInt16).toNat = 0 := rfl
  rw [zero, Nat.sub_zero] at isSum
  rw [← UInt16.toNat_inj, isSum, zero, ← carried_top_iff]
  omega

end Csum16

section Statements

def Says (kind next : HeaderId) (length : Nat) (header : Bytes) : Prop :=
  match kind with
  | .ip4 =>
    Csum16.write 0 header = 0 ∧ octetsValue (slice header 2 2) = (header.length + length) % 2 ^ 16 ∧
      octetsValue (slice header 9 1) = protoOf next
  | .ip6 =>
    octetsValue (slice header 4 2) = length % 2 ^ 16 ∧ octetsValue (slice header 6 1) = protoOf next
  | .gre => octetsValue (slice header 2 2) = typeOf next
  | _ => False

def Consistent (next : HeaderId) (length : Nat) : Layers → Prop
  | [] => True
  | (kind, header) :: inner =>
    Says kind (firstOf next inner) ((flat inner).length + length) header ∧
      Consistent next length inner

variable {next : HeaderId} {length : Nat} {header : Bytes}

theorem protoOf_lt (next : HeaderId) : protoOf next < 256 := by
  have entries : ∀ entry ∈ headerProto, entry.2 < 256 := by decide
  rw [protoOf]
  cases found : headerProto.lookup next with
  | none => decide
  | some proto => exact entries _ (lookup_entry found)

theorem typeOf_lt (next : HeaderId) : typeOf next < 65536 := by
  have entries : ∀ entry ∈ headerNext, entry.2 < 65536 := by decide
  rw [typeOf]
  cases found : headerNext.lookup next with
  | none => decide
  | some type => exact entries _ (lookup_entry found)

theorem derive_ip4_checksum (large : 12 ≤ header.length) (even : 2 ∣ header.length)
    (short : header.length < 2 ^ 16) : Csum16.write 0 (derive .ip4 next length header) = 0 := by
  have whole : (marked next length header).length = header.length := marked_length large
  have zeroed : (put (marked next length header) 10 2 0).length = header.length := by
    rw [put_length (by omega), whole]
  have words (value : Nat) : wordSum (put (marked next length header) 10 2 value) +
      wordSum (slice (marked next length header) 10 2) =
        wordSum (marked next length header) + value % 65536 := by
    have replaced : wordSum (overwrite (marked next length header) 10 (octetsOf 2 value)) +
        wordSum (slice (marked next length header) 10 (octetsOf 2 value).length) =
          wordSum (marked next length header) + wordSum (octetsOf 2 value) :=
      wordSum_overwrite (by rw [octetsOf_length]; omega) (by decide) (by rw [octetsOf_length])
    rwa [octetsOf_length, wordSum_two] at replaced
  rw [derive_ip4 large]
  generalize isSum : (Csum16.write 0 (put (marked next length header) 10 2 0)).toNat = sum
  have size : (put (marked next length header) 10 2 sum).length = header.length := by
    rw [put_length (by omega), whole]
  have isZero : Csum16.write 0 (put (marked next length header) 10 2 sum) = 0 ↔
      65535 ∣ wordSum (put (marked next length header) 10 2 sum) := by
    have total : [put (marked next length header) 10 2 sum].foldl Csum16.write 0 = 0 ↔ _ :=
      Csum16.foldl_write_zero_iff (by simpa [size] using short)
    simpa using total
  rw [isZero]
  rw [Csum16.write_eq (by omega)] at isSum
  have zero : (0 : UInt16).toNat = 0 := rfl
  rw [zero] at isSum
  have before := words 0
  have after := words sum
  unfold carried at isSum
  split at isSum <;> omega

theorem derive_says {kind : HeaderId} (inTunnel : kind.InTunnel)
    (large : minimumSize kind ≤ header.length) (short : header.length ≤ 60)
    (even : kind = .ip4 → 2 ∣ header.length) :
    Says kind next length (derive kind next length header) := by
  have size : (derive kind next length header).length = header.length := derive_length inTunnel large
  have proto := protoOf_lt next
  have type := typeOf_lt next
  rcases inTunnel with rfl | rfl | rfl
  · refine ⟨derive_ip4_checksum large (even rfl) (by omega), ?_, ?_⟩
    · rw [derive_ip4_length large, octetsValue_octetsOf, size, Nat.add_comm]
      rfl
    · rw [derive_ip4_protocol large, octetsValue_octetsOf]
      exact Nat.mod_eq_of_lt proto
  · refine ⟨?_, ?_⟩
    · rw [derive_ip6_length large, octetsValue_octetsOf]
      rfl
    · rw [derive_ip6_protocol large, octetsValue_octetsOf]
      exact Nat.mod_eq_of_lt proto
  · rw [Says, derive_gre_type large, octetsValue_octetsOf]
    exact Nat.mod_eq_of_lt type

theorem settle_consistent {layers : Layers} (inTunnel : ∀ layer ∈ layers, layer.1.InTunnel)
    (large : Large layers) (short : ∀ layer ∈ layers, layer.2.length ≤ 60)
    (even : ∀ layer ∈ layers, layer.1 = .ip4 → 2 ∣ layer.2.length) :
    Consistent next length (settle next length layers) := by
  induction layers with
  | nil => trivial
  | cons layer inner ih =>
    have largeInner : Large inner := fun other mem => large other (List.mem_cons_of_mem _ mem)
    have isIn := inTunnel layer List.mem_cons_self
    refine ⟨?_, ih (fun other mem => inTunnel other (List.mem_cons_of_mem _ mem)) largeInner
      (fun other mem => short other (List.mem_cons_of_mem _ mem))
      fun other mem => even other (List.mem_cons_of_mem _ mem)⟩
    rw [firstOf_settle, settle_length largeInner]
    simp only [if_pos isIn]
    exact derive_says isIn (large layer List.mem_cons_self) (short layer List.mem_cons_self)
      (even layer List.mem_cons_self)

end Statements

section Tidiness

namespace IPHeader

structure Tidy (headers : List (IPHeader Slice)) : Prop where
  separate : headers.Pairwise Separate
  compact : ∀ ip ∈ headers, ip.Compact
  short : ∀ ip ∈ headers, ip.size ≤ 60

variable {heap : Heap UInt8}

theorem reach_live {ip : IPHeader Slice} (inside : ip.Inside heap) :
    ∀ s ∈ ip.reach, s.array < heap.length := by
  intro s mem
  cases ip with
  | gre header key seq payload =>
    simp only [reach, List.mem_cons, List.not_mem_nil, or_false] at mem
    rcases mem with rfl | rfl | rfl
    · exact (inside header (by simp [slices])).1
    · exact (inside s (by simp [slices])).1
    · exact (inside s (by simp [slices])).1
  | _ => exact (inside s mem).1

theorem Made.separate {heap' : Heap UInt8} {outer ip : IPHeader Slice}
    (made : outer.Made heap heap') (inside : ip.Inside heap) : outer.Separate ip := by
  intro s isOuter t isOld
  have live := reach_live inside t isOld
  have newer := (made.new.2 _ List.mem_cons_self).2
  have isNew : outer.main.array ≠ t.array := by omega
  rcases made.plain with isIP | isIP | isIP
  · rw [isIP] at isOuter
    rw [List.mem_singleton.mp isOuter]
    exact Or.inl isNew
  · rw [isIP] at isOuter
    rw [List.mem_singleton.mp isOuter]
    exact Or.inl isNew
  · rw [isIP] at isOuter
    simp only [reach, List.mem_cons, List.not_mem_nil, or_false] at isOuter
    rcases isOuter with rfl | rfl | rfl
    · exact Or.inl isNew
    · exact Or.inr (Or.inl (Nat.zero_le _))
    · exact Or.inr (Or.inl (Nat.zero_le _))

theorem tidy_kept : Kept Tidy where
  form := by
    intro headers headers' same tidy
    have separate_iff (ips : List (IPHeader Slice)) :
        ips.Pairwise Separate ↔ (ips.map form).Pairwise Separate := by
      rw [List.pairwise_map]
      simp only [Separate, form_reach]
      exact Iff.rfl
    have short_iff (ips : List (IPHeader Slice)) :
        (∀ ip ∈ ips, ip.size ≤ 60) ↔ ∀ ip ∈ ips.map form, ip.size ≤ 60 := by
      simp
    refine ⟨?_, compact_kept.form same tidy.compact, ?_⟩
    · rw [separate_iff, same, ← separate_iff]
      exact tidy.separate
    · rw [short_iff, same, ← short_iff]
      exact tidy.short
  tail := by
    intro headers tidy
    exact ⟨tidy.separate.tail, compact_kept.tail tidy.compact,
      fun ip mem => tidy.short ip (List.mem_of_mem_tail mem)⟩
  made := by
    intro heap heap' headers outer inside made tidy
    refine ⟨.cons (fun ip mem => made.separate (inside ip mem)) tidy.separate,
      compact_kept.made inside made tidy.compact, ?_⟩
    intro ip mem
    rcases List.mem_cons.mp mem with rfl | old
    · exact made.short.trans (by decide)
    · exact tidy.short ip old

section Held

variable {headers : List (IPHeader Slice)} (tidy : Tidy headers) (inside : InsideAll heap headers)
  (shaped : ∀ ip ∈ headers, ip.Shaped Slice.len)
include tidy inside

theorem Tidy.held_size {ip : IPHeader Slice} (mem : ip ∈ headers) : (held heap ip).2.length = ip.size := by
  rw [held, Slice.get_length (whole_inside (inside ip mem) (tidy.compact ip mem)), whole_len]

include shaped

theorem Tidy.large : Large (headers.map (held heap)) := by
  intro layer mem
  obtain ⟨ip, isIP, rfl⟩ := List.mem_map.mp mem
  rw [tidy.held_size inside isIP]
  have size := shaped ip isIP
  cases ip with
  | ip4 header payload => exact size.1
  | ip6 header payload => exact Nat.le_of_eq (Eq.symm size)
  | gre header key seq payload =>
    have four : header.len = 4 := size.1
    simp only [held, IPHeader.id, minimumSize, IPHeader.size]
    omega

theorem Tidy.outline (next : HeaderId) (length : Nat) :
    (settle next length (headers.map (held heap))).map (fun layer => (layer.1, layer.2.length)) =
      headers.map fun ip => (ip.id, ip.size) := by
  rw [settle_outline (tidy.large inside shaped), List.map_map]
  exact List.map_congr_left fun ip mem => Prod.ext rfl (tidy.held_size inside mem)

theorem Tidy.consistent (next : HeaderId) (length : Nat) :
    Consistent next length (settle next length (headers.map (held heap))) := by
  apply settle_consistent
  · intro layer mem
    obtain ⟨ip, -, rfl⟩ := List.mem_map.mp mem
    exact ip.inTunnel
  · exact tidy.large inside shaped
  · intro layer mem
    obtain ⟨ip, isIP, rfl⟩ := List.mem_map.mp mem
    rw [tidy.held_size inside isIP]
    exact tidy.short ip isIP
  · intro layer mem isIP4
    obtain ⟨ip, isIP, rfl⟩ := List.mem_map.mp mem
    rw [tidy.held_size inside isIP]
    have size := shaped ip isIP
    cases ip with
    | ip4 header payload => exact size.2
    | _ => cases isIP4

end Held

end IPHeader

end Tidiness

section Frames

def Emitted (headers : List (IPHeader Slice)) (next : HeaderId) (length : Nat) (out : List Bytes) : Prop :=
  ∃ layers after, out = flat layers :: after ∧
    layers.map (fun layer => (layer.1, layer.2.length)) = headers.map (fun ip => (ip.id, ip.size)) ∧
    (Desc.joinPayload after).length = length ∧ Consistent next length layers

theorem rebuildLoop_consistent {n : Nat} {heap : Heap UInt8} {above back : List (Desc Slice)}
    {desc : Desc Slice} {linked : Bool} {headers : List (IPHeader Slice)} {next : HeaderId}
    (queued : Desc.Queued n heap above (desc :: back)) (compact : Desc.Compact (desc :: back))
    (isIP : desc.handler = .ip linked headers) (tidy : IPHeader.Tidy headers)
    (isNext : Desc.payloadID back = .ok next) :
    (Desc.rebuildLoop n heap above (desc :: back)).Yields fun s =>
      Emitted headers next (Desc.size back) s.2.1 := by
  obtain ⟨m, rfl⟩ := Nat.exists_eq_succ_of_ne_zero (Nat.ne_zero_of_lt queued.few)
  have shaped := (queued.sound desc (by simp)).1
  have inDesc := queued.inside desc List.mem_cons_self
  rw [isIP] at shaped inDesc
  obtain ⟨rfl, -, shapedAll⟩ := shaped
  rw [Desc.rebuildLoop]
  refine (Handler.rebuild_settles isIP queued.inside compact shapedAll tidy.separate isNext).bind ?_
  rintro ⟨heap₁, handler₁, below₁⟩ ⟨rfl, only, sameForm, isHeader⟩
  have queued' := queued.next only.1 sameForm (Eq.refl (below₁.map Desc.form))
  simp only [isHeader] at queued' ⊢
  refine (Desc.rebuildLoop_yields m queued').bind ?_
  rintro ⟨heap₂, rest, below₂⟩ ⟨-, -, total⟩
  exact .pure ⟨_, rest, rfl, tidy.outline inDesc.headers shapedAll next _, total,
    tidy.consistent inDesc.headers shapedAll next _⟩

namespace Packet

variable {packet : Packet}

-- In the frame of the packet the headers of the L3 group stand one after the other, and each says what
-- comes after it.
def SaysWhatFollows (packet : Packet) : Prop :=
  ∀ above desc below linked headers, packet.headers = above ++ desc :: below →
    desc.handler = .ip linked headers →
    packet.frame.Yields fun (out, _) => ∃ before layers after next,
      out = before ++ flat layers ++ after ∧ before.length = Desc.size above ∧
        layers.map (fun layer => (layer.1, layer.2.length)) = headers.map (fun ip => (ip.id, ip.size)) ∧
        Desc.payloadID below = .ok next ∧ Consistent next after.length layers

section Front

variable {desc : Desc Slice} {front below : List (Desc Slice)} {linked : Bool}
  {headers : List (IPHeader Slice)}

theorem Sound.front_plain {first : Desc Slice} (sound : packet.Sound)
    (isHeaders : packet.headers = (first :: front) ++ desc :: below)
    (isIP : desc.handler = .ip linked headers) :
    ∀ other ∈ front, ∀ header, other.handler ≠ .tcp header := by
  intro other mem header isTCP
  have ordered := sound.ordered
  rw [isHeaders, Desc.ordered_append] at ordered
  have less := ordered.2.2 other (List.mem_cons_of_mem _ mem) desc List.mem_cons_self
  have isL4 := (sound.sound other (by simp [isHeaders, mem])).2
  have isL3 := (sound.sound desc (by simp [isHeaders])).2
  rw [isTCP] at isL4
  rw [isIP] at isL3
  rw [isL4, isL3] at less
  revert less
  simp [Handler.group, HeaderGroup.position]

-- The frame from an IP header on is what the loop makes of the descriptors from there on.
theorem Sound.frame_from {P : List Bytes → Prop} (sound : packet.Sound)
    (isHeaders : packet.headers = front ++ desc :: below) (isIP : desc.handler = .ip linked headers)
    (goes : ∀ {n : Nat} {heap : Heap UInt8} {above : List (Desc Slice)},
      Desc.Queued n heap above (desc :: below) →
      (Desc.rebuildLoop n heap above (desc :: below)).Yields fun s => P s.2.1) :
    packet.frame.Yields fun s => ∃ before out, s.1 = before ++ Desc.joinPayload out ∧ P out := by
  -- Metadata comes first, so the loop starts somewhere before the IP header.
  obtain ⟨md, dirty, front, rfl⟩ := sound.front isHeaders (by
    rintro rfl
    obtain ⟨md, dirty, rest, isFirst⟩ := sound.metadata
    cases isHeaders.symm.trans isFirst
    cases isIP)
  have inside := sound.inside
  have all := sound.sound
  rw [isHeaders] at inside all
  have queued : Desc.Queued (front ++ desc :: below).length packet.heap
      [⟨.packet, .metadata md, dirty⟩] (front ++ desc :: below) :=
    ⟨Nat.le_refl _, fun other isOther => inside other (List.mem_cons_of_mem _ isOther), all⟩
  obtain ⟨⟨heap', headers, descs⟩, isOk, is⟩ :=
    Desc.rebuildLoop_past goes (sound.front_plain isHeaders isIP) queued
  simp only [frame, isHeaders, List.cons_append, Desc.payload, isOk, Outcome.ok_bind]
  exact .pure is

end Front

theorem Sound.saysWhatFollows (sound : packet.Sound) (tidy : packet.Each IPHeader.Tidy) :
    packet.SaysWhatFollows := by
  intro above desc below linked headers isHeaders isIP
  have mem : desc ∈ packet.headers := by simp [isHeaders]
  have compact : Desc.Compact (desc :: below) := by
    intro other isOther
    cases isHandler : other.handler with
    | ip linked ips =>
      refine (tidy other ?_ linked ips isHandler).compact
      rw [isHeaders]
      exact List.mem_append_right _ isOther
    | _ => trivial
  obtain ⟨next, isNext⟩ := payloadID_ok below
  obtain ⟨⟨out, descs⟩, isFrame, before, _, isOut, layers, after, rfl, outline, length, consistent⟩ :=
    sound.frame_from isHeaders isIP fun queued =>
      rebuildLoop_consistent queued compact isIP (tidy desc mem linked headers isIP) isNext
  obtain rfl : out = before ++ flat layers ++ Desc.joinPayload after := by
    rw [show out = _ from isOut, List.append_assoc]
    rfl
  refine ⟨_, isFrame, before, layers, Desc.joinPayload after, next, rfl, ?_, outline, isNext, ?_⟩
  · -- What comes before is as long as the rest of the frame leaves room for.
    obtain ⟨_, isFrame', total, -⟩ := frame_yields sound
    cases isFrame'.symm.trans isFrame
    have sizes : (layers.map fun layer => layer.2.length).sum = desc.handler.size := by
      have sizes := congrArg (fun pairs => (pairs.map Prod.snd).sum) outline
      simp only [List.map_map] at sizes
      rw [isIP]
      exact sizes
    have whole : packet.size = Desc.size above + (desc.handler.size + Desc.size below) := by
      simp [size, isHeaders, Desc.size]
    rw [List.length_append, List.length_append, flat_length, sizes, length, whole] at total
    omega
  · rwa [length]

theorem along_saysWhatFollows {ops : List Operation} (sound : packet.Sound)
    (tidy : packet.Each IPHeader.Tidy) (plain : packet.Steps (fun packet op => ¬ packet.Adds op) ops) :
    packet.Along SaysWhatFollows ops := by
  induction ops generalizing packet with
  | nil => exact sound.saysWhatFollows tidy
  | cons op ops ih =>
    refine ⟨sound.saysWhatFollows tidy, fun next isOk => ?_⟩
    obtain ⟨isPlain, onward⟩ := plain next isOk
    obtain ⟨sound', tidy'⟩ := tidy.apply IPHeader.tidy_kept sound isPlain isOk
    exact ih sound' tidy' onward

end Packet

theorem path_short {id target : HeaderId} {frame rest : Bytes} {layers : Layers}
    (path : packetFormat.Path id frame layers target rest) :
    ∀ layer ∈ layers, layer.1.InTunnel → layer.2.length ≤ 60 := by
  induction path with
  | here => exact nofun
  | @header id target header after rest layers reads onward ih =>
    rintro layer (_ | ⟨_, mem⟩) inTunnel
    · have reads : Reads id header after := reads
      rcases inTunnel with isID | isID | isID
      · obtain rfl : id = .ip4 := isID
        have words : ihl header < 16 := Nat.mod_lt _ (by decide)
        have size : header.length = 4 * ihl header := reads.2
        simp only
        omega
      · obtain rfl : id = .ip6 := isID
        exact Nat.le_trans (Nat.le_of_eq reads) (by decide)
      · obtain rfl : id = .gre := isID
        have size : header.length = 4 + 4 * greFlag header 5 + 4 * greFlag header 4 := reads
        have key : greFlag header 5 < 2 := Nat.mod_lt _ (by decide)
        have seq : greFlag header 4 < 2 := Nat.mod_lt _ (by decide)
        simp only
        omega
    · exact ih layer mem inTunnel

theorem IPHeader.placeAll_tidy {headers : List (IPHeader Bytes)} {off : Nat}
    (short : ∀ ip ∈ headers, ip.bytes.length ≤ 60) : Tidy (placeAll off headers) := by
  refine ⟨placeAll_separate, placeAll_compact, ?_⟩
  induction headers generalizing off with
  | nil => exact nofun
  | cons ip inner ih =>
    rintro placed (_ | ⟨_, mem⟩)
    · rw [place_size]
      exact short ip List.mem_cons_self
    · exact ih (fun other isOther => short other (List.mem_cons_of_mem _ isOther)) placed mem

theorem Packet.Fresh.tidy {packet : Packet} {start : HeaderId} {bytes spare tail : Bytes}
    {descs : List (Desc Bytes)} (fresh : packet.Fresh start bytes spare descs)
    (layout : packetFormat.Layout (resolve start bytes) bytes (layersOf descs) tail) :
    packet.Each IPHeader.Tidy := by
  obtain ⟨rfl, -, -⟩ := fresh
  have short := path_short layout
  have placed (off : Nat) : ∀ desc ∈ Desc.placeAll off descs, desc.handler.Each IPHeader.Tidy := by
    clear layout
    induction descs generalizing off with
    | nil => rintro _ ⟨⟩
    | cons first below ih =>
      have isLayers : layersOf (first :: below) = first.handler.layers ++ layersOf below := rfl
      rw [isLayers] at short
      rintro desc (_ | ⟨_, mem⟩)
      · intro linked headers isIP
        cases isHandler : first.handler with
        | ip linked' ips =>
          simp only [isHandler, Handler.place] at isIP
          cases isIP
          refine IPHeader.placeAll_tidy fun ip isIn => ?_
          refine short (ip.id, ip.bytes) (List.mem_append_left _ ?_) ?_
          · rw [isHandler]
            exact List.mem_map_of_mem (f := IPHeader.layer) isIn
          · cases ip <;> simp [IPHeader.id, HeaderId.InTunnel]
        | _ =>
          simp only [isHandler, Handler.place] at isIP
          cases isIP
      · exact ih (fun layer isLayer => short layer (List.mem_append_right _ isLayer)) _ desc mem
  rintro desc (_ | ⟨_, mem⟩)
  · rintro _ _ ⟨⟩
  · exact placed 0 desc mem

theorem ip_headers_consistent {fuel : Nat} {start : HeaderId} {bytes spare : Bytes} {packet : Packet}
    (parsed : newPacket fuel start bytes spare = .ok packet) (ops : List Operation)
    (plain : packet.Steps (fun packet op => ¬ packet.Adds op) ops) :
    packet.Along Packet.SaysWhatFollows ops := by
  obtain ⟨descs, tail, layout, fresh, covered⟩ := Packet.newPacket_ok parsed
  exact Packet.along_saysWhatFollows (fresh.sound covered).1 (fresh.tidy layout) plain

theorem ip_headers_consistent_gre :
    ∃ packet, newPacket 6 .ip4 unregistered [] = .ok packet ∧
      packet.Along Packet.SaysWhatFollows [.encap .gre, .encap .ip6, .decap .ip6] := by
  obtain ⟨packet, parsed⟩ : ∃ packet, newPacket 6 .ip4 unregistered [] = .ok packet := ⟨_, rfl⟩
  exact ⟨packet, parsed, ip_headers_consistent parsed _
    fun _ _ => ⟨id, fun _ _ => ⟨id, fun _ _ => ⟨id, trivial⟩⟩⟩⟩

end Frames

end Lemming.Protocol

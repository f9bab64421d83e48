import Lemming.Protocol.Operations

set_option autoImplicit false

namespace Lemming.Protocol

open Shared Lemming.Packet

section Writes

variable {heap : Heap UInt8} {header : Slice} {off n : Nat}

theorem setValue_yields (inside : header.Inside heap) (fits : off + n ≤ header.len)
    (numeric : n = 1 ∨ n = 2 ∨ n = 4 ∨ n = 8) (value : Nat) :
    (Header.setValue heap header off n value).Yields fun heap' =>
      heap.Only [header] heap' ∧
        header.get heap' = overwrite (header.get heap) off (octetsOf n value) := by
  rw [Header.setValue, if_neg (by omega), if_pos numeric]
  refine .pure ⟨.set List.mem_cons_self (Slice.covers_sub fits)
    ((Slice.covers_sub fits).inside inside) (octetsOf_length _ _), ?_⟩
  exact Slice.get_set_sub inside fits (octetsOf_length _ _)

def Resizes (change : Bytes → Outcome Bytes) : Prop :=
  ∀ field, (change field).Whenever fun new => new.length = field.length

theorem resize_length (value : Bytes) (size : Nat) : (resize value size).length = size := by
  unfold resize
  split
  · rw [List.length_append, List.length_replicate]
    omega
  · rw [List.length_drop]
    omega

theorem set_resizes (arg : Bytes) : Resizes (Field.set arg) :=
  fun _ => .pure (resize_length _ _)

theorem setBits_resizes (bitpos bitcount : UInt64) (bits : Nat) :
    Resizes (Field.setBits bitpos bitcount bits) := by
  intro field
  unfold Field.setBits
  split
  · exact nofun
  · split
    · exact .pure (octetsOf_length _ _)
    · exact nofun

theorem octets_resizes (value : Nat) :
    Resizes fun field => .ok (octetsOf field.length value) :=
  fun _ => .pure (octetsOf_length _ _)

def FieldRef.Within (header : Slice) : FieldRef → Prop
  | .part off n => off + n ≤ header.len
  | .copy _ => True

variable {ref : FieldRef}

theorem within_within (found : FieldRef.within header off n = some ref) :
    ref.Within header := by
  unfold FieldRef.within at found
  split at found
  · cases found
  · cases found
    exact Nat.le_of_not_lt ‹_›

theorem find_within {places : List (Int32 × Nat × Nat)} {id : FieldID}
    (found : FieldRef.find places header id = some ref) : ref.Within header := by
  unfold FieldRef.find at found
  split at found
  · exact within_within found
  · obtain ⟨place, -, found⟩ := Option.bind_eq_some_iff.mp found
    exact within_within found

theorem update_whenever {change : Bytes → Outcome Bytes} (inside : header.Inside heap)
    (within : ref.Within header) (resizes : Resizes change) :
    (ref.update heap header change).Whenever fun heap' => heap.Only [header] heap' := by
  cases ref with
  | part off n =>
    have covers : header.Covers (header.sub off n) := Slice.covers_sub within
    have sub := covers.inside inside
    refine Outcome.Whenever.bind (resizes _) fun new same => .pure ?_
    exact .set List.mem_cons_self covers sub (same.trans (Slice.get_length sub))
  | copy bytes =>
    exact Outcome.Whenever.bind (resizes _) fun _ _ => .pure (.refl _ _)

end Writes

section Headers

namespace IPHeader

def slices : IPHeader Slice → List Slice
  | .ip4 header _ => [header]
  | .ip6 header _ => [header]
  | .gre header key seq _ => [header, key, seq]

def reach : IPHeader Slice → List Slice
  | .ip4 header _ => [header]
  | .ip6 header _ => [header]
  | .gre header key seq _ => [⟨header.array, header.off, header.len + key.len + seq.len⟩, key, seq]

def size : IPHeader Slice → Nat
  | .ip4 header _ => header.len
  | .ip6 header _ => header.len
  | .gre header key seq _ => header.len + key.len + seq.len

variable {heap : Heap UInt8} {ip : IPHeader Slice}

def Inside (heap : Heap UInt8) (ip : IPHeader Slice) : Prop :=
  ∀ s ∈ ip.slices, s.Inside heap

theorem Inside.grown {heap' : Heap UInt8} (inside : ip.Inside heap) (grown : heap.Grown heap') :
    ip.Inside heap' :=
  fun s mem => (inside s mem).grown grown

theorem inside_gre {header key seq : Slice} {payload : Nat} :
    (IPHeader.gre header key seq payload).Inside heap ↔
      header.Inside heap ∧ key.Inside heap ∧ seq.Inside heap := by
  simp [Inside, slices]

theorem header_only (inside : ip.Inside heap) : heap.Only ip.reach (ip.header heap).1 := by
  cases ip with
  | ip4 header payload | ip6 header payload => exact .refl _ _
  | gre header key seq payload =>
    obtain ⟨inHeader, inKey, inSeq⟩ := inside_gre.mp inside
    have keyLength := Slice.get_length inKey
    have first : heap.Only (IPHeader.gre header key seq payload).reach
        (header.append heap (key.get heap)).1 := by
      refine .append List.mem_cons_self ⟨rfl, Nat.le_add_right _ _, ?_⟩ inHeader.1
      simp only [Slice.sub]
      omega
    have seqLength := Slice.get_length (inSeq.grown first.1)
    simp only [IPHeader.header]
    rcases Slice.append_cases header heap (key.get heap) with kept | moved
    · rw [kept] at first seqLength ⊢
      refine first.trans (.append List.mem_cons_self ⟨rfl, Nat.le_add_right _ _, ?_⟩ ?_)
      · simp only [Slice.sub] at seqLength ⊢
        omega
      · exact inHeader.1.trans_le first.1.1
    · rw [moved]
      exact Slice.append_alloc _ _ _

theorem header_inside (inside : ip.Inside heap) :
    (ip.header heap).2.Inside (ip.header heap).1 ∧ (ip.header heap).2.len = ip.size := by
  cases ip with
  | ip4 header payload | ip6 header payload => exact ⟨inside _ List.mem_cons_self, rfl⟩
  | gre header key seq payload =>
    obtain ⟨inHeader, inKey, inSeq⟩ := inside_gre.mp inside
    have first : heap.Only [header.sub header.len (key.get heap).length]
        (header.append heap (key.get heap)).1 :=
      .append List.mem_cons_self (.refl _) inHeader.1
    have inFirst : (header.append heap (key.get heap)).2.Inside
        (header.append heap (key.get heap)).1 := Slice.append_inside inHeader
    simp only [IPHeader.header]
    refine ⟨Slice.append_inside inFirst, ?_⟩
    rw [Slice.append_len inFirst, Slice.append_len inHeader, Slice.get_length inKey,
      Slice.get_length (inSeq.grown first.1)]
    rfl

def InsideAll (heap : Heap UInt8) (headers : List (IPHeader Slice)) : Prop :=
  ∀ ip ∈ headers, ip.Inside heap

theorem headerAll_only {headers : List (IPHeader Slice)} :
    ∀ {heap : Heap UInt8}, InsideAll heap headers →
      heap.Only (headers.flatMap reach) (headerAll heap headers).1 ∧
        (∀ b ∈ (headerAll heap headers).2, b.Inside (headerAll heap headers).1) ∧
        ((headerAll heap headers).2.map Slice.len).sum = (headers.map size).sum := by
  induction headers with
  | nil => exact fun _ => ⟨.refl _ _, nofun, rfl⟩
  | cons ip inner ih =>
    intro heap inside
    have inIP := inside ip List.mem_cons_self
    have first := header_only inIP
    obtain ⟨inFirst, length⟩ := header_inside inIP
    obtain ⟨only, inRest, total⟩ := ih fun other mem =>
      (inside other (List.mem_cons_of_mem _ mem)).grown first.1
    rw [headerAll]
    refine ⟨?_, ?_, ?_⟩
    · rw [List.flatMap_cons]
      exact (first.mono (List.subset_append_left _ _)).trans
        (only.mono (List.subset_append_right _ _))
    · intro b mem
      rcases List.mem_cons.mp mem with rfl | later
      · exact inFirst.grown only.1
      · exact inRest b later
    · simp only [List.map_cons, List.sum_cons, length, total]

end IPHeader

theorem flatMap_get_length {heap : Heap UInt8} {slices : List Slice}
    (inside : ∀ s ∈ slices, s.Inside heap) :
    (slices.flatMap (Slice.get heap)).length = (slices.map Slice.len).sum := by
  induction slices with
  | nil => rfl
  | cons s slices ih =>
    rw [List.flatMap_cons, List.length_append, Slice.get_length (inside s List.mem_cons_self),
      ih fun t mem => inside t (List.mem_cons_of_mem _ mem)]
    rfl

namespace Handler

def slices : Handler Slice → List Slice
  | .metadata _ => []
  | .ethernet eth => [eth.header]
  | .ip _ headers => headers.flatMap IPHeader.slices
  | .tcp header => [header]
  | .udp header => [header]
  | .arp header => [header]
  | .icmp4 header => [header]
  | .icmp6 _ _ header => [header]
  | .opaqueData header => [header]

def reach : Handler Slice → List Slice
  | .ip _ headers => headers.flatMap IPHeader.reach
  | handler => handler.slices

def size : Handler Slice → Nat
  | .metadata _ => 0
  | .ethernet eth => eth.header.len
  | .ip _ headers => (headers.map IPHeader.size).sum
  | .tcp header => header.len
  | .udp header => header.len
  | .arp header => header.len
  | .icmp4 header => header.len
  | .icmp6 _ _ header => header.len
  | .opaqueData header => header.len

def Inside (heap : Heap UInt8) (handler : Handler Slice) : Prop :=
  ∀ s ∈ handler.slices, s.Inside heap

variable {heap : Heap UInt8} {handler : Handler Slice}

theorem Inside.grown {heap' : Heap UInt8} (inside : handler.Inside heap)
    (grown : heap.Grown heap') : handler.Inside heap' :=
  fun s mem => (inside s mem).grown grown

theorem Inside.headers {linked : Bool} {headers : List (IPHeader Slice)}
    (inside : (Handler.ip linked headers).Inside heap) : IPHeader.InsideAll heap headers :=
  fun ip mem s part => inside s (List.mem_flatMap.mpr ⟨ip, mem, part⟩)

theorem header_only (inside : handler.Inside heap) : heap.Only handler.reach (handler.header heap).1 := by
  cases handler with
  | ip linked headers => exact (IPHeader.headerAll_only inside.headers).1
  | _ => exact .refl _ _

theorem header_length (inside : handler.Inside heap) : (handler.header heap).2.length = handler.size := by
  cases handler with
  | metadata md => rfl
  | ip linked headers =>
    obtain ⟨-, inAll, total⟩ := IPHeader.headerAll_only inside.headers
    exact (flatMap_get_length inAll).trans total
  | _ => exact Slice.get_length (inside _ List.mem_cons_self)

end Handler

namespace Desc

def slices (descs : List (Desc Slice)) : List Slice :=
  descs.flatMap fun desc => desc.handler.slices

def reach (descs : List (Desc Slice)) : List Slice :=
  descs.flatMap fun desc => desc.handler.reach

def size (descs : List (Desc Slice)) : Nat :=
  (descs.map fun desc => desc.handler.size).sum

def Inside (heap : Heap UInt8) (descs : List (Desc Slice)) : Prop :=
  ∀ desc ∈ descs, desc.handler.Inside heap

theorem Inside.grown {heap heap' : Heap UInt8} {descs : List (Desc Slice)}
    (inside : Inside heap descs) (grown : heap.Grown heap') : Inside heap' descs :=
  fun desc mem => (inside desc mem).grown grown

theorem payloadLength_only {descs : List (Desc Slice)} :
    ∀ {heap : Heap UInt8}, Inside heap descs →
      heap.Only (reach descs) (payloadLength heap descs).1 ∧
        (payloadLength heap descs).2 = size descs := by
  induction descs with
  | nil => exact fun _ => ⟨.refl _ _, rfl⟩
  | cons desc below ih =>
    intro heap inside
    have inDesc := inside desc List.mem_cons_self
    have first := Handler.header_only inDesc
    have length := Handler.header_length inDesc
    obtain ⟨only, total⟩ := ih fun other mem =>
      (inside other (List.mem_cons_of_mem _ mem)).grown first.1
    rw [payloadLength]
    refine ⟨?_, ?_⟩
    · rw [reach, List.flatMap_cons]
      exact (first.mono (List.subset_append_left _ _)).trans
        (only.mono (List.subset_append_right _ _))
    · simp only [length, total, Handler.trailer, List.length_nil, Nat.add_zero, size, List.map_cons,
        List.sum_cons]

end Desc

end Headers

section Forms

def IPHeader.form : IPHeader Slice → IPHeader Slice
  | .ip4 header _ => .ip4 header 0
  | .ip6 header _ => .ip6 header 0
  | .gre header key seq _ => .gre header key seq 0

def Handler.form : Handler Slice → Handler Slice
  | .metadata _ => .metadata ⟨0, fun _ _ => none⟩
  | .ip linked headers => .ip linked (headers.map IPHeader.form)
  | handler => handler

def Desc.form (desc : Desc Slice) : HeaderGroup × Handler Slice :=
  (desc.group, desc.handler.form)

def Desc.Sound (desc : Desc Slice) : Prop :=
  desc.handler.Shaped Slice.len ∧ desc.group = desc.handler.group

variable (ip : IPHeader Slice) (handler : Handler Slice)

@[simp] theorem IPHeader.form_slices : ip.form.slices = ip.slices := by cases ip <;> rfl

@[simp] theorem IPHeader.form_reach : ip.form.reach = ip.reach := by cases ip <;> rfl

@[simp] theorem IPHeader.form_size : ip.form.size = ip.size := by cases ip <;> rfl

@[simp] theorem IPHeader.form_shaped : ip.form.Shaped Slice.len ↔ ip.Shaped Slice.len := by
  cases ip <;> rfl

@[simp] theorem Handler.form_slices : handler.form.slices = handler.slices := by
  cases handler <;> simp [Handler.form, Handler.slices, List.flatMap_map]

@[simp] theorem Handler.form_reach : handler.form.reach = handler.reach := by
  cases handler <;> simp [Handler.form, Handler.reach, Handler.slices, List.flatMap_map]

@[simp] theorem Handler.form_size : handler.form.size = handler.size := by
  cases handler <;> simp [Handler.form, Handler.size, Function.comp_def]

@[simp] theorem Handler.form_group : handler.form.group = handler.group := by
  cases handler <;> rfl

@[simp] theorem Handler.form_shaped : handler.form.Shaped Slice.len ↔ handler.Shaped Slice.len := by
  cases handler <;> simp [Handler.form, Handler.Shaped]

theorem Handler.Inside.rebuilt {heap heap' : Heap UInt8}
    {handler handler' : Handler Slice} (inside : handler.Inside heap) (grown : heap.Grown heap')
    (same : handler'.form = handler.form) : handler'.Inside heap' := by
  rw [Handler.Inside, ← form_slices, same, form_slices]
  exact inside.grown grown

theorem exists_of_map_eq {α β : Type} {f : α → β} {xs ys : List α} {x : α}
    (same : xs.map f = ys.map f) (mem : x ∈ xs) : ∃ y ∈ ys, f y = f x :=
  List.mem_map.mp (same ▸ List.mem_map_of_mem mem)

namespace Desc

variable {descs descs' : List (Desc Slice)}

section

variable (same : descs'.map form = descs.map form)
include same

theorem slices_of_form : slices descs' = slices descs := by
  have eq : ∀ ds : List (Desc Slice), slices ds = (ds.map form).flatMap fun f => f.2.slices := by
    simp [slices, form, List.flatMap_map]
  rw [eq, same, ← eq]

theorem reach_of_form : reach descs' = reach descs := by
  have eq : ∀ ds : List (Desc Slice), reach ds = (ds.map form).flatMap fun f => f.2.reach := by
    simp [reach, form, List.flatMap_map]
  rw [eq, same, ← eq]

theorem size_of_form : size descs' = size descs := by
  have eq : ∀ ds : List (Desc Slice), size ds = ((ds.map form).map fun f => f.2.size).sum := by
    simp [size, form, Function.comp_def]
  rw [eq, same, ← eq]

theorem sound_of_form (sound : ∀ desc ∈ descs, desc.Sound) :
    ∀ desc ∈ descs', desc.Sound := by
  have eq : ∀ ds : List (Desc Slice), (∀ desc ∈ ds, desc.Sound) ↔
      ∀ f ∈ ds.map form, f.2.Shaped Slice.len ∧ f.1 = f.2.group := by
    simp [Sound, form]
  rw [eq, same, ← eq]
  exact sound

end

theorem Sound.of_form {desc desc' : Desc Slice} (same : desc'.form = desc.form) (sound : desc.Sound) :
    desc'.Sound := by
  obtain ⟨sameGroup, sameHandler⟩ := Prod.mk.inj same
  rw [Sound, ← Handler.form_shaped, ← Handler.form_group, sameGroup, sameHandler,
    Handler.form_shaped, Handler.form_group]
  exact sound

theorem inside_iff {heap : Heap UInt8} : Inside heap descs ↔ ∀ s ∈ slices descs, s.Inside heap := by
  simp only [Inside, Handler.Inside, slices, List.mem_flatMap]
  exact ⟨fun inside s ⟨desc, mem, part⟩ => inside desc mem s part,
    fun inside desc mem s part => inside s ⟨desc, mem, part⟩⟩

theorem inside_of_form {heap : Heap UInt8} (same : descs'.map form = descs.map form)
    (inside : Inside heap descs) : Inside heap descs' := by
  rw [inside_iff, slices_of_form same, ← inside_iff]
  exact inside

theorem ordered_of_form (same : descs'.map form = descs.map form) {low : Nat}
    (ordered : Ordered low descs) : Ordered low descs' := by
  induction descs' generalizing descs low with
  | nil => trivial
  | cons desc' below' ih =>
    cases descs with
    | nil => cases same
    | cons desc below =>
      simp only [List.map_cons, List.cons.injEq, form, Prod.mk.injEq] at same
      rw [Ordered, same.1.1]
      exact ⟨ordered.1, ih same.2 ordered.2⟩

end Desc

end Forms

end Lemming.Protocol

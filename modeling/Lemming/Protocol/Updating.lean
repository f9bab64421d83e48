import Lemming.Protocol.Memory

set_option autoImplicit false

namespace Lemming.Protocol

open Shared Lemming.Packet

section IP

namespace IPHeader

variable {heap : Heap UInt8} {header : Slice} {id : FieldID}

theorem field_whenever (places : List (Int32 × Nat × Nat)) :
    (field heap places header id).Whenever fun found => ∀ ref, found = some ref → ref.Within header := by
  unfold field
  split
  · split
    · exact .pure nofun
    · refine (Outcome.Whenever.any _).bind fun bits _ => .pure ?_
      rintro ref ⟨⟩
      trivial
  · exact .pure fun ref found => find_within found

theorem decrementTTL_whenever {ref : FieldRef} (inside : header.Inside heap)
    (large : 12 ≤ header.len) (within : ref.Within header) :
    (decrementTTL heap header ref).Whenever fun heap' => heap.Only [header] heap' := by
  unfold decrementTTL
  refine (Outcome.Whenever.any _).bind fun pttl _ => ?_
  refine (update_whenever inside within (octets_resizes _)).bind fun heap₁ only₁ => ?_
  refine (Outcome.Whenever.any _).bind fun psum _ => ?_
  have fits : 10 + 2 ≤ header.len := large
  have live := inside.grown only₁.1
  exact fun heap₂ isOk =>
    only₁.trans ((setValue_yields live fits (by decide) _).whenever heap₂ isOk).1

theorem updateIP4_whenever (inside : header.Inside heap) (large : 12 ≤ header.len) (op : UpdateOp)
    (arg : Bytes) :
    (updateIP4 heap header id op arg).Whenever fun (heap', _) => heap.Only [header] heap' := by
  unfold updateIP4
  refine (field_whenever ip4Places).bind fun found within => ?_
  cases found with
  | none => exact nofun
  | some ref =>
    have within := within ref rfl
    cases op with
    | dec =>
      dsimp only
      split
      · exact (decrementTTL_whenever inside large within).bind fun heap' only => .pure only
      · exact nofun
    | set =>
      exact (update_whenever inside within (set_resizes arg)).bind fun heap' only => .pure only
    | _ => exact nofun

theorem updateIP6_whenever (inside : header.Inside heap) (op : UpdateOp) (arg : Bytes) :
    (updateIP6 heap header id op arg).Whenever fun (heap', _) => heap.Only [header] heap' := by
  unfold updateIP6
  refine (field_whenever ip6Places).bind fun found within => ?_
  cases found with
  | none => exact nofun
  | some ref =>
    have within := within ref rfl
    cases op with
    | dec =>
      dsimp only
      split
      · exact nofun
      · refine (Outcome.Whenever.any _).bind fun ttl _ => ?_
        exact (update_whenever inside within (octets_resizes _)).bind fun heap' only => .pure only
    | set =>
      dsimp only
      split
      · refine (Outcome.Whenever.any _).bind fun bits _ => ?_
        exact (update_whenever inside within (setBits_resizes _ _ _)).bind fun heap' only =>
          .pure only
      · split
        · refine (Outcome.Whenever.any _).bind fun bits _ => ?_
          exact (update_whenever inside within (setBits_resizes _ _ _)).bind fun heap' only =>
            .pure only
        · exact (update_whenever inside within (set_resizes arg)).bind fun heap' only => .pure only
    | _ => exact nofun

theorem updateOption_whenever {option : Slice} (inside : header.Inside heap)
    (inOption : option.Inside heap) (large : 1 ≤ header.len) (bit : UInt64) (arg : Bytes) :
    (updateOption heap header option bit arg).Whenever fun (heap', option') =>
      heap.Only [header, option] heap' ∧ option'.Inside heap' ∧
        (option.len ≠ 0 → option' = option) ∧
        (option.len = 0 → option'.len = 4 ∧ option'.array = heap.length) := by
  unfold updateOption
  by_cases missing : option.len = 0
  · rw [if_pos missing]
    -- The new array is not one of those that were there before.
    obtain ⟨heap₁, made, isMade⟩ : ∃ heap₁ made, Slice.alloc heap (List.replicate 4 0) = (heap₁, made) :=
      ⟨_, _, rfl⟩
    have only₁ : heap.Only [header, option] heap₁ := by
      have only := Heap.Only.alloc heap [header, option] (List.replicate 4 0)
      rwa [isMade] at only
    have inMade : made.Inside heap₁ := by
      have fresh := Slice.alloc_inside heap (List.replicate 4 0)
      rwa [isMade] at fresh
    have madeLen : made.len = 4 := by
      have len : (Slice.alloc heap (List.replicate 4 0)).2.len = 4 := rfl
      rwa [isMade] at len
    have madeArray : made.array = heap.length := by
      have array : (Slice.alloc heap (List.replicate 4 0)).2.array = heap.length := rfl
      rwa [isMade] at array
    simp only [isMade]
    have within : (FieldRef.part 0 1).Within header := large
    refine (update_whenever (inside.grown only₁.1) within (setBits_resizes _ _ _)).bind
      fun heap₂ only₂ => ?_
    have inMade₂ := inMade.grown only₂.1
    refine .pure ⟨?_, ?_, fun present => absurd missing present, fun _ => ⟨madeLen, madeArray⟩⟩
    · exact (only₁.trans (only₂.mono (by simp))).set_new (Nat.le_of_eq madeArray.symm) inMade₂
        (resize_length _ _)
    · exact inMade₂.grown (Slice.set_grown inMade₂ (resize_length _ _))
  · rw [if_neg missing]
    refine .pure ⟨?_, ?_, fun _ => rfl, fun empty => absurd empty missing⟩
    · exact .set (by simp) (.refl _) inOption (resize_length _ _)
    · exact inOption.grown (Slice.set_grown inOption (resize_length _ _))

def Extends (id : FieldID) : IPHeader Slice → Prop
  | .gre _ key seq _ =>
    id.isUDF = false ∧ (id.num = keyField ∧ key.len = 0 ∨ id.num = sequenceField ∧ seq.len = 0)
  | _ => False

instance (id : FieldID) : DecidablePred (Extends id)
  | .ip4 .. => inferInstanceAs (Decidable False)
  | .ip6 .. => inferInstanceAs (Decidable False)
  | .gre .. => inferInstanceAs (Decidable (_ ∧ _))

def Effect (heap : Heap UInt8) (id : FieldID) (ip : IPHeader Slice) (heap' : Heap UInt8)
    (ip' : IPHeader Slice) : Prop :=
  heap.Only ip.slices heap' ∧ ip'.Inside heap' ∧ ip'.Shaped Slice.len ∧
    (¬ ip.Extends id → ip'.form = ip.form) ∧ (ip.Extends id → ip'.size = ip.size + 4)

theorem updateGRE_whenever {key seq : Slice} {payload : Nat}
    (inside : (IPHeader.gre header key seq payload).Inside heap)
    (shaped : (IPHeader.gre header key seq payload).Shaped Slice.len) (op : UpdateOp) (arg : Bytes) :
    (updateGRE heap header key seq payload id op arg).Whenever fun (heap', ip') =>
      Effect heap id (.gre header key seq payload) heap' ip' := by
  obtain ⟨inHeader, inKey, inSeq⟩ := inside_gre.mp inside
  obtain ⟨size, keySize, seqSize⟩ := shaped
  unfold updateGRE
  split
  · rintro _ ⟨⟩
  rename_i named
  rw [Bool.not_eq_true] at named
  split
  · rintro _ ⟨⟩
  split
  · rename_i isKey
    refine (updateOption_whenever inHeader inKey (by omega) 5 arg).bind ?_
    rintro ⟨heap', key'⟩ ⟨only, inKey', kept, made⟩
    refine .pure ⟨only.mono (by simp [slices]),
      inside_gre.mpr ⟨inHeader.grown only.1, inKey', inSeq.grown only.1⟩, ?_, ?_, ?_⟩
    · refine ⟨size, ?_, seqSize⟩
      by_cases missing : key.len = 0
      · exact Or.inr (made missing).1
      · rwa [kept missing]
    · intro present
      have isKept : key.len ≠ 0 := fun missing => present ⟨named, Or.inl ⟨isKey, missing⟩⟩
      rw [kept isKept]
    · rintro ⟨-, ⟨-, missing⟩ | ⟨isSeq, -⟩⟩
      · simp only [IPHeader.size, (made missing).1, missing]
        omega
      · rw [isKey] at isSeq
        exact absurd isSeq (by decide)
  split
  · rename_i notKey isSeq
    refine (updateOption_whenever inHeader inSeq (by omega) 4 arg).bind ?_
    rintro ⟨heap', seq'⟩ ⟨only, inSeq', kept, made⟩
    refine .pure ⟨only.mono (by simp [slices]),
      inside_gre.mpr ⟨inHeader.grown only.1, inKey.grown only.1, inSeq'⟩, ?_, ?_, ?_⟩
    · refine ⟨size, keySize, ?_⟩
      by_cases missing : seq.len = 0
      · exact Or.inr (made missing).1
      · rwa [kept missing]
    · intro present
      have isKept : seq.len ≠ 0 := fun missing => present ⟨named, Or.inr ⟨isSeq, missing⟩⟩
      rw [kept isKept]
    · rintro ⟨-, ⟨isKey, -⟩ | ⟨-, missing⟩⟩
      · exact absurd isKey notKey
      · simp only [IPHeader.size, (made missing).1, missing, Nat.add_zero]
  · rintro _ ⟨⟩

theorem update_effect {ip : IPHeader Slice} (inside : ip.Inside heap) (shaped : ip.Shaped Slice.len)
    (op : UpdateOp) (arg : Bytes) :
    (ip.update heap id op arg).Whenever fun (heap', ip', _) => Effect heap id ip heap' ip' := by
  cases ip with
  | ip4 header payload =>
    refine (updateIP4_whenever (inside _ List.mem_cons_self) shaped.1 op arg).bind ?_
    rintro ⟨heap', dirty⟩ only
    exact .pure ⟨only, inside.grown only.1, shaped, fun _ => rfl, nofun⟩
  | ip6 header payload =>
    refine (updateIP6_whenever (inside _ List.mem_cons_self) op arg).bind ?_
    rintro ⟨heap', dirty⟩ only
    exact .pure ⟨only, inside.grown only.1, shaped, fun _ => rfl, nofun⟩
  | gre header key seq payload =>
    refine (updateGRE_whenever inside shaped op arg).bind ?_
    rintro ⟨heap', ip'⟩ effect
    exact .pure effect

end IPHeader

theorem sum_set {sizes : List Nat} {pos old new : Nat} (here : sizes[pos]? = some old) :
    (sizes.set pos new).sum + old = sizes.sum + new := by
  induction sizes generalizing pos with
  | nil => cases here
  | cons size sizes ih =>
    cases pos with
    | zero =>
      obtain rfl : size = old := Option.some.inj here
      simp only [List.set_cons_zero, List.sum_cons]
      omega
    | succ pos =>
      have rest := ih here
      simp only [List.set_cons_succ, List.sum_cons]
      omega

end IP

section Handlers

namespace Handler

variable {heap : Heap UInt8} {handler : Handler Slice} {id : FieldID}

def Extends (id : FieldID) : Handler Slice → Prop
  | .ip _ headers =>
    ∃ ip, (IPHeader.lookup headers id).bind (headers[·]?) = some ip ∧ ip.Extends id
  | _ => False

structure Effect (heap : Heap UInt8) (id : FieldID) (handler : Handler Slice) (heap' : Heap UInt8)
    (handler' : Handler Slice) : Prop where
  only : heap.Only handler.slices heap'
  inside : handler'.Inside heap'
  shaped : handler'.Shaped Slice.len
  group : handler'.group = handler.group
  form : ¬ handler.Extends id → handler'.form = handler.form
  size : handler.Extends id → handler'.size = handler.size + 4

theorem Effect.same (inside : handler.Inside heap) (shaped : handler.Shaped Slice.len)
    {heap' : Heap UInt8} (only : heap.Only handler.slices heap') (plain : ¬ handler.Extends id) :
    Effect heap id handler heap' handler :=
  ⟨only, inside.grown only.1, shaped, rfl, fun _ => rfl, fun extended => absurd extended plain⟩

theorem ethernet_updateField {eth : Ethernet Slice} (inside : eth.header.Inside heap)
    (op : UpdateOp) (arg : Bytes) :
    (eth.updateField heap id op arg).Whenever fun heap' => heap.Only [eth.header] heap' := by
  unfold Ethernet.updateField
  cases found : eth.field id with
  | none => exact nofun
  | some ref =>
    have within : ref.Within eth.header := by
      unfold Ethernet.field at found
      split at found
      · dsimp only at found
        generalize (if id.inst = lastField then UInt8.ofNat (eth.vlans.length + 255)
          else id.inst) = inst at found
        split at found
        · exact within_within found
        · split at found
          · cases found
            trivial
          · cases found
      · exact find_within found
    dsimp only
    split
    · exact nofun
    split
    · exact update_whenever inside within (set_resizes arg)
    split
    · refine (Outcome.Whenever.any _).bind fun bits _ => ?_
      exact update_whenever inside within (setBits_resizes _ _ _)
    split
    · refine (Outcome.Whenever.any _).bind fun bits _ => ?_
      exact update_whenever inside within (setBits_resizes _ _ _)
    · exact update_whenever inside within (set_resizes arg)

variable {header : Slice}

theorem icmp6Field_within {type : Nat} {options : NDOptions} {ref : FieldRef}
    (found : icmp6Field type options header id = some ref) : ref.Within header := by
  unfold icmp6Field at found
  split at found
  · cases found
    exact find_within ‹_›
  · split at found
    · split at found
      · exact within_within found
      · cases found
    · split at found
      · obtain ⟨place, -, found⟩ := Option.bind_eq_some_iff.mp found
        exact within_within found
      · split at found
        · obtain ⟨place, -, found⟩ := Option.bind_eq_some_iff.mp found
          exact within_within found
        · cases found

theorem ip_updateField {linked : Bool} {headers : List (IPHeader Slice)}
    (inside : IPHeader.InsideAll heap headers) (shaped : ∀ ip ∈ headers, ip.Shaped Slice.len)
    (op : UpdateOp) (arg : Bytes) :
    ((Handler.ip linked headers).updateField heap id op arg).Whenever fun (heap', handler', dirty) =>
      ∃ pos ip ip', IPHeader.lookup headers id = some pos ∧ headers[pos]? = some ip ∧
        ip.update heap id op arg = .ok (heap', ip', dirty) ∧
        handler' = .ip linked (headers.set pos ip') ∧ IPHeader.Effect heap id ip heap' ip' := by
  rw [updateField]
  cases isPos : IPHeader.lookup headers id with
  | none => exact nofun
  | some pos =>
    dsimp only
    cases isIP : headers[pos]? with
    | none => exact nofun
    | some ip =>
      dsimp only
      have mem := List.mem_of_getElem? isIP
      have effect : (ip.update heap id op arg).Whenever fun (heap', ip', _) =>
          IPHeader.Effect heap id ip heap' ip' :=
        IPHeader.update_effect (inside ip mem) (shaped ip mem) op arg
      intro result isOk
      obtain ⟨⟨heap', ip', dirty⟩, isUpdate, isResult⟩ := Outcome.bind_eq_ok.mp isOk
      cases isResult
      exact ⟨pos, ip, ip', rfl, isIP, isUpdate, rfl, effect _ isUpdate⟩

theorem Effect.ofIP {linked : Bool} {headers : List (IPHeader Slice)} {pos : Nat}
    {ip ip' : IPHeader Slice} {heap' : Heap UInt8}
    (inside : (Handler.ip linked headers).Inside heap)
    (shaped : (Handler.ip linked headers).Shaped Slice.len)
    (isPos : IPHeader.lookup headers id = some pos) (isIP : headers[pos]? = some ip)
    (effect : IPHeader.Effect heap id ip heap' ip') :
    Effect heap id (.ip linked headers) heap' (.ip linked (headers.set pos ip')) := by
  have mem := List.mem_of_getElem? isIP
  obtain ⟨only, inIP, shapedIP, kept, grown⟩ := effect
  have extends_iff : (Handler.ip linked headers).Extends id ↔ ip.Extends id := by
    simp only [Handler.Extends, isPos, Option.bind_some, isIP, Option.some.injEq, exists_eq_left']
  have only : heap.Only (Handler.ip linked headers).slices heap' :=
    only.mono fun s part => List.mem_flatMap.mpr ⟨ip, mem, part⟩
  refine ⟨only, ?_, ⟨shaped.1, by simpa using shaped.2.1, ?_⟩, rfl, ?_, ?_⟩
  · intro s part
    obtain ⟨other, isOther, mine⟩ := List.mem_flatMap.mp part
    rcases List.mem_or_eq_of_mem_set isOther with old | rfl
    · exact (inside.headers other old).grown only.1 s mine
    · exact inIP s mine
  · intro other isOther
    rcases List.mem_or_eq_of_mem_set isOther with old | rfl
    · exact shaped.2.2 other old
    · exact shapedIP
  · intro plain
    rw [extends_iff] at plain
    simp only [Handler.form, List.map_set, kept plain]
    congr 1
    refine List.ext_getElem? fun i => ?_
    rw [List.getElem?_set]
    split
    · rename_i same
      subst same
      rw [List.getElem?_map, isIP, if_pos (by simpa using (List.getElem?_eq_some_iff.mp isIP).1)]
      rfl
    · rfl
  · intro extended
    rw [extends_iff] at extended
    have here : (headers.map IPHeader.size)[pos]? = some ip.size := by
      rw [List.getElem?_map, isIP]
      rfl
    have total := @sum_set _ _ _ ip'.size here
    simp only [Handler.size, List.map_set]
    have more := grown extended
    omega

theorem metadata_updateField (md : Metadata) (op : UpdateOp) (arg : Bytes) :
    (md.updateField id op arg).Whenever fun md' => md'.length = md.length := by
  unfold Metadata.updateField
  split
  · exact nofun
  split
  · unfold Metadata.updateSet
    split
    · exact .pure rfl
    split
    · exact .pure rfl
    split
    · exact .pure rfl
    · exact nofun
  · unfold Metadata.updateIncDec
    split
    · exact (Outcome.Whenever.any _).bind fun _ _ => .pure rfl
    · exact nofun
  · unfold Metadata.updateIncDec
    split
    · exact (Outcome.Whenever.any _).bind fun _ _ => .pure rfl
    · exact nofun
  · exact nofun

theorem tcp_updateField (inside : header.Inside heap) (op : UpdateOp) (arg : Bytes) :
    ((Handler.tcp header).updateField heap id op arg).Whenever fun (heap', handler', _) =>
      heap.Only [header] heap' ∧ handler' = .tcp header := by
  rw [updateField]
  split
  · exact nofun
  split
  · exact nofun
  · rename_i ref found
    have within := find_within found
    split
    · refine (Outcome.Whenever.any _).bind fun bits _ => ?_
      exact (update_whenever inside within (setBits_resizes _ _ _)).bind
        fun _ only => .pure ⟨only, rfl⟩
    · exact (update_whenever inside within (set_resizes arg)).bind fun _ only => .pure ⟨only, rfl⟩

theorem updateField_effect (inside : handler.Inside heap) (shaped : handler.Shaped Slice.len)
    (op : UpdateOp) (arg : Bytes) :
    (handler.updateField heap id op arg).Whenever fun (heap', handler', _) =>
      Effect heap id handler heap' handler' ∧
        ∀ md', handler' = .metadata md' → ∃ md, handler = .metadata md ∧ md'.length = md.length := by
  have plain : ∀ {message : String} {header : Slice} {found : Option FieldRef},
      header ∈ handler.slices → (∀ ref, found = some ref → ref.Within header) →
        ¬ handler.Extends id → (∀ md, handler ≠ .metadata md) →
        (plainUpdate heap message header found op arg).Whenever fun heap' =>
          Effect heap id handler heap' handler ∧
            ∀ md', handler = .metadata md' → ∃ md, handler = .metadata md ∧ md'.length = md.length := by
    intro message header found part within fixed noMetadata heap' isOk
    have only : heap.Only [header] heap' := by
      unfold plainUpdate at isOk
      split at isOk
      · exact update_whenever (inside header part) (within _ rfl) (set_resizes arg) heap' isOk
      · cases isOk
    refine ⟨.same inside shaped (only.mono ?_) fixed, fun md same => absurd same (noMetadata md)⟩
    simpa using part
  cases handler with
  | metadata md =>
    refine (metadata_updateField md op arg).bind fun md' same => .pure ⟨?_, ?_⟩
    · exact ⟨.refl _ _, nofun, trivial, rfl, fun _ => rfl, nofun⟩
    · rintro _ ⟨⟩
      exact ⟨md, rfl, same⟩
  | ethernet eth =>
    refine (ethernet_updateField (inside _ List.mem_cons_self) op arg).bind fun heap' only => ?_
    exact .pure ⟨.same inside shaped only nofun, nofun⟩
  | ip linked headers =>
    rintro ⟨heap', handler', dirty⟩ isOk
    obtain ⟨pos, ip, ip', isPos, isIP, -, rfl, effect⟩ :=
      ip_updateField inside.headers shaped.2.2 op arg _ isOk
    exact ⟨.ofIP inside shaped isPos isIP effect, nofun⟩
  | tcp header =>
    rintro ⟨heap', handler', dirty⟩ isOk
    obtain ⟨only, rfl⟩ := tcp_updateField (inside _ List.mem_cons_self) op arg _ isOk
    exact ⟨.same inside shaped only nofun, nofun⟩
  | icmp6 type options header =>
    exact (plain List.mem_cons_self (fun _ => icmp6Field_within) nofun nofun).bind
      fun _ effect => .pure effect
  | _ header =>
    exact (plain List.mem_cons_self (fun _ => find_within) nofun nofun).bind
      fun _ effect => .pure effect

end Handler

end Handlers

end Lemming.Protocol

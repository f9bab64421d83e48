import Lemming.Protocol.Compact

set_option autoImplicit false

namespace Lemming.Packet.Parser

def fieldSize (num : Int32) : Nat :=
  ((fieldAttr.lookup num).map defaultSize).getD 0

theorem maxSize_named {id : FieldID} (named : id.isUDF = false) : maxSize id = fieldSize id.num := by
  unfold maxSize fieldSize
  rw [named]
  cases fieldAttr.lookup id.num <;> rfl

theorem maxSize_udf {id : FieldID} (isUDF : id.isUDF = true) : maxSize id = id.size.toNat := by
  rw [maxSize, if_pos isUDF]

end Lemming.Packet.Parser

namespace Lemming.Protocol

open Shared Lemming.Packet Lemming.Packet.Parser

section Parts

variable {heap : Heap UInt8} {header : Slice} {id : FieldID} {ref : FieldRef}

theorem bitField_length {field : Bytes} (numeric : Field.Numeric field) {bitpos bitcount : Nat}
    (inside : bitpos + bitcount ≤ field.length * 8) (positive : 0 < bitcount) :
    (Field.bitField field bitpos bitcount).Yields fun bits => bits.length = field.length := by
  refine ⟨_, by rw [Field.bitField, if_neg (by omega), if_pos numeric], ?_⟩
  exact octetsOf_length _ _

namespace FieldRef

def size : FieldRef → Nat
  | .part _ n => n
  | .copy bytes => bytes.length

theorem get_length (inside : header.Inside heap) (within : ref.Within header) :
    (ref.get heap header).length = ref.size := by
  cases ref with
  | part off n => exact Slice.get_length ((Slice.covers_sub within).inside inside)
  | copy bytes => rfl

theorem within_size {off n : Nat} (found : FieldRef.within header off n = some ref) :
    ref.size = n := by
  unfold FieldRef.within at found
  split at found
  · cases found
  · cases found
    rfl

end FieldRef

def Narrow (places : List (Int32 × Nat × Nat)) : Prop :=
  ∀ num off n, places.lookup num = some (off, n) → n ≤ fieldSize num

variable {places : List (Int32 × Nat × Nat)}

theorem narrow_of_forall
    (each : ∀ place ∈ places, place.2.2 ≤ fieldSize place.1) : Narrow places := by
  intro num off n found
  obtain ⟨front, back, rfl, -⟩ := List.lookup_eq_some_iff.mp found
  exact each (num, off, n) (by simp)

theorem find_size (narrow : Narrow places)
    (found : FieldRef.find places header id = some ref) : ref.size ≤ maxSize id := by
  unfold FieldRef.find at found
  split at found
  · rename_i isUDF
    rw [FieldRef.within_size found, maxSize_udf isUDF]
  · rename_i named
    obtain ⟨⟨off, n⟩, isPlace, found⟩ := Option.bind_eq_some_iff.mp found
    rw [FieldRef.within_size found, maxSize_named (Bool.eq_false_iff.mpr named)]
    exact narrow _ _ _ isPlace

theorem find_named {off n : Nat} (named : id.isUDF = false)
    (isPlace : places.lookup id.num = some (off, n))
    (found : FieldRef.find places header id = some ref) : ref.size = n := by
  rw [FieldRef.find, named, if_neg Bool.false_ne_true, isPlace] at found
  exact FieldRef.within_size found

theorem find_fits (inside : header.Inside heap) (narrow : Narrow places)
    (found : FieldRef.find places header id = some ref) :
    (ref.get heap header).length ≤ maxSize id := by
  rw [FieldRef.get_length inside (find_within found)]
  exact find_size narrow found

end Parts

def Sized (id : FieldID) (read : Outcome Bytes) : Prop :=
  read.Allows fun bytes => bytes.length ≤ maxSize id

theorem Sized.ok {id : FieldID} {bytes : Bytes} (short : bytes.length ≤ maxSize id) :
    Sized id (.ok bytes) :=
  Or.inl ⟨bytes, rfl, short⟩

theorem Sized.error (id : FieldID) (message : String) : Sized id (.error message) :=
  Or.inr ⟨message, rfl⟩

theorem Sized.bits {id : FieldID} {field : Bytes} {bitpos bitcount : Nat}
    (numeric : Field.Numeric field) (inside : bitpos + bitcount ≤ field.length * 8)
    (positive : 0 < bitcount) (short : field.length ≤ maxSize id) :
    Sized id (Field.bitField field bitpos bitcount) := by
  refine Or.inl ((bitField_length numeric inside positive).imp ?_)
  intro bits same
  exact same.trans_le short

section Handlers

variable {heap : Heap UInt8} {header : Slice} {id : FieldID}

namespace IPHeader

theorem field_fits {places : List (Int32 × Nat × Nat)} (inside : header.Inside heap)
    (narrow : Narrow places) (id : FieldID) :
    (IPHeader.field heap places header id).Yields fun found => ∀ ref, found = some ref →
      (ref.get heap header).length ≤ maxSize id ∧
        (id.isUDF = false → ∀ off n, places.lookup id.num = some (off, n) → id.num ≠ versionField →
          (ref.get heap header).length = n) := by
  unfold IPHeader.field
  split
  · rename_i isVersion
    split
    · exact ⟨none, rfl, nofun⟩
    · have one : ((header.sub 0 1).get heap).length = 1 :=
        Slice.get_length ((Slice.covers_sub (by omega)).inside inside)
      refine (bitField_length (Or.inl one) (by omega) (by decide)).bind fun bits same => .pure ?_
      rintro ref ⟨⟩
      refine ⟨?_, fun _ _ _ _ other => absurd isVersion.2 other⟩
      rw [maxSize_named isVersion.1, isVersion.2]
      exact (same.trans one).le
  · refine ⟨_, rfl, fun ref found => ⟨find_fits inside narrow found, ?_⟩⟩
    intro named off n isPlace _
    rw [FieldRef.get_length inside (find_within found)]
    exact find_named named isPlace found

theorem ip4_narrow : Narrow ip4Places := narrow_of_forall (by decide)

theorem ip6_narrow : Narrow ip6Places := narrow_of_forall (by decide)

theorem find_fits {ip : IPHeader Slice} (inside : ip.Inside heap) (shaped : ip.Shaped Slice.len) :
    Sized id (ip.find heap id) := by
  cases ip with
  | ip4 header payload =>
    have inHeader : header.Inside heap := inside _ List.mem_cons_self
    obtain ⟨found, isFound, fits⟩ := field_fits inHeader ip4_narrow id
    rw [IPHeader.find, isFound]
    cases found with
    | none => exact .error _ _
    | some ref => exact .ok (fits ref rfl).1
  | ip6 header payload =>
    have inHeader : header.Inside heap := inside _ List.mem_cons_self
    obtain ⟨found, isFound, fits⟩ := field_fits inHeader ip6_narrow id
    rw [IPHeader.find, isFound]
    cases found with
    | none => exact .error _ _
    | some ref =>
      obtain ⟨short, exactly⟩ := fits ref rfl
      simp only [Outcome.ok_bind]
      split
      · exact .ok short
      · rename_i named
        have named := Bool.eq_false_iff.mpr named
        split
        · rename_i isQos
          have four := exactly named 0 4 (by rw [isQos]; decide) (by rw [isQos]; decide)
          exact .bits (by simp [Field.Numeric, four]) (by omega) (by decide) short
        · split
          · rename_i isFlow
            have four := exactly named 0 4 (by rw [isFlow]; decide) (by rw [isFlow]; decide)
            exact .bits (by simp [Field.Numeric, four]) (by omega) (by decide) short
          · exact .ok short
  | gre header key seq payload =>
    obtain ⟨-, keySize, seqSize⟩ := shaped
    have inKey := Slice.get_length (inside key (by simp [slices]))
    have inSeq := Slice.get_length (inside seq (by simp [slices]))
    rw [IPHeader.find]
    split
    · rename_i isKey
      refine .ok ?_
      rw [maxSize_named isKey.1, isKey.2.1, inKey]
      exact keySize.elim (by omega) fun four => four.le
    · split
      · rename_i isSeq
        refine .ok ?_
        rw [maxSize_named isSeq.1, isSeq.2.1, inSeq]
        exact seqSize.elim (by omega) fun four => four.le
      · exact .error _ _

end IPHeader

theorem copyInto_length (dst src : Bytes) : (Metadata.copyInto dst src).length = dst.length := by
  rw [Metadata.copyInto, List.length_append, List.length_take, List.length_drop]
  omega

theorem lookup_le {sizes : List (Int32 × Nat)} (each : ∀ entry ∈ sizes, entry.2 ≤ fieldSize entry.1)
    {num : Int32} {size : Nat} (found : sizes.lookup num = some size) : size ≤ fieldSize num := by
  obtain ⟨front, back, rfl, -⟩ := List.lookup_eq_some_iff.mp found
  exact each (num, size) (by simp)

theorem initial_le {length : Nat} {num : Int32} {inst : UInt8} {bytes : Bytes}
    (found : (newMetadata length).fields num inst = some bytes) : bytes.length ≤ fieldSize num := by
  simp only [newMetadata] at found
  split at found
  · obtain ⟨size, isSize, rfl⟩ := Option.map_eq_some_iff.mp found
    rw [List.length_replicate]
    exact lookup_le (by decide) isSize
  · cases found

theorem Metadata.field_fits (length : Nat) : Sized id ((newMetadata length).field id) := by
  unfold Metadata.field
  split
  · exact .error _ _
  · rename_i named
    have named := Bool.eq_false_iff.mpr named
    split
    · rename_i isLength
      refine .ok ?_
      rw [maxSize_named named, isLength, octetsOf_length]
      decide
    · split
      · rename_i isVrf
        refine .ok ?_
        rw [maxSize_named named, isVrf, copyInto_length]
        decide
      · split
        · refine .ok ?_
          rw [maxSize_named named]
          cases found : (newMetadata length).fields id.num 0 with
          | none => exact Nat.zero_le _
          | some bytes => exact initial_le found
        · split
          · rename_i size isSize
            refine .ok ?_
            rw [maxSize_named named]
            cases found : (newMetadata length).fields id.num id.inst with
            | none =>
              have widths : ∀ entry ∈ attributeSizes, entry.2 ≤ fieldSize entry.1 := by decide
              rw [Option.getD_none, List.length_replicate]
              exact lookup_le widths isSize
            | some bytes => exact initial_le found
          · exact .error _ _

theorem Ethernet.field_fits {eth : Ethernet Slice} (inside : eth.header.Inside heap)
    {ref : FieldRef} (found : eth.field id = some ref) :
    (ref.get heap eth.header).length ≤ maxSize id ∧
      (id.isUDF = false → id.num = vlanTagField ∨ id.num = vlanPriorityField →
        (ref.get heap eth.header).length = 2) := by
  unfold Ethernet.field at found
  split at found
  · rename_i isTag
    have two : (ref.get heap eth.header).length = 2 := by
      dsimp only at found
      split at found
      · rw [FieldRef.get_length inside (within_within found), FieldRef.within_size found]
      · split at found
        · cases found
          rfl
        · cases found
    refine ⟨?_, fun _ _ => two⟩
    rw [two, maxSize_named isTag.1]
    rcases isTag.2 with isNum | isNum <;> rw [isNum] <;> decide
  · rename_i other
    have narrow : Narrow [(macSrcField, 6, 6), (macDstField, 0, 6), (etherTypeField, eth.next, 2)] := by
      refine narrow_of_forall ?_
      simp only [List.forall_mem_cons]
      exact ⟨by decide, by decide, by decide, nofun⟩
    exact ⟨Protocol.find_fits inside narrow found, fun named isTag => absurd ⟨named, isTag⟩ other⟩

theorem Ethernet.readField_fits {eth : Ethernet Slice} (inside : eth.header.Inside heap) :
    Sized id (eth.readField heap id) := by
  unfold Ethernet.readField
  split
  · exact .error _ _
  · rename_i ref found
    obtain ⟨short, two⟩ := Ethernet.field_fits inside found
    dsimp only
    split
    · exact .ok short
    · rename_i named
      have named := Bool.eq_false_iff.mpr named
      split
      · rename_i isTag
        have two := two named (Or.inl isTag)
        exact .bits (by simp [Field.Numeric, two]) (by omega) (by decide) short
      · split
        · rename_i isPriority
          have two := two named (Or.inr isPriority)
          exact .bits (by simp [Field.Numeric, two]) (by omega) (by decide) short
        · exact .ok short

def Handler.option (num : Int32) : Handler Slice → Option Nat
  | .icmp6 _ options header =>
    (if num = ndSLLField then options.sll else if num = ndTLLField then options.tll else none).bind
      fun (off, n) => if off + n ≤ header.len then some n else none
  | _ => none

def Requested (id : FieldID) : Prop :=
  id.isUDF = true → id.num = 0

theorem Requested.named {id : FieldID} (requested : Requested id) (numbered : id.num ≠ 0) :
    id.isUDF = false :=
  Bool.eq_false_iff.mpr fun isUDF => numbered (requested isUDF)

theorem newFieldID_requested (field : PacketFieldId) : Requested (newFieldID field) := by
  unfold newFieldID
  split
  · exact fun _ => rfl
  · exact nofun
  · exact nofun

namespace Handler

theorem plainField_fits {name : String} {ref : Option FieldRef}
    (fits : ∀ found, ref = some found → (found.get heap header).length ≤ maxSize id) :
    Sized id (plainField heap name header ref) := by
  cases ref with
  | none => exact .error _ _
  | some found => exact .ok (fits found rfl)

theorem tcp_narrow : Narrow tcpPlaces := narrow_of_forall (by decide)

theorem icmp_narrow : Narrow icmpPlaces := narrow_of_forall (by decide)

theorem icmp6Field_fits {type : Nat} {options : NDOptions} (inside : header.Inside heap)
    (requested : Requested id) (plain : (Handler.icmp6 type options header).option id.num = none)
    {ref : FieldRef} (found : icmp6Field type options header id = some ref) :
    (ref.get heap header).length ≤ maxSize id := by
  unfold icmp6Field at found
  split at found
  · rename_i common isCommon
    cases found
    exact Protocol.find_fits inside icmp_narrow isCommon
  · -- An option that the message has room for is left out by `plain`.
    have noOption : ∀ {value : Option (Nat × Nat)} {ref : FieldRef},
        (value.bind fun (off, n) => if off + n ≤ header.len then some n else none) = none →
          (value.bind fun (off, n) => FieldRef.within header off n) ≠ some ref := by
      intro value ref none isRef
      obtain ⟨⟨off, n⟩, rfl, isRef⟩ := Option.bind_eq_some_iff.mp isRef
      by_cases room : off + n ≤ header.len
      · simp [room] at none
      · simp [FieldRef.within, Nat.lt_of_not_le room] at isRef
    split at found
    · rename_i isTarget
      split at found
      · have named := requested.named (by rw [isTarget]; decide)
        rw [FieldRef.get_length inside (within_within found), FieldRef.within_size found,
          maxSize_named named, isTarget]
        decide
      · cases found
    · split at found
      · rename_i isSll
        simp only [option, isSll, if_true] at plain
        exact absurd found (noOption plain)
      · rename_i notSll
        split at found
        · rename_i isTll
          simp only [option, isTll, if_true] at plain
          rw [if_neg (by decide)] at plain
          exact absurd found (noOption plain)
        · cases found

theorem field_fits {handler : Handler Slice} (inside : handler.Inside heap)
    (shaped : handler.Shaped Slice.len)
    (fresh : ∀ md, handler = .metadata md → ∃ length, md = newMetadata length)
    (requested : Requested id) (plain : handler.option id.num = none) :
    Sized id (handler.field heap id) := by
  cases handler with
  | metadata md =>
    obtain ⟨length, rfl⟩ := fresh md rfl
    exact Metadata.field_fits length
  | ethernet eth => exact Ethernet.readField_fits (inside _ List.mem_cons_self)
  | ip linked headers =>
    rw [Handler.field]
    split
    · rename_i ip found
      obtain ⟨pos, -, isIP⟩ := Option.bind_eq_some_iff.mp found
      have mem := List.mem_of_getElem? isIP
      exact IPHeader.find_fits (inside.headers ip mem) (shaped.2.2 ip mem)
    · exact .error _ _
  | tcp header =>
    have inHeader : header.Inside heap := inside _ List.mem_cons_self
    rw [Handler.field]
    split
    · exact .error _ _
    · rename_i ref found
      have short := Protocol.find_fits inHeader tcp_narrow found
      split
      · rename_i isFlags
        have two : (ref.get heap header).length = 2 := by
          rw [FieldRef.get_length inHeader (find_within found)]
          exact find_named isFlags.1 (by rw [isFlags.2]; rfl) found
        exact .bits (by simp [Field.Numeric, two]) (by omega) (by decide) short
      · exact .ok short
  | udp header | arp header | icmp4 header | opaqueData header =>
    exact plainField_fits fun _ found =>
      Protocol.find_fits (inside _ List.mem_cons_self) (narrow_of_forall (by decide)) found
  | icmp6 type options header =>
    exact plainField_fits fun ref found =>
      icmp6Field_fits (inside _ List.mem_cons_self) requested plain found

theorem field_option {handler : Handler Slice} (inside : handler.Inside heap)
    (requested : Requested id) {n : Nat} (has : handler.option id.num = some n) :
    (handler.field heap id).Yields fun bytes => bytes.length = n := by
  cases handler with
  | icmp6 type options header =>
    have inHeader : header.Inside heap := inside _ List.mem_cons_self
    obtain ⟨⟨off, m⟩, isOption, room⟩ := Option.bind_eq_some_iff.mp has
    dsimp only at room
    split at room
    · rename_i fits
      cases room
      have isNum : id.num = ndSLLField ∨ id.num = ndTLLField := by
        by_contra neither
        rw [not_or] at neither
        rw [if_neg neither.1, if_neg neither.2] at isOption
        cases isOption
      have named := requested.named (by rcases isNum with is | is <;> rw [is] <;> decide)
      have isRef : icmp6Field type options header id = some (.part off n) := by
        have uncommon : FieldRef.find icmpPlaces header id = none := by
          rw [FieldRef.find, named, if_neg Bool.false_ne_true]
          rcases isNum with isNum | isNum <;> rw [isNum] <;> rfl
        have part : FieldRef.within header off n = some (.part off n) := by
          rw [FieldRef.within, if_neg (by omega)]
        unfold icmp6Field
        rw [uncommon]
        rcases isNum with isNum | isNum
        · rw [if_pos isNum] at isOption
          simp [isNum, isOption, part, ndSLLField, ndTargetField]
        · rw [isNum, if_neg (by decide), if_pos rfl] at isOption
          simp [isNum, isOption, part, ndSLLField, ndTLLField, ndTargetField]
      refine ⟨_, by rw [Handler.field, isRef]; rfl, ?_⟩
      show ((FieldRef.part off n).get heap header).length = n
      exact FieldRef.get_length inHeader fits
    · cases room
  | _ => cases has

end Handler

end Handlers

end Lemming.Protocol

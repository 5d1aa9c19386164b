import Mathlib.Data.List.Dedup
import Neptools.Gbnl.RoundTrip

/-!
When a table that is written is read again at all. The sizes computed by
`RecalcSize` are compared with the room that the strings of the table take, and
the inequalities of the header check with the offsets that the writer puts into
the header.
-/

namespace Neptools

open Lib

namespace Gbnl

/-- The strings of a message, without the nil ones. -/
def texts (m : Struct) : List Bytes :=
  m.filterMap fun
    | .offsetString str offset => if offset = nilOffset then none else some str
    | _ => none

/-- The room that strings take when equal ones stand once. -/
def textSize (strs : List Bytes) : Nat := (strs.dedup.map fun str => str.length + 1).sum

/-- A string up to its first NUL. -/
def cut (str : Bytes) : Bytes := str.takeWhile (· ≠ 0)

theorem textSize_perm {strs strs' : List Bytes} (h : strs.Perm strs') :
    textSize strs = textSize strs' := (h.dedup.map _).sum_nat

theorem texts_content (m : Struct) : texts (m.map Value.content) = texts m := by
  rw [texts, List.filterMap_map]
  refine List.filterMap_congr fun v _ => ?_
  cases v with
  | offsetString str offset =>
      by_cases hnil : offset = nilOffset
      · simp only [Function.comp_apply, Value.content, if_pos hnil, if_true]
      · simp only [Function.comp_apply, Value.content, if_neg hnil]
        exact if_neg (by decide)
  | _ => rfl

theorem texts_readBack (m : Struct) : texts (m.map Value.readBack) = (texts m).map cut := by
  rw [texts, texts, List.filterMap_map, List.map_filterMap]
  refine List.filterMap_congr fun v _ => ?_
  cases v with
  | offsetString str offset =>
      by_cases hnil : offset = nilOffset
      · simp only [Function.comp_apply, Value.readBack, if_pos hnil, if_true, Option.map_none]
      · simp only [Function.comp_apply, Value.readBack, if_neg hnil, Option.map_some]
        exact if_neg (by decide)
  | _ => rfl

section

variable {g : Gbnl} (hsize : g.recalcSize.msgsSize < 2 ^ 32 - 1)

include hsize

theorem content_recalcSize :
    g.recalcSize.messages.map (List.map Value.content) = g.messages.map (List.map Value.content) :=
  content_placeMessages StringTable.describes_empty hsize

theorem texts_recalcSize : texts g.recalcSize.messages.flatten = texts g.messages.flatten := by
  rw [← texts_content, ← texts_content g.messages.flatten, List.map_flatten, List.map_flatten,
    content_recalcSize hsize]

end

namespace StringTable

/-- The table has the strings of `seen`, and its offset is the room they take. -/
structure Holds (t : StringTable) (seen : List Bytes) : Prop where
  lookup : ∀ str, t.offsetMap.lookup str = none ↔ str ∉ seen
  offset_eq : t.offset = textSize seen

theorem holds_empty : Holds empty [] := ⟨fun _ => by simp [empty], rfl⟩

theorem Holds.place {t : StringTable} {seen : List Bytes} (h : t.Holds seen) (str : Bytes) :
    (t.place str).2.Holds (str :: seen) := by
  rw [StringTable.place]
  cases hl : t.offsetMap.lookup str with
  | some x =>
      have hmem : str ∈ seen := by
        by_contra hnot
        rw [(h.lookup str).mpr hnot] at hl
        cases hl
      refine ⟨fun str' => (h.lookup str').trans ?_, ?_⟩
      · rw [List.mem_cons, not_or]
        refine (and_iff_right_of_imp ?_).symm
        rintro hnot rfl
        exact hnot hmem
      · rw [textSize, List.dedup_cons_of_mem hmem]
        exact h.offset_eq
  | none =>
      have hnot : str ∉ seen := (h.lookup str).mp hl
      refine ⟨fun str' => ?_, ?_⟩
      · rw [List.lookup_cons, List.mem_cons, not_or]
        by_cases heq : str' = str
        · simp [heq]
        · have hbeq : (str' == str) = false := by simpa using heq
          rw [hbeq]
          simpa [heq] using h.lookup str'
      · have hsum : textSize (str :: seen) = str.length + 1 + textSize seen := by
          rw [textSize, List.dedup_cons_of_notMem hnot, List.map_cons, List.sum_cons]
          rfl
        rw [hsum, ← h.offset_eq]
        exact Nat.add_comm _ _

theorem Holds.placeStruct {t : StringTable} {seen : List Bytes} (h : t.Holds seen)
    (m : Struct) : ∃ seen', (t.placeStruct m).2.Holds seen' ∧ seen'.Perm (texts m ++ seen) := by
  induction m generalizing t seen with
  | nil => exact ⟨seen, h, .refl _⟩
  | cons v m ih =>
      rw [placeStruct_cons]
      have hother : (t.placeValue v).2 = t → texts (v :: m) = texts m →
          ∃ seen', ((t.placeValue v).2.placeStruct m).2.Holds seen' ∧
            seen'.Perm (texts (v :: m) ++ seen) := by
        intro ht htexts
        rw [ht, htexts]
        exact ih h
      cases v with
      | offsetString str offset =>
          by_cases hnil : offset = nilOffset
          · exact hother (by rw [placeValue, if_pos hnil])
              (List.filterMap_cons_none (if_pos hnil))
          · have hplace : (t.placeValue (.offsetString str offset)).2 = (t.place str).2 := by
              rw [placeValue, if_neg hnil]
            obtain ⟨seen', h', hperm⟩ := ih (h.place str)
            have htexts : texts (.offsetString str offset :: m) = str :: texts m :=
              List.filterMap_cons_some (if_neg hnil)
            rw [hplace, htexts]
            exact ⟨seen', h', hperm.trans List.perm_middle⟩
      | _ => exact hother rfl rfl

end StringTable

/-- `RecalcSize` computes the room of the strings. -/
theorem placeMessages_offset (ms : List Struct) :
    (StringTable.empty.placeMessages ms).2.offset = textSize (texts ms.flatten) := by
  obtain ⟨seen, h, hperm⟩ := StringTable.holds_empty.placeStruct ms.flatten
  rw [List.append_nil] at hperm
  rw [(StringTable.placeMessages_flatten _ ms).2, h.offset_eq, textSize_perm hperm]

theorem recalcSize_msgsSize (g : Gbnl) :
    g.recalcSize.msgsSize = textSize (texts g.messages.flatten) :=
  placeMessages_offset g.messages

theorem textSize_eq_zero {strs : List Bytes} : textSize strs = 0 ↔ strs = [] := by
  constructor
  · intro h
    by_contra hne
    obtain ⟨str, hstr⟩ := List.exists_mem_of_ne_nil _ hne
    have := List.sum_eq_zero_iff_forall_eq_nat.mp h _
      (List.mem_map_of_mem (f := fun str : Bytes => str.length + 1) (List.mem_dedup.mpr hstr))
    omega
  · rintro rfl
    rfl

/-- The table is written, what is written is accepted again, and the form is
recognised. -/
def Accepted (g : Gbnl) : Prop :=
  ∃ calls g', dump g.recalcSize = .ok calls ∧
    parse (.fromMemory (Sink.bytesOf calls)) = .ok g' ∧ g'.isGstl = g.isGstl

section

variable {g : Gbnl} (hbuild : PadBuildable g.type) (hsize : g.recalcSize.getSize < 2 ^ 32)

include hbuild hsize

/-- The end of the rows as the header check computes it, in 32 bits. -/
theorem header_rowsEnd :
    (g.recalcSize.header.descrOffset +
      g.recalcSize.header.msgDescrSize * g.recalcSize.header.countMsgs).toNat =
      g.base + g.recalcSize.msgsEnd := by
  have hbase : g.base ≤ sizeofHeader := by
    rw [base]
    split <;> simp [sizeofHeader]
  have hle := g.recalcSize.le_align g.recalcSize.msgsEnd
  have hle' := g.recalcSize.le_align g.recalcSize.controlEnd
  have hctrl : g.recalcSize.controlEnd =
      g.recalcSize.align g.recalcSize.msgsEnd + 4 * g.recalcSize.realItemCount := rfl
  rw [getSize_eq] at hsize
  have htotal := totalSize_le hbuild.sizes hbuild.offsets
  have hdescr : g.recalcSize.header.msgDescrSize.toNat = totalSize g.type :=
    UInt32.toNat_ofNat_of_lt' (by change totalSize g.type < 2 ^ 32; omega)
  have hcount : g.recalcSize.header.countMsgs.toNat = g.recalcSize.messages.length % 2 ^ 32 :=
    UInt32.toNat_ofNat'
  have hend : totalSize g.type * (g.recalcSize.messages.length % 2 ^ 32) % 2 ^ 32 =
      g.recalcSize.msgsEnd := by
    rw [Nat.mul_mod, Nat.mod_mod, ← Nat.mul_mod]
    exact Nat.mod_eq_of_lt (by change g.recalcSize.msgsEnd < _; omega)
  rw [UInt32.toNat_add, UInt32.toNat_mul, hdescr, hcount, hend, header_descrOffset]
  exact Nat.mod_eq_of_lt (by change g.base + _ < _; omega)

/-- What is left to check of a header that is written are the three bounds. -/
theorem header_validate_iff :
    g.recalcSize.header.validate g.recalcSize.getSize = .ok () ↔
      g.base + g.recalcSize.msgsEnd < g.recalcSize.getSize ∧
      g.recalcSize.header.offsetTypes.toNat + 4 * g.recalcSize.realItemCount <
        g.recalcSize.getSize ∧
      g.recalcSize.header.offsetMsgs.toNat < g.recalcSize.getSize := by
  have hendian : g.recalcSize.header.endian = 0x4c ∨ g.recalcSize.header.endian = 0x42 := by
    change (if g.endian = .little then 0x4c else 0x42 : UInt8) = 0x4c ∨
      (if g.endian = .little then 0x4c else 0x42 : UInt8) = 0x42
    cases g.endian <;> simp
  have hunused : g.recalcSize.header.field34 = 0 ∧ g.recalcSize.header.field38 = 0 ∧
      g.recalcSize.header.field3c = 0 := ⟨rfl, rfl, rfl⟩
  have hform : (if g.recalcSize.header.magic = magicGbn then
        validateField "Gbnl::Header" "descr_offset == 0" (g.recalcSize.header.descrOffset = 0)
      else if g.recalcSize.header.magic = magicGst then
        validateField "Gbnl::Header" "descr_offset == sizeof(Header)"
          (g.recalcSize.header.descrOffset = UInt32.ofNat sizeofHeader)
      else validateField "Gbnl::Header" "!\"Invalid magic\"" False) = .ok () := by
    cases hg : g.isGstl with
    | false =>
        have hmagic : g.recalcSize.header.magic = magicGbn := by simp [header, recalcSize, hg]
        have hoffset : g.recalcSize.header.descrOffset = 0 := by simp [header, recalcSize, hg]
        rw [if_pos hmagic, validateField_of hoffset]
    | true =>
        have hne : magicGst ≠ magicGbn := by decide
        have hmagic : g.recalcSize.header.magic = magicGst := by simp [header, recalcSize, hg]
        have hoffset : g.recalcSize.header.descrOffset = UInt32.ofNat sizeofHeader := by
          simp [header, recalcSize, hg]
        rw [hmagic, if_neg hne, if_pos rfl, validateField_of hoffset]
  rw [Header.validate, header_rowsEnd hbuild hsize, header_countTypes hsize,
    validateField_of hendian, ok_bind, validateField_of ⟨rfl, rfl, rfl, rfl⟩, ok_bind, hform]
  simp only [validateField, bind_eq_ok, require_eq_ok, exists_const, and_true,
    and_iff_left hunused]

/-- The header that is written passes its check unless the strings, which come
last in the form with the header in front, take no room there. -/
theorem header_valid_iff :
    g.recalcSize.header.validate g.recalcSize.getSize = .ok () ↔
      (g.isGstl = true → g.recalcSize.msgsSize ≠ 0) := by
  have hmsgs := header_offsetMsgs hsize
  have hgetSize := getSize_eq g.recalcSize
  have hctrl : g.recalcSize.controlEnd =
      g.recalcSize.align g.recalcSize.msgsEnd + 4 * g.recalcSize.realItemCount := rfl
  have hbase : g.recalcSize.base = g.base := rfl
  have h64 : sizeofHeader = 64 := rfl
  rw [header_validate_iff hbuild hsize, header_offsetTypes hsize, hmsgs]
  cases hg : g.isGstl with
  | false =>
      have halign : ∀ x, g.recalcSize.align x = (x + 15) / 16 * 16 := fun x => by
        have : g.recalcSize.isGstl = false := hg
        simp [align, this]
      have hend := halign g.recalcSize.msgsEnd
      have hcontrol := halign g.recalcSize.controlEnd
      have hstrings := halign g.recalcSize.msgsSize
      have hzero : g.base = 0 := by simp [base, hg]
      refine iff_of_true ⟨?_, ?_, ?_⟩ (by simp)
      · omega
      · omega
      · split <;> omega
  | true =>
      have halign : ∀ x, g.recalcSize.align x = x := fun x => by
        have : g.recalcSize.isGstl = true := hg
        simp [align, this]
      have hend := halign g.recalcSize.msgsEnd
      have hcontrol := halign g.recalcSize.controlEnd
      have hstrings := halign g.recalcSize.msgsSize
      have hfront : g.base = 64 := by simp [base, hg, sizeofHeader]
      constructor
      · rintro ⟨-, htypes, -⟩ - hzero
        omega
      · intro h
        have hne := h rfl
        refine ⟨?_, ?_, ?_⟩
        · omega
        · omega
        · rw [if_pos hne]
          omega

end

/-- The form that is recognised is told by the first bytes of the file. -/
theorem isGstl_of_parse {src : Source} {g : Gbnl} (h : parse src = .ok g) :
    g.isGstl = true ↔ src.bytes.take 3 = magicGst.1 := by
  obtain ⟨⟨foot, isGstl⟩, hheader, h⟩ := bind_eq_ok.mp h
  have hform : g.isGstl = isGstl := by
    obtain ⟨_, -, h⟩ := bind_eq_ok.mp h
    obtain ⟨_, -, h⟩ := bind_eq_ok.mp h
    obtain ⟨⟨st, src'⟩, -, h⟩ := bind_eq_ok.mp h
    obtain ⟨ms, -, h⟩ := bind_eq_ok.mp h
    obtain ⟨_, -, h⟩ := bind_eq_ok.mp h
    obtain ⟨_, -, h⟩ := bind_eq_ok.mp h
    cases h
    rfl
  rw [hform]
  obtain ⟨_, -, hheader⟩ := bind_eq_ok.mp hheader
  obtain ⟨first, hfirst, hheader⟩ := bind_eq_ok.mp hheader
  obtain ⟨pre, post, hbytes, hpre⟩ := Source.standsAt_of_preadGen hfirst
  have htake : src.bytes.take 3 = first.magic.1 := by
    have hnil : pre = [] := List.eq_nil_of_length_eq_zero hpre
    have hlen : 3 ≤ (toBytes first).length := by
      rw [Pod.length_toBytes]
      decide
    rw [hbytes, hnil, List.nil_append, List.take_append_of_le_length hlen,
      take_toBytes_header]
  have hinj : first.magic.1 = magicGst.1 ↔ first.magic = magicGst :=
    ⟨fun heq => Subtype.ext heq, fun heq => congrArg _ heq⟩
  rw [htake, hinj]
  by_cases hmagic : first.magic = magicGst
  · rw [if_pos hmagic] at hheader
    cases hheader
    exact iff_of_true rfl hmagic
  · rw [if_neg hmagic] at hheader
    obtain ⟨_, -, hheader⟩ := bind_eq_ok.mp hheader
    cases hheader
    exact iff_of_false Bool.false_ne_true hmagic

/-- The table read back takes the same room when its strings do. -/
theorem getSize_readBack {g : Gbnl} (hbuild : PadBuildable g.type)
    (hsize : g.recalcSize.getSize < 2 ^ 32)
    {ms : { ms : List Struct // ∀ m ∈ ms, m.type = g.type }}
    (hms : ms.1 = (g.recalcSize.messages.take (g.messages.length % 2 ^ 32)).map
      (List.map Value.readBack)) :
    (tableOf g.endian g.recalcSize.header g.isGstl ms).getSize = g.recalcSize.getSize ↔
      g.align (textSize ((texts g.messages.flatten).map cut)) =
        g.align (textSize (texts g.messages.flatten)) := by
  have hlength : ms.1.length = min (g.messages.length % 2 ^ 32) g.messages.length := by
    rw [hms, List.length_map, List.length_take, length_recalcSize_messages]
  -- Either rows have no bytes, and there are no strings, or all rows are counted.
  have hrows : texts ms.1.flatten = (texts g.messages.flatten).map cut ∧
      totalSize g.type * ms.1.length = totalSize g.type * g.messages.length := by
    by_cases hne : g.type = []
    · have hnil : ∀ {ms : List Struct}, (∀ m ∈ ms, Struct.type m = g.type) → ms.flatten = [] := by
        intro ms htyped
        rw [List.flatten_eq_nil_iff]
        intro m hm
        exact List.map_eq_nil_iff.mp ((htyped m hm).trans hne)
      have hzero : totalSize g.type = 0 := by simp [hne, totalSize]
      rw [hnil ms.2, hnil g.typed, hzero, Nat.zero_mul, Nat.zero_mul]
      exact ⟨rfl, rfl⟩
    · have hcount := Nat.mod_eq_of_lt (length_messages_lt hbuild hne hsize)
      rw [hcount, Nat.min_self] at hlength
      rw [hcount, ← length_recalcSize_messages, List.take_length] at hms
      rw [hms, ← List.map_flatten, texts_readBack, texts_recalcSize (msgsSize_lt hsize), ← hms,
        hlength]
      exact ⟨rfl, rfl⟩
  have hend : (tableOf g.endian g.recalcSize.header g.isGstl ms).msgsEnd = g.recalcSize.msgsEnd := by
    rw [msgsEnd, msgsEnd, length_recalcSize_messages, tableOf, length_recalcSize_messages]
    exact hrows.2
  have hctrl : (tableOf g.endian g.recalcSize.header g.isGstl ms).controlEnd =
      g.recalcSize.controlEnd := by
    rw [controlEnd, controlEnd, hend]
    rfl
  have hmsgsSize : (tableOf g.endian g.recalcSize.header g.isGstl ms).msgsSize =
      textSize ((texts g.messages.flatten).map cut) := by
    rw [tableOf, recalcSize_msgsSize, ← hrows.1]
  have halign : ∀ x, (tableOf g.endian g.recalcSize.header g.isGstl ms).align x = g.align x :=
    fun _ => rfl
  have halign' : ∀ x, g.recalcSize.align x = g.align x := fun _ => rfl
  rw [getSize_eq, getSize_eq, hctrl, hmsgsSize, recalcSize_msgsSize, halign, halign, halign',
    halign']
  omega

/-- A table is accepted when it is written exactly if, in the form with the
header in front, it has a string, in the other form its rows do not start like
a header in front, and cutting the strings at NULs frees no room. -/
theorem accepted_iff (g : Gbnl) (hbuild : PadBuildable g.type)
    (hsize : g.recalcSize.getSize < 2 ^ 32) :
    Accepted g ↔
      (g.isGstl = true → texts g.messages.flatten ≠ []) ∧
      (g.isGstl = false →
        ¬ magicGst.1 <+: g.recalcSize.messages.flatMap (rowBytes g.endian)) ∧
      g.align (textSize ((texts g.messages.flatten).map cut)) =
        g.align (textSize (texts g.messages.flatten)) := by
  by_cases hmagic : g.isGstl = false →
      ¬ magicGst.1 <+: g.recalcSize.messages.flatMap (rowBytes g.endian)
  · obtain ⟨calls, ms, hcalls, hms, hparse⟩ := parse_written g hbuild hsize hmagic
    have hvalid := header_valid_iff hbuild hsize
    rw [recalcSize_msgsSize, ne_eq, textSize_eq_zero] at hvalid
    rw [← getSize_readBack hbuild hsize hms, ← hvalid]
    constructor
    · rintro ⟨calls', g', hcalls', hg', -⟩
      cases hcalls.symm.trans hcalls'
      rw [hparse] at hg'
      obtain ⟨⟨⟩, hok, hg'⟩ := bind_eq_ok.mp hg'
      obtain ⟨_, hroom, -⟩ := bind_eq_ok.mp hg'
      exact ⟨hok, hmagic, require_eq_ok.mp hroom⟩
    · rintro ⟨hok, -, hroom⟩
      refine ⟨calls, tableOf g.endian g.recalcSize.header g.isGstl ms, hcalls, ?_, rfl⟩
      rw [hparse, hok, ok_bind, validateField_of hroom, ok_bind]
  · rw [Classical.not_imp, not_not] at hmagic
    obtain ⟨hg, hpre⟩ := hmagic
    refine iff_of_false ?_ fun ⟨_, hnot, _⟩ => hnot hg hpre
    rintro ⟨calls, g', hcalls, hparse, hform⟩
    obtain ⟨calls', text, hcalls', hbytes, -⟩ := dump_layout g hbuild (msgsSize_lt hsize)
    cases hcalls.symm.trans hcalls'
    have hfirst : (Sink.bytesOf calls).take 3 = magicGst.1 := by
      obtain ⟨rest, hrest⟩ := hpre
      rw [hbytes, layout, if_neg (by simp [recalcSize, hg]), body, ← hrest]
      simp only [List.append_assoc]
      exact List.take_left' rfl
    have hgstl := (isGstl_of_parse hparse).mpr (by rw [Source.bytes_fromMemory]; exact hfirst)
    rw [hform, hg] at hgstl
    cases hgstl

theorem sample_accepted : Accepted sample := by
  refine (accepted_iff sample ⟨?_, ?_, ?_⟩ (by decide)).mpr ⟨fun _ => ?_, (fun h => nomatch h), ?_⟩
  · simp [sample, SizeOk]
  · simp [sample, MayFollow]
  · simp [sample, OffsetsFit, FieldType.rowSize]
  · decide
  · rfl

/-- A table with the header in front and numbers only. -/
theorem numbers_typed : ∀ m ∈ [[Value.int32 7]], Struct.type m = [.int32] := by decide

def numbers : Gbnl :=
  { endian := .little, isGstl := true, flags := 0, field28 := 0, field30 := 0
    type := [.int32], messages := [[.int32 7]], msgDescrSize := 0, msgsSize := 0
    realItemCount := 0, typed := numbers_typed }

/-- Its descriptors end where the file does, which the header check refuses. -/
theorem numbers_not_accepted :
    ¬ ∀ g : Gbnl, PadBuildable g.type → g.recalcSize.getSize < 2 ^ 32 → Accepted g := by
  intro h
  have hbuild : PadBuildable numbers.type := by
    refine ⟨?_, ?_, ?_⟩
    · simp [numbers, SizeOk]
    · simp [numbers]
    · simp [numbers, OffsetsFit]
  have hsize : numbers.recalcSize.getSize < 2 ^ 32 := by decide
  obtain ⟨calls, g', hcalls, hg', -⟩ := h numbers hbuild hsize
  obtain ⟨calls', ms, hcalls', -, hparse⟩ := parse_written numbers hbuild hsize (by simp [numbers])
  cases hcalls.symm.trans hcalls'
  rw [hparse] at hg'
  obtain ⟨⟨⟩, hok, -⟩ := bind_eq_ok.mp hg'
  exact (header_valid_iff hbuild hsize).mp hok rfl (by decide)

end Gbnl

end Neptools

import Neptools.Gbnl.Accept
import Neptools.Gbnl.Tiles

/-!
The string section after `RecalcSize`. Every string gets the place that the
table of strings has for it in the end, so equal strings share one, and the
table is the same when it is made again.
-/

namespace Neptools

open Lib

namespace Gbnl

namespace StringTable

/-- A value with the place that the table has for its string. -/
def located (t : StringTable) : Value → Value
  | .offsetString str offset =>
      if offset = nilOffset then .offsetString str offset
      else .offsetString str (UInt32.ofNat ((t.offsetMap.lookup str).getD 0))
  | v => v

/-- Strings that are in the table stay where they are. -/
def Extends (t t' : StringTable) : Prop :=
  ∀ str x, t.offsetMap.lookup str = some x → t'.offsetMap.lookup str = some x

theorem lookup_place (t : StringTable) (str : Bytes) :
    (t.place str).2.offsetMap.lookup str = some (t.place str).1 := by
  rw [place]
  cases h : t.offsetMap.lookup str with
  | some x => exact h
  | none => simp

theorem extends_place (t : StringTable) (str : Bytes) : t.Extends (t.place str).2 := by
  intro str' x hx
  rw [place]
  cases h : t.offsetMap.lookup str with
  | some y => exact hx
  | none =>
      have hne : str' ≠ str := by
        rintro rfl
        rw [h] at hx
        cases hx
      have hbeq : (str' == str) = false := by simpa using hne
      simp [List.lookup_cons, hbeq, hx]

theorem extends_placeValue (t : StringTable) (v : Value) : t.Extends (t.placeValue v).2 := by
  cases v with
  | offsetString str offset =>
      simp only [placeValue]
      split
      · exact fun _ _ h => h
      · exact extends_place t str
  | _ => exact fun _ _ h => h

theorem extends_placeStruct (t : StringTable) (m : Struct) : t.Extends (t.placeStruct m).2 := by
  induction m generalizing t with
  | nil => exact fun _ _ h => h
  | cons v m ih => exact fun str x h => ih _ str x (extends_placeValue t v str x h)

theorem extends_placeMessages (t : StringTable) (ms : List Struct) :
    t.Extends (t.placeMessages ms).2 := by
  rw [(placeMessages_flatten t ms).2]
  exact extends_placeStruct t ms.flatten

theorem placeValue_eq (t : StringTable) (v : Value) {t' : StringTable}
    (h : (t.placeValue v).2.Extends t') : (t.placeValue v).1 = t'.located v := by
  cases v with
  | offsetString str offset =>
      by_cases hnil : offset = nilOffset
      · simp [placeValue, located, hnil]
      · simp only [placeValue, if_neg hnil] at h
        simp [placeValue, located, hnil, h str _ (lookup_place t str)]
  | _ => rfl

/-- Every value gets the place that its string has in the end. -/
theorem placeStruct_eq (t : StringTable) (m : Struct) {t' : StringTable}
    (h : (t.placeStruct m).2.Extends t') : (t.placeStruct m).1 = m.map t'.located := by
  induction m generalizing t with
  | nil => rfl
  | cons v m ih =>
      have hv : (t.placeValue v).2.Extends t' := fun str x hx =>
        h str x (extends_placeStruct _ m str x hx)
      have hrest : ((t.placeValue v).2.placeStruct m).1 = m.map t'.located := ih _ h
      rw [placeStruct_cons, List.map_cons, ← placeValue_eq t v hv, ← hrest]

theorem placeMessages_eq (t : StringTable) (ms : List Struct) {t' : StringTable}
    (h : (t.placeMessages ms).2.Extends t') :
    (t.placeMessages ms).1 = ms.map (List.map t'.located) := by
  induction ms generalizing t with
  | nil => rfl
  | cons m ms ih =>
      have hm : (t.placeStruct m).2.Extends t' := fun str x hx =>
        h str x (extends_placeMessages _ ms str x hx)
      have hrest : ((t.placeStruct m).2.placeMessages ms).1 = ms.map (List.map t'.located) := ih _ h
      rw [List.map_cons, ← placeStruct_eq t m hm, ← hrest]
      rfl

theorem located_located (t : StringTable) (v : Value) : t.located (t.located v) = t.located v := by
  cases v with
  | offsetString str offset =>
      by_cases hnil : offset = nilOffset
      · simp [located, hnil]
      · simp only [located, if_neg hnil]
        split
        · rfl
        · rfl
  | _ => rfl

theorem lookup_eq_none_iff (t : StringTable) (str : Bytes) :
    t.offsetMap.lookup str = none ↔ str ∉ t.strings := by
  rw [List.lookup_eq_none_iff, strings, List.mem_map]
  constructor
  · rintro h ⟨entry, hentry, rfl⟩
    simpa using h entry hentry
  · intro h entry hentry
    simpa using fun heq => h ⟨entry, hentry, Eq.symm heq⟩

theorem nodup_strings_place {t : StringTable} (h : t.strings.Nodup) (str : Bytes) :
    (t.place str).2.strings.Nodup := by
  rw [place]
  cases hl : t.offsetMap.lookup str with
  | some x => exact h
  | none => exact List.nodup_cons.mpr ⟨(lookup_eq_none_iff t str).mp hl, h⟩

theorem nodup_strings_placeStruct {t : StringTable} (h : t.strings.Nodup) (m : Struct) :
    (t.placeStruct m).2.strings.Nodup := by
  induction m generalizing t with
  | nil => exact h
  | cons v m ih =>
      refine ih (t := (t.placeValue v).2) ?_
      cases v with
      | offsetString str offset =>
          simp only [placeValue]
          split
          · exact h
          · exact nodup_strings_place h str
      | _ => exact h

theorem Holds.mem_strings {t : StringTable} {seen : List Bytes} (h : t.Holds seen) (str : Bytes) :
    str ∈ t.strings ↔ str ∈ seen := by
  rw [← not_iff_not, ← h.lookup, lookup_eq_none_iff]

end StringTable

/-! What is left as it was. -/

section

variable {g : Gbnl} (hsize : g.recalcSize.msgsSize < 2 ^ 32 - 1)

include hsize

/-- The places are the same when they are computed once more. -/
theorem recalcSize_recalcSize : g.recalcSize.recalcSize = g.recalcSize := by
  have htable : (StringTable.empty.placeMessages g.recalcSize.messages).2 =
      (StringTable.empty.placeMessages g.messages).2 := by
    rw [← placeMessages_content, content_recalcSize hsize, placeMessages_content]
  have hmessages : g.recalcSize.messages =
      g.messages.map (List.map (StringTable.empty.placeMessages g.messages).2.located) :=
    StringTable.placeMessages_eq _ _ fun _ _ h => h
  have hagain : (StringTable.empty.placeMessages g.recalcSize.messages).1 =
      g.recalcSize.messages := by
    have hlocated : (StringTable.empty.placeMessages g.messages).2.located ∘
        (StringTable.empty.placeMessages g.messages).2.located =
          (StringTable.empty.placeMessages g.messages).2.located :=
      funext (StringTable.located_located _)
    rw [StringTable.placeMessages_eq _ g.recalcSize.messages fun _ _ h => h, htable, hmessages,
      List.map_map, List.map_comp_map, hlocated]
  have hmsgsSize : (StringTable.empty.placeMessages g.recalcSize.messages).2.offset =
      (StringTable.empty.placeMessages g.messages).2.offset := congrArg StringTable.offset htable
  exact Gbnl.ext rfl rfl rfl rfl rfl rfl hagain rfl hmsgsSize rfl

end

/-- The string section of some strings. -/
def stringSection (strs : List Bytes) : Bytes := strs.flatMap (· ++ [0])

theorem bytesOf_writeCString (strs : List Bytes) :
    Sink.bytesOf (strs.map StringTable.writeCString) = stringSection strs := by
  induction strs with
  | nil => rfl
  | cons str strs ih =>
      rw [List.map_cons, Sink.bytesOf_cons, ih]
      rfl

/-- What `RecalcSize` leaves to `Dump_`. -/
structure Settled (g : Gbnl) : Prop where
  inBuffer : ∀ m ∈ g.recalcSize.messages, InBuffer g.recalcSize.msgDescrSize 0 m
  dumped : ∃ calls strs, dump g.recalcSize = .ok calls ∧
    (Sink.bytesOf calls).length = g.recalcSize.getSize ∧
    g.recalcSize.stringsWritten.1 = stringSection strs ∧
    StandsAt (stringSection strs) (g.base + g.align g.recalcSize.controlEnd) (Sink.bytesOf calls) ∧
    (stringSection strs).length = g.recalcSize.msgsSize ∧
    strs.Nodup ∧ (∀ str, str ∈ strs ↔ str ∈ texts g.messages.flatten) ∧
    ∀ m ∈ g.recalcSize.messages, ∀ v ∈ m, v.StandsIn (stringSection strs)
  shared : ∀ str ofs str' ofs', .offsetString str ofs ∈ g.recalcSize.messages.flatten →
    .offsetString str' ofs' ∈ g.recalcSize.messages.flatten →
    ofs ≠ nilOffset → ofs' ≠ nilOffset → (ofs = ofs' ↔ str = str')
  kept : g.recalcSize.messages.map (List.map Value.content) =
    g.messages.map (List.map Value.content)
  again : g.recalcSize.recalcSize = g.recalcSize

/-- Two strings without NULs at one place are the same. -/
theorem eq_of_standsAt {str str' : Bytes} {i : Nat} {buf : Bytes} (hstr : 0 ∉ str) (hstr' : 0 ∉ str')
    (h : StandsAt (str ++ [0]) i buf) (h' : StandsAt (str' ++ [0]) i buf) : str = str' := by
  obtain ⟨post, hpost⟩ := h.drop_eq
  obtain ⟨post', hpost'⟩ := h'.drop_eq
  have hsame : str ++ 0 :: post = str' ++ 0 :: post' := by
    simpa using hpost.symm.trans hpost'
  have htext {s rest : Bytes} (hs : 0 ∉ s) : (s ++ 0 :: rest).takeWhile (· ≠ 0) = s := by
    have hne : ∀ b ∈ s, decide (b ≠ 0) = true := fun b hb =>
      decide_eq_true fun heq => hs (heq ▸ hb)
    rw [List.takeWhile_append_of_pos hne]
    simp
  rw [← htext hstr, hsame, htext hstr']

section

variable {g : Gbnl} (hsize : g.recalcSize.msgsSize < 2 ^ 32 - 1)

include hsize

theorem offset_eq_iff (hplain : ∀ str ∈ texts g.messages.flatten, 0 ∉ str) {text : Bytes}
    (hstand : ∀ m ∈ g.recalcSize.messages, ∀ v ∈ m, v.StandsIn text) {str str' : Bytes}
    {ofs ofs' : UInt32} (hmem : .offsetString str ofs ∈ g.recalcSize.messages.flatten)
    (hmem' : .offsetString str' ofs' ∈ g.recalcSize.messages.flatten) (hofs : ofs ≠ nilOffset)
    (hofs' : ofs' ≠ nilOffset) : ofs = ofs' ↔ str = str' := by
  have hentry {str : Bytes} {ofs : UInt32} (hofs : ofs ≠ nilOffset)
      (hmem : .offsetString str ofs ∈ g.recalcSize.messages.flatten) :
      0 ∉ str ∧ StandsAt (str ++ [0]) ofs.toNat text ∧ ofs = UInt32.ofNat
        (((StringTable.empty.placeMessages g.messages).2.offsetMap.lookup str).getD 0) := by
    have htext : str ∈ texts g.recalcSize.messages.flatten :=
      List.mem_filterMap.mpr ⟨_, hmem, if_neg hofs⟩
    rw [texts_recalcSize hsize] at htext
    obtain ⟨m, hm, hv⟩ := List.mem_flatten.mp hmem
    refine ⟨hplain str htext, (hstand m hm _ hv).resolve_left hofs, ?_⟩
    have hmessages : g.recalcSize.messages =
        g.messages.map (List.map (StringTable.empty.placeMessages g.messages).2.located) :=
      StringTable.placeMessages_eq _ _ fun _ _ h => h
    rw [hmessages, ← List.map_flatten] at hmem
    obtain ⟨v, -, hlocated⟩ := List.mem_map.mp hmem
    cases v with
    | offsetString str₀ ofs₀ =>
        by_cases hnil : ofs₀ = nilOffset
        · rw [StringTable.located, if_pos hnil] at hlocated
          cases hlocated
          exact absurd hnil hofs
        · rw [StringTable.located, if_neg hnil] at hlocated
          cases hlocated
          rfl
    | _ => cases hlocated
  obtain ⟨hnul, hstands, heq⟩ := hentry hofs hmem
  obtain ⟨hnul', hstands', heq'⟩ := hentry hofs' hmem'
  constructor
  · rintro rfl
    exact eq_of_standsAt hnul hnul' hstands hstands'
  · rintro rfl
    exact heq.trans heq'.symm

theorem dumped_recalcSize (hroom : g.messages = [] ∨ .fixString 0 ∉ g.type) :
    ∃ calls strs, dump g.recalcSize = .ok calls ∧
      (Sink.bytesOf calls).length = g.recalcSize.getSize ∧
      g.recalcSize.stringsWritten.1 = stringSection strs ∧
      StandsAt (stringSection strs) (g.base + g.align g.recalcSize.controlEnd)
        (Sink.bytesOf calls) ∧
      (stringSection strs).length = g.recalcSize.msgsSize ∧
      strs.Nodup ∧ (∀ str, str ∈ strs ↔ str ∈ texts g.messages.flatten) ∧
      ∀ m ∈ g.recalcSize.messages, ∀ v ∈ m, v.StandsIn (stringSection strs) := by
  obtain ⟨strs, hwritten, hkeys, hlength, hstand⟩ := stringsWritten_recalcSize g hsize
  obtain ⟨calls, hcalls, hbytes⟩ := dump_spec g.recalcSize (inBuffer_recalcSize hroom)
    (by rw [hwritten])
  obtain ⟨seen, hholds, hperm⟩ := StringTable.holds_empty.placeStruct g.messages.flatten
  have hnodup := StringTable.nodup_strings_placeStruct (t := .empty) List.nodup_nil
    g.messages.flatten
  have hrows := length_bytesOf_dumpRows g.endian g.recalcSize.msgDescrSize
    g.recalcSize.messages (Nat.le_of_eq (length_zeros g.recalcSize.msgDescrSize).symm)
  rw [bytesOf_writeCString] at hlength hstand hwritten
  rw [hwritten] at hbytes
  rw [hkeys] at hnodup
  refine ⟨calls, strs, hcalls, ?_, congrArg Prod.fst hwritten, ?_, hlength,
    List.nodup_reverse.mp hnodup, fun str => ?_, hstand⟩
  · rw [hbytes]
    exact length_layout hrows rfl hlength
  · rw [hbytes]
    exact text_standsAt hrows rfl
  · rw [← List.mem_reverse, ← hkeys, hholds.mem_strings, hperm.mem_iff, List.append_nil]

end

/-- `RecalcSize` and `Dump_` agree, and no row is left, exactly when no fixed string is without
room for its NUL. -/
theorem settled_iff (g : Gbnl) (hplain : ∀ str ∈ texts g.messages.flatten, 0 ∉ str)
    (hsize : g.recalcSize.getSize < 2 ^ 32) :
    Settled g ↔ g.messages = [] ∨ .fixString 0 ∉ g.type := by
  have hmsgs := msgsSize_lt hsize
  constructor
  · intro h
    exact (inBuffer_recalcSize_iff hsize).mp h.inBuffer
  · intro hroom
    obtain ⟨calls, strs, hdumped⟩ := dumped_recalcSize hmsgs hroom
    have hstand := hdumped.2.2.2.2.2.2.2
    exact ⟨inBuffer_recalcSize hroom, ⟨calls, strs, hdumped⟩,
      fun str ofs str' ofs' hmem hmem' hofs hofs' =>
        offset_eq_iff hmsgs hplain hstand hmem hmem' hofs hofs', content_recalcSize hmsgs,
      recalcSize_recalcSize hmsgs⟩

/-- Two messages that share a string, and a nil one. -/
def sharedStrings : Gbnl :=
  { endian := .little, isGstl := false, flags := 0, field28 := 0, field30 := 0
    type := [.offsetString, .offsetString]
    messages := [[.offsetString [0x61] 0, .offsetString [] nilOffset],
      [.offsetString [0x61] 0, .offsetString [0x62] 0]]
    msgDescrSize := 0, msgsSize := 0, realItemCount := 0, typed := by decide }

theorem sharedStrings_settled : Settled sharedStrings :=
  (settled_iff sharedStrings (by decide) (by decide)).mpr (.inr (by decide))

/-- A message with a fixed string of no bytes. -/
def emptyFixString : Gbnl :=
  { endian := .little, isGstl := false, flags := 0, field28 := 0, field30 := 0
    type := [.fixString 0], messages := [[.fixString []]]
    msgDescrSize := 0, msgsSize := 0, realItemCount := 0, typed := by decide }

/-- The string is copied with a limit of minus one. -/
theorem emptyFixString_not_settled :
    ¬ ∀ g : Gbnl, (∀ str ∈ texts g.messages.flatten, 0 ∉ str) →
      g.recalcSize.getSize < 2 ^ 32 → Settled g := by
  intro hall
  have h := hall emptyFixString (by decide) (by decide)
  exact absurd (h.inBuffer [.fixString []] (by decide)).1 (by decide)

end Gbnl

end Neptools

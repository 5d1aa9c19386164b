import Neptools.Gbnl.Types

/-!
Reading back what was written: the header from the end the form says, the
fields of each message from its row, and the strings from their section. Two
values are the same when they differ at most in the place of their string.
-/

namespace Neptools

open Lib

namespace Gbnl

/-- A value without the place of its string; all nil strings are the same. -/
def Value.content : Value → Value
  | .offsetString str offset =>
      if offset = nilOffset then .offsetString [] nilOffset else .offsetString str 0
  | v => v

/-- Strings have no NUL in them; fixed strings end with a NUL and have nothing
but NULs behind the first. -/
def Value.Plain : Value → Prop
  | .offsetString str offset => offset = nilOffset ∨ 0 ∉ str
  | .fixString str => ∃ text n, str = text ++ zeros (n + 1) ∧ 0 ∉ text
  | _ => True

/-- A text with its zero fill is copied as it is. -/
theorem strncpy_plain {text : Bytes} (n : Nat) (h : 0 ∉ text) :
    strncpy (text ++ zeros (n + 1)) (text.length + n) ++ [0] = text ++ zeros (n + 1) := by
  have htake : (text ++ zeros (n + 1)).take (text.length + n) = text ++ zeros n := by
    rw [List.take_length_add_append, take_zeros (Nat.le_succ n)]
  rw [strncpy, htake]
  simp only [takeWhile_append_zeros h]
  rw [Nat.add_sub_cancel_left, List.append_assoc]
  exact congrArg (text ++ ·) (zeros_append n 1)

theorem writeDescr_fixString (e : Endian) {str : Bytes} (h : (Value.fixString str).Plain) :
    writeDescr e (.fixString str) = str := by
  obtain ⟨text, n, rfl, htext⟩ := h
  have hlen : (text ++ zeros (n + 1)).length - 1 = text.length + n := by
    rw [List.length_append, length_zeros]
    omega
  rw [writeDescr, hlen, strncpy_plain n htext]

/-- What is read back of a value that was written: strings end at their first
NUL, and fixed strings have nothing but NULs from there on. -/
def Value.readBack : Value → Value
  | .offsetString str offset =>
      if offset = nilOffset then .offsetString [] nilOffset
      else .offsetString (str.takeWhile (· ≠ 0)) 0
  | .fixString str => .fixString (strncpy str (str.length - 1) ++ [0])
  | v => v

theorem readBack_of_plain {v : Value} (h : v.Plain) : v.readBack = v.content := by
  cases v with
  | offsetString str offset =>
      by_cases hnil : offset = nilOffset
      · simp only [Value.readBack, Value.content, if_pos hnil]
      · simp only [Value.readBack, Value.content, if_neg hnil]
        rw [takeWhile_ne_zero (h.resolve_left hnil)]
  | fixString str => exact congrArg Value.fixString (writeDescr_fixString .little h)
  | _ => rfl

/-- A field is read from where it stands in its row. -/
theorem readField_writeDescr {e : Endian} {src : Source} {offsetMsgs : UInt32} {text : Bytes}
    {v : Value} {pos : Nat} (hrow : StandsAt (writeDescr e v) pos src.bytes)
    (hroom : v.type ≠ .fixString 0) (hstr : v.StandsIn text)
    (htext : StandsAt text offsetMsgs.toNat src.bytes) (hsize : src.size < 2 ^ 32) :
    ∃ r, readField e offsetMsgs (src.at_ pos) v.type =
        .ok (r, src.at_ (pos + v.type.rowSize)) ∧ r.1 = v.readBack := by
  cases v with
  | int8 x =>
      have hread := Source.readUint_of_standsAt (s := src) hrow
      refine ⟨⟨.int8 x, rfl⟩, ?_, rfl⟩
      simp only [Value.type, readField, Source.readUint8, hread, ok_bind]
      rfl
  | int16 x =>
      have hread := Source.readUint_of_standsAt (s := src) hrow
      refine ⟨⟨.int16 x, rfl⟩, ?_, rfl⟩
      simp only [Value.type, readField, Source.readUint16, hread, ok_bind]
      rfl
  | int32 x =>
      have hread := Source.readUint_of_standsAt (s := src) hrow
      refine ⟨⟨.int32 x, rfl⟩, ?_, rfl⟩
      simp only [Value.type, readField, Source.readUint32, hread, ok_bind]
      rfl
  | int64 x =>
      have hread := Source.readUint_of_standsAt (s := src) hrow
      refine ⟨⟨.int64 x, rfl⟩, ?_, rfl⟩
      simp only [Value.type, readField, Source.readUint64, hread, ok_bind]
      rfl
  | float bits =>
      have hread := Source.readUint_of_standsAt (s := src) hrow
      refine ⟨⟨.float bits, rfl⟩, ?_, rfl⟩
      simp only [Value.type, readField, Source.readUint32, hread, ok_bind]
      rfl
  | offsetString str offset =>
      have hread := Source.readUint_of_standsAt (s := src) hrow
      by_cases hnil : offset = nilOffset
      · refine ⟨⟨.offsetString [] nilOffset, rfl⟩, ?_, (if_pos hnil).symm⟩
        have hnil' : offset = 0xffffffff := hnil
        simp only [Value.type, readField, Source.readUint32, hread, ok_bind, if_pos hnil']
        rfl
      · have hst := hstr.resolve_left hnil
        have hin := hst.le
        have hend := htext.le
        simp only [List.length_append, List.length_singleton, Source.length_bytes] at hin hend
        have hadd : (offsetMsgs + offset).toNat = offsetMsgs.toNat + offset.toNat := by
          rw [UInt32.toNat_add]
          omega
        have hstr' := Source.preadCString_eq_takeWhile (s := src.at_ (pos + Pod.size UInt32))
          (hst.trans htext)
        have hnil' : ¬ offset = 0xffffffff := hnil
        have hlt : offset.toNat <
            (src.at_ (pos + Pod.size UInt32)).size - offsetMsgs.toNat := by
          rw [Source.size_at_]
          omega
        refine ⟨⟨.offsetString (str.takeWhile (· ≠ 0)) 0, rfl⟩, ?_, (if_neg hnil).symm⟩
        simp only [Value.type, readField, Source.readUint32, hread, ok_bind, if_neg hnil',
          validateField_of hlt, hadd, hstr']
        rfl
  | fixString str =>
      have hread := Source.read_of_standsAt hrow (length_writeDescr e hroom)
      refine ⟨⟨.fixString (writeDescr e (.fixString str)),
        congrArg FieldType.fixString (length_writeDescr e hroom)⟩, ?_, rfl⟩
      simp only [Value.type, readField]
      change ((src.at_ pos).read (Value.type (.fixString str)).rowSize >>= _) = _
      rw [hread]
      rfl
  | padding pad =>
      have hread : (src.at_ pos).read pad.length =
          .ok (⟨pad, rfl⟩, src.at_ (pos + pad.length)) := Source.read_of_standsAt hrow rfl
      refine ⟨⟨.padding pad, rfl⟩, ?_, rfl⟩
      simp only [Value.type, readField, hread, ok_bind]
      rfl

theorem readStruct_rowBytes {e : Endian} {src : Source} {offsetMsgs : UInt32} {text : Bytes}
    (htext : StandsAt text offsetMsgs.toNat src.bytes) (hsize : src.size < 2 ^ 32) {m : Struct} :
    ∀ {pos : Nat}, StandsAt (rowBytes e m) pos src.bytes → .fixString 0 ∉ m.type →
      (∀ v ∈ m, v.StandsIn text) →
      ∃ r pos', readStruct e offsetMsgs m.type (src.at_ pos) = .ok (r, src.at_ pos') ∧
        r.1 = m.map Value.readBack := by
  induction m with
  | nil =>
      intro pos _ _ _
      exact ⟨⟨[], rfl⟩, pos, rfl, rfl⟩
  | cons v m ih =>
      intro pos hrow hroom hstr
      rw [Struct.type, List.map_cons, List.mem_cons, not_or] at hroom
      rw [rowBytes, List.flatMap_cons] at hrow
      have hlen := length_writeDescr e (Ne.symm hroom.1)
      obtain ⟨r, hr, hback⟩ := readField_writeDescr hrow.left (Ne.symm hroom.1)
        (hstr v List.mem_cons_self) htext hsize
      have hright := hrow.right
      rw [hlen] at hright
      obtain ⟨rs, pos', hrs, hbacks⟩ := ih hright hroom.2
        (fun w hw => hstr w (List.mem_cons_of_mem v hw))
      refine ⟨⟨r.1 :: rs.1, congrArg₂ List.cons r.2 rs.2⟩, pos', ?_, ?_⟩
      · change readStruct e offsetMsgs (v.type :: Struct.type m) (src.at_ pos) = _
        rw [readStruct, hr, ok_bind]
        simp only [hrs, ok_bind, pure_eq_ok]
        rfl
      · rw [List.map_cons, ← hback, ← hbacks]

/-- The rows are read one behind the other. -/
theorem readMessages_rows {e : Endian} {src : Source} {foot : Header} {text : Bytes}
    {type : List FieldType} (htext : StandsAt text foot.offsetMsgs.toNat src.bytes)
    (hsize : src.size < 2 ^ 32) (hroom : .fixString 0 ∉ type)
    (hdescr : foot.msgDescrSize.toNat = totalSize type) {ms : List Struct} :
    ∀ {msgs : UInt32}, StandsAt (ms.flatMap (rowBytes e)) msgs.toNat src.bytes →
      (∀ m ∈ ms, m.type = type) → (∀ m ∈ ms, ∀ v ∈ m, v.StandsIn text) → ∀ pos,
      ∃ r, readMessages e foot type ms.length msgs (src.at_ pos) = .ok r ∧
        r.1 = ms.map (List.map Value.readBack) := by
  induction ms with
  | nil =>
      intro msgs _ _ _ pos
      exact ⟨⟨[], List.forall_mem_nil _⟩, rfl, rfl⟩
  | cons m ms ih =>
      intro msgs hrows htype hstr pos
      have hm := htype m List.mem_cons_self
      rw [List.flatMap_cons] at hrows
      have hend := hrows.le
      have hlen := length_rowBytes e (m := m) (by rwa [hm])
      rw [List.length_append, Source.length_bytes] at hend
      obtain ⟨r, pos', hr, hback⟩ := readStruct_rowBytes htext hsize hrows.left
        (by rwa [hm]) (hstr m List.mem_cons_self)
      have hnext : (msgs + foot.msgDescrSize).toNat = msgs.toNat + (rowBytes e m).length := by
        rw [UInt32.toNat_add, hdescr, hlen, hm]
        rw [hlen, hm] at hend
        exact Nat.mod_eq_of_lt (by simp only [totalSize]; omega)
      obtain ⟨rs, hrs, hbacks⟩ := @ih (msgs + foot.msgDescrSize)
        (by rw [hnext]; exact hrows.right)
        (fun m' hm' => htype m' (List.mem_cons_of_mem m hm'))
        (fun m' hm' => hstr m' (List.mem_cons_of_mem m hm')) pos'
      have hseek : (src.at_ pos).seek msgs.toNat = .ok (src.at_ msgs.toNat) :=
        Source.seek_of_le (s := src.at_ pos) (by rw [Source.size_at_]; omega)
      subst hm
      refine ⟨⟨r.1 :: rs.1, List.forall_mem_cons.mpr ⟨r.2, rs.2⟩⟩, ?_, ?_⟩
      · rw [List.length_cons, readMessages, hseek, ok_bind, hr, ok_bind]
        simp only [hrs, ok_bind, pure_eq_ok]
      · rw [List.map_cons, ← hback, ← hbacks]

theorem content_placeValue {t : StringTable} {text : Bytes} (h : t.Describes text) (v : Value)
    (hsize : (t.placeValue v).2.offset < 2 ^ 32 - 1) : (t.placeValue v).1.content = v.content := by
  cases v with
  | offsetString str offset =>
      by_cases hnil : offset = nilOffset
      · simp only [StringTable.placeValue, if_pos hnil]
      · simp only [StringTable.placeValue, if_neg hnil] at hsize ⊢
        have hlt : (t.place str).1 < 2 ^ 32 - 1 := by
          rcases StringTable.place_spec h str with ⟨hst, heq⟩ | ⟨hx, hoff, -, -⟩
          · have hin := hst.le
            rw [List.length_append, List.length_singleton, h.length_eq] at hin
            rw [heq] at hsize
            omega
          · omega
        have hne : UInt32.ofNat (t.place str).1 ≠ nilOffset := by
          intro heq
          have hnat := congrArg UInt32.toNat heq
          rw [UInt32.toNat_ofNat_of_lt' (by change _ < 2 ^ 32; omega)] at hnat
          exact absurd hnat (Nat.ne_of_lt hlt)
        simp only [Value.content, if_neg hnil, if_neg hne]
  | _ => rfl

theorem describes_placeValue {t : StringTable} {text : Bytes} (h : t.Describes text) (v : Value)
    (hsize : (t.placeValue v).2.offset < 2 ^ 32 - 1) :
    ∃ text', (t.placeValue v).2.Describes text' := by
  obtain ⟨strs, -, -, hd, -⟩ := StringTable.dumpStrings_placeValue h v hsize
  exact ⟨_, hd⟩

theorem content_placeStruct {m : Struct} :
    ∀ {t : StringTable} {text : Bytes}, t.Describes text →
      (t.placeStruct m).2.offset < 2 ^ 32 - 1 →
      (t.placeStruct m).1.map Value.content = m.map Value.content := by
  induction m with
  | nil =>
      intro t text _ _
      rfl
  | cons v m ih =>
      intro t text h hsize
      rw [StringTable.placeStruct_cons] at hsize ⊢
      have hle := StringTable.offset_le_placeStruct (t.placeValue v).2 m
      have hv : (t.placeValue v).2.offset < 2 ^ 32 - 1 := by
        simp only at hsize
        omega
      obtain ⟨text', h'⟩ := describes_placeValue h v hv
      rw [List.map_cons, List.map_cons, content_placeValue h v hv, ih h' hsize]

/-- `RecalcSize` moves strings but changes none. -/
theorem content_placeMessages {ms : List Struct} :
    ∀ {t : StringTable} {text : Bytes}, t.Describes text →
      (t.placeMessages ms).2.offset < 2 ^ 32 - 1 →
      (t.placeMessages ms).1.map (List.map Value.content) =
        ms.map (List.map Value.content) := by
  induction ms with
  | nil =>
      intro t text _ _
      rfl
  | cons m ms ih =>
      intro t text h hsize
      have hsize' : ((t.placeStruct m).2.placeMessages ms).2.offset < 2 ^ 32 - 1 := hsize
      have hle : (t.placeStruct m).2.offset ≤
          ((t.placeStruct m).2.placeMessages ms).2.offset := by
        rw [(StringTable.placeMessages_flatten _ ms).2]
        exact StringTable.offset_le_placeStruct _ _
      have hm : (t.placeStruct m).2.offset < 2 ^ 32 - 1 := by omega
      obtain ⟨strs, -, -, hd, -⟩ := StringTable.dumpStrings_placeStruct h m hm
      have hrest := ih hd hsize'
      have hhead := content_placeStruct h hm
      change ((t.placeStruct m).1 :: ((t.placeStruct m).2.placeMessages ms).1).map _ = _
      rw [List.map_cons, hhead, hrest, List.map_cons]

/-- The table of the places depends on the strings only. -/
theorem placeValue_content (t : StringTable) (v : Value) :
    (t.placeValue v.content).2 = (t.placeValue v).2 := by
  cases v with
  | offsetString str offset =>
      by_cases hnil : offset = nilOffset
      · simp only [Value.content, StringTable.placeValue, if_pos hnil, if_true]
      · simp only [Value.content, StringTable.placeValue, if_neg hnil]
        rw [if_neg (by decide)]
  | _ => rfl

theorem placeStruct_content (t : StringTable) (m : Struct) :
    (t.placeStruct (m.map Value.content)).2 = (t.placeStruct m).2 := by
  induction m generalizing t with
  | nil => rfl
  | cons v m ih =>
      simp only [List.map_cons, StringTable.placeStruct_cons, placeValue_content, ih]

theorem placeMessages_content (t : StringTable) (ms : List Struct) :
    (t.placeMessages (ms.map (List.map Value.content))).2 = (t.placeMessages ms).2 := by
  rw [(StringTable.placeMessages_flatten _ _).2, (StringTable.placeMessages_flatten _ _).2,
    ← placeStruct_content t ms.flatten, List.map_flatten]

theorem take_toBytes_header (hdr : Header) : (toBytes hdr).take 3 = hdr.magic.1 :=
  List.take_left' hdr.magic.2

theorem take_headerBytes (g : Gbnl) : g.headerBytes.take 3 = g.header.magic.1 := by
  rw [headerBytes, take_toBytes_header]
  cases g.endian <;> rfl

theorem toBytes_descriptorType (t : FieldType) (e : Endian) :
    toBytes (fromNative (descriptorType t) e) ≠ [0x47, 0x53] := by
  cases t with
  | _ =>
      rw [descriptorType]
      cases e <;> decide

/-- A descriptor does not start like the magic. -/
theorem take_descriptors {e : Endian} {offs : Nat} {ts : List FieldType}
    (h : descriptors offs ts ≠ []) (rest : Bytes) :
    (((descriptors offs ts).flatMap fun d => toBytes (fromNative d e)) ++ rest).take 2 ≠
      [0x47, 0x53] := by
  induction ts generalizing offs with
  | nil => exact absurd rfl h
  | cons t ts ih =>
      rw [descriptors] at h ⊢
      by_cases ht : t.isReal = true
      · have htake : ∀ (d : TypeDescriptor) (r : Bytes),
            (toBytes (fromNative d e) ++ r).take 2 = toBytes (fromNative d.type e) := by
          intro d r
          cases e <;> rfl
        rw [if_pos ht, List.flatMap_cons, List.append_assoc, htake]
        exact toBytes_descriptorType t e
      · rw [if_neg ht] at h ⊢
        exact ih h

/-- Without rows there are no strings. -/
theorem msgsSize_of_no_rows {g : Gbnl} (hbuild : PadBuildable g.type)
    (h : g.recalcSize.msgsEnd = 0) : g.recalcSize.msgsSize = 0 := by
  have hflat : g.messages.flatten = [] := by
    rw [List.flatten_eq_nil_iff]
    intro m hm
    have hprod : totalSize g.type * g.recalcSize.messages.length = 0 := h
    have hlen : g.recalcSize.messages.length = g.messages.length := by
      have := congrArg List.length (StringTable.type_placeMessages .empty g.messages)
      rwa [List.length_map, List.length_map] at this
    have hpos : 0 < g.messages.length := List.length_pos_of_mem hm
    have htype : g.type = [] := by
      by_contra hne
      have := totalSize_pos hbuild hne
      rcases Nat.mul_eq_zero.mp hprod with h0 | h0
      · omega
      · omega
    have := g.typed m hm
    rw [htype] at this
    exact List.map_eq_nil_iff.mp this
  change (StringTable.empty.placeMessages g.messages).2.offset = 0
  rw [(StringTable.placeMessages_flatten _ _).2, hflat]
  rfl

/-- In the form with the header at the end only rows can start with the magic
of the other form. -/
theorem not_magicGst_prefix {g : Gbnl} (hg : g.isGstl = false) {rows text : Bytes}
    (hrows : rows.length = g.msgsEnd) (hmagic : ¬ magicGst.1 <+: rows)
    (htypes : g.realItemCount = g.type.countP FieldType.isReal)
    (htext : g.msgsEnd = 0 → text = []) (hmsgs : g.msgsEnd = 0 → g.msgsSize = 0) :
    (g.layout rows text).take 3 ≠ magicGst.1 := by
  intro htake
  have halign : ∀ x, g.align x = (x + 15) / 16 * 16 := fun x => by simp [align, hg]
  rw [layout, if_neg (by simp [hg])] at htake
  rw [body] at htake
  simp only [List.append_assoc] at htake
  rcases rows with _ | ⟨a, _ | ⟨b, _ | ⟨c, rows⟩⟩⟩
  · have hend : g.msgsEnd = 0 := hrows.symm
    rw [htext hend, hmsgs hend, hend, halign] at htake
    by_cases hd : descriptors 0 g.type = []
    · have hcount : g.realItemCount = 0 := by
        rw [htypes, ← length_descriptors 0, hd]
        rfl
      have hctrl : g.controlEnd = 0 := by rw [controlEnd, hcount, hend, halign]
      rw [descriptorBytes, hd, hctrl, halign] at htake
      have heq : g.header.magic.1 = magicGst.1 := (take_headerBytes g).symm.trans htake
      simp [header, hg, magicGbn, magicGst] at heq
    · have htake2 := congrArg (List.take 2) htake
      rw [List.take_take] at htake2
      exact take_descriptors (e := g.endian) hd _ htake2
  · rw [← hrows, halign] at htake
    simp [magicGst, zeros, List.replicate_succ] at htake
  · rw [← hrows, halign] at htake
    simp [magicGst, zeros, List.replicate_succ] at htake
  · apply hmagic
    rw [← htake]
    exact ⟨rows, rfl⟩

theorem plain_placeValue (t : StringTable) {v : Value} (h : v.Plain) :
    (t.placeValue v).1.Plain := by
  cases v with
  | offsetString str offset =>
      by_cases hnil : offset = nilOffset
      · simp only [StringTable.placeValue, if_pos hnil]
        exact Or.inl hnil
      · simp only [StringTable.placeValue, if_neg hnil]
        exact Or.inr (h.resolve_left hnil)
  | _ => exact h

theorem plain_placeStruct {m : Struct} (t : StringTable) (h : ∀ v ∈ m, v.Plain) :
    ∀ v ∈ (t.placeStruct m).1, v.Plain := by
  induction m generalizing t with
  | nil => exact fun _ hv => nomatch hv
  | cons v m ih =>
      rw [StringTable.placeStruct_cons]
      exact List.forall_mem_cons.mpr ⟨plain_placeValue t (h v List.mem_cons_self),
        ih _ fun w hw => h w (List.mem_cons_of_mem v hw)⟩

theorem plain_recalcSize {g : Gbnl} (h : ∀ m ∈ g.messages, ∀ v ∈ m, v.Plain) :
    ∀ m ∈ g.recalcSize.messages, ∀ v ∈ m, v.Plain := by
  intro m hm v hv
  have hflat := (StringTable.placeMessages_flatten .empty g.messages).1
  have hmem : v ∈ (StringTable.empty.placeStruct g.messages.flatten).1 := by
    rw [← hflat]
    exact List.mem_flatten.mpr ⟨m, hm, hv⟩
  refine plain_placeStruct _ (fun w hw => ?_) v hmem
  obtain ⟨m', hm', hw⟩ := List.mem_flatten.mp hw
  exact h m' hm' w hw

theorem bytesOf_rows {g : Gbnl} (hbuild : PadBuildable g.type) :
    Sink.bytesOf (dumpRows g.endian g.recalcSize.msgDescrSize
      (zeros g.recalcSize.msgDescrSize) g.recalcSize.messages) =
      g.recalcSize.messages.flatMap (rowBytes g.endian) := by
  refine bytesOf_dumpRows g.endian (fun m hm => ?_) (length_zeros _)
  have htype := g.recalcSize.typed m hm
  rw [length_rowBytes _ (by rw [htype]; exact hbuild.no_empty_fixString), htype]
  rfl

theorem readHeader_layout {g : Gbnl} {rows text : Bytes} (hrows : rows.length = g.msgsEnd)
    (htypes : g.realItemCount = g.type.countP FieldType.isReal)
    (htext : text.length = g.msgsSize)
    (hmagic : g.isGstl = false → (g.layout rows text).take 3 ≠ magicGst.1) :
    readHeader (.fromMemory (g.layout rows text)) =
      .ok (fromNative g.header g.endian, g.isGstl) := by
  have hlen := length_layout hrows htypes htext
  have hsize := getSize_eq g
  have hcheck : (Source.fromMemory (g.layout rows text)).checkSize sizeofHeader = .ok () :=
    Source.checkSize_of_le (by change _ ≤ (g.layout rows text).length; omega)
  have hstand := header_standsAt hrows htypes htext
  have hmag : (fromNative g.header g.endian).magic = g.header.magic := by
    cases g.endian <;> rfl
  rw [readHeader, hcheck, ok_bind]
  cases hg : g.isGstl with
  | true =>
      rw [hg, if_pos rfl] at hstand
      have hread := Source.preadGen_of_standsAt (α := Header)
        (s := .fromMemory (g.layout rows text)) (by rw [Source.bytes_fromMemory]; exact hstand)
      have hgst : (fromNative g.header g.endian).magic = magicGst := by
        rw [hmag, header, if_pos hg]
      rw [hread, ok_bind, if_pos hgst]
      rfl
  | false =>
      rw [hg, if_neg Bool.false_ne_true] at hstand
      have hread := Source.preadGen_of_standsAt (α := Header)
        (s := .fromMemory (g.layout rows text)) (by rw [Source.bytes_fromMemory]; exact hstand)
      -- The first bytes of the file are not the header, but can be read as one.
      have hfirst : StandsAt ((g.layout rows text).take 0x40) 0
          (Source.fromMemory (g.layout rows text)).bytes := by
        rw [Source.bytes_fromMemory]
        exact ⟨[], _, (List.take_append_drop 0x40 _).symm, rfl⟩
      have htake : ((g.layout rows text).take 0x40).length = Pod.size Header := by
        rw [List.length_take]
        change min 0x40 _ = 0x40
        have : sizeofHeader = 0x40 := rfl
        omega
      have hne : (Pod.ofBytes ((g.layout rows text).take 0x40) : Header).magic ≠ magicGst := by
        intro heq
        apply hmagic hg
        have h3 := take_toBytes_header (Pod.ofBytes ((g.layout rows text).take 0x40))
        rw [Pod.toBytes_ofBytes _ htake, heq, List.take_take] at h3
        exact h3
      rw [Source.preadGen, Source.pread_of_standsAt hfirst htake, ok_bind, pure_eq_ok, ok_bind,
        if_neg hne]
      change (Source.preadGen Header (.fromMemory (g.layout rows text))
        ((g.layout rows text).length - sizeofHeader) >>= _) = _
      rw [hlen, hread]
      rfl

/-- Two tables with the same contents. -/
structure SameTable (g g' : Gbnl) : Prop where
  endian : g.endian = g'.endian
  isGstl : g.isGstl = g'.isGstl
  flags : g.flags = g'.flags
  field28 : g.field28 = g'.field28
  field30 : g.field30 = g'.field30
  type : g.type = g'.type
  messages : g.messages.map (List.map Value.content) = g'.messages.map (List.map Value.content)

theorem content_content (v : Value) : v.content.content = v.content := by
  cases v with
  | offsetString str offset =>
      by_cases hnil : offset = nilOffset
      · simp only [Value.content, if_pos hnil, if_true]
      · simp only [Value.content, if_neg hnil]
        exact if_neg (by decide)
  | _ => rfl

/-- A table read with the header and the contents of `g` has the contents and
the sizes of `g`. -/
theorem tableOf_header {g : Gbnl} (hsize : g.recalcSize.msgsSize < 2 ^ 32 - 1)
    {ms : { ms : List Struct // ∀ m ∈ ms, m.type = g.type }}
    (hms : ms.1 = g.messages.map (List.map Value.content)) :
    SameTable (tableOf g.endian g.recalcSize.header g.isGstl ms) g ∧
      (tableOf g.endian g.recalcSize.header g.isGstl ms).msgDescrSize = totalSize g.type ∧
      (tableOf g.endian g.recalcSize.header g.isGstl ms).getSize = g.recalcSize.getSize := by
  have hplace : (StringTable.empty.placeMessages ms.1).2 =
      (StringTable.empty.placeMessages g.messages).2 := by
    rw [hms, placeMessages_content]
  have hmsgs : (StringTable.empty.placeMessages ms.1).1.map (List.map Value.content) =
      g.messages.map (List.map Value.content) := by
    have hcc : Value.content ∘ Value.content = Value.content := funext content_content
    rw [content_placeMessages StringTable.describes_empty (by rw [hplace]; exact hsize), hms,
      List.map_map, List.map_comp_map, hcc]
  refine ⟨⟨rfl, rfl, rfl, rfl, rfl, rfl, hmsgs⟩, rfl, ?_⟩
  have hlen : (tableOf g.endian g.recalcSize.header g.isGstl ms).messages.length =
      g.recalcSize.messages.length := by
    rw [tableOf, length_recalcSize_messages, length_recalcSize_messages]
    change ms.1.length = _
    rw [hms, List.length_map]
  have hmsgsSize : (tableOf g.endian g.recalcSize.header g.isGstl ms).msgsSize =
      g.recalcSize.msgsSize := congrArg StringTable.offset hplace
  rw [getSize, getSize, hlen, hmsgsSize]
  rfl

/-- `Dump_` after `RecalcSize`, with the rows spelled out. -/
theorem dump_layout (g : Gbnl) (hbuild : PadBuildable g.type)
    (hsize : g.recalcSize.msgsSize < 2 ^ 32 - 1) :
    ∃ calls text, dump g.recalcSize = .ok calls ∧
      Sink.bytesOf calls =
        g.recalcSize.layout (g.recalcSize.messages.flatMap (rowBytes g.endian)) text ∧
      (g.recalcSize.messages.flatMap (rowBytes g.endian)).length = g.recalcSize.msgsEnd ∧
      text.length = g.recalcSize.msgsSize ∧
      ∀ m ∈ g.recalcSize.messages, ∀ v ∈ m, v.StandsIn text := by
  obtain ⟨calls, rows, text, hcalls, hbytes, rfl, htext, hstr⟩ := dump_recalcSize g (Or.inr hbuild.no_empty_fixString) hsize
  have hlen := length_bytesOf_dumpRows g.endian g.recalcSize.msgDescrSize
    g.recalcSize.messages (Nat.le_of_eq (length_zeros g.recalcSize.msgDescrSize).symm)
  rw [bytesOf_rows hbuild] at hbytes hlen
  exact ⟨calls, text, hcalls, hbytes, hlen, htext, hstr⟩

theorem parse_of_readHeader {src : Source} {g : Gbnl}
    (h : readHeader src = .ok (fromNative g.header g.endian, g.isGstl)) :
    parse src = parseWith g.endian g.header g.isGstl src := by
  have hendian : (if (fromNative g.header g.endian).endian = 0x4c then Endian.little
      else Endian.big) = g.endian := by
    cases hg : g.endian with
    | little => simp [fromNative, header, hg]
    | big => simp [fromNative, header, hg, endianReverse, Header.reverse]
  rw [parse, h, ok_bind]
  change parseWith (if (fromNative g.header g.endian).endian = 0x4c then Endian.little
    else Endian.big) (toNative _ (if (fromNative g.header g.endian).endian = 0x4c then
    Endian.little else Endian.big)) _ _ = _
  rw [hendian, toNative_fromNative]

/-- What is written after `RecalcSize` is accepted exactly when its header is
valid and what is read back takes as much room; `count_msgs` counts in 32 bits. -/
theorem parse_written (g : Gbnl) (hbuild : PadBuildable g.type)
    (hsize : g.recalcSize.getSize < 2 ^ 32)
    (hmagic : g.isGstl = false →
      ¬ magicGst.1 <+: g.recalcSize.messages.flatMap (rowBytes g.endian)) :
    ∃ calls, ∃ ms : { ms : List Struct // ∀ m ∈ ms, m.type = g.type },
      dump g.recalcSize = .ok calls ∧
      ms.1 = (g.recalcSize.messages.take (g.messages.length % 2 ^ 32)).map
        (List.map Value.readBack) ∧
      parse (.fromMemory (Sink.bytesOf calls)) =
        (g.recalcSize.header.validate g.recalcSize.getSize >>= fun _ =>
          validateField "Gbnl invalid size after repack" "GetSize() == src.GetSize()"
            ((tableOf g.endian g.recalcSize.header g.isGstl ms).getSize =
              g.recalcSize.getSize) >>= fun _ =>
          .ok (tableOf g.endian g.recalcSize.header g.isGstl ms)) := by
  have hmsgsSize := msgsSize_lt hsize
  obtain ⟨calls, text, hcalls, hbytes, hrows, htext, hstr⟩ := dump_layout g hbuild hmsgsSize
  have hnorows := msgsSize_of_no_rows hbuild
  have hheader := readHeader_layout hrows rfl htext fun hg =>
    not_magicGst_prefix hg hrows (hmagic hg) rfl
      (fun h0 => List.eq_nil_of_length_eq_zero (htext.trans (hnorows h0))) hnorows
  have hlen := length_layout hrows rfl htext
  have hdescr := @descriptors_standsAt _ _ text hrows
  have hrowsAt := @rows_standsAt g.recalcSize
    (g.recalcSize.messages.flatMap (rowBytes g.endian)) text
  have htextAt := @text_standsAt _ _ text hrows rfl
  rw [← hbytes] at hheader hlen hdescr hrowsAt htextAt
  rw [← header_offsetTypes hsize] at hdescr
  rw [← header_descrOffset] at hrowsAt
  -- The file is a source from here on.
  have hsrcBytes := Source.bytes_fromMemory (Sink.bytesOf calls)
  have hsrc : (Source.fromMemory (Sink.bytesOf calls)).size = g.recalcSize.getSize := hlen
  rw [← hsrcBytes] at hdescr hrowsAt htextAt
  have hseek := hdescr.le
  rw [Source.length_bytes] at hseek
  obtain ⟨st, pos, hst, hpad⟩ := types_roundTrip hbuild hdescr
  have htotal : g.recalcSize.header.msgDescrSize.toNat = totalSize g.type := by
    have := totalSize_le hbuild.sizes hbuild.offsets
    exact UInt32.toNat_ofNat_of_lt' (by change totalSize g.type < 2 ^ 32; omega)
  have htextAt' : StandsAt text g.recalcSize.header.offsetMsgs.toNat
      (Source.fromMemory (Sink.bytesOf calls)).bytes := by
    rw [header_offsetMsgs hsize]
    by_cases h0 : g.recalcSize.msgsSize = 0
    · rw [if_neg (not_not.mpr h0), List.eq_nil_of_length_eq_zero (htext.trans h0)]
      exact ⟨[], _, rfl, rfl⟩
    · rwa [if_pos h0]
  -- Only as many rows are read as 32 bits count.
  let count := g.messages.length % 2 ^ 32
  have hsplit : g.recalcSize.messages.flatMap (rowBytes g.endian) =
      (g.recalcSize.messages.take count).flatMap (rowBytes g.endian) ++
        (g.recalcSize.messages.drop count).flatMap (rowBytes g.endian) := by
    rw [← List.flatMap_append, List.take_append_drop]
  rw [hsplit] at hrowsAt
  obtain ⟨ms, hms, hback⟩ := readMessages_rows htextAt' (by rw [hsrc]; exact hsize)
    hbuild.no_empty_fixString htotal hrowsAt.left
    (fun m hm => g.recalcSize.typed m (List.mem_of_mem_take hm))
    (fun m hm => hstr m (List.mem_of_mem_take hm)) pos
  have hcount : g.recalcSize.header.countMsgs.toNat =
      (g.recalcSize.messages.take count).length := by
    have hle : count ≤ g.messages.length := Nat.mod_le _ _
    rw [List.length_take, length_recalcSize_messages, Nat.min_eq_left hle]
    change (UInt32.ofNat g.recalcSize.messages.length).toNat = _
    rw [length_recalcSize_messages, UInt32.toNat_ofNat']
  refine ⟨calls, ms, hcalls, hback, ?_⟩
  rw [parse_of_readHeader hheader, ← hsrc]
  refine parseWith_eq (by omega) ?_ (by rw [htotal]; exact hpad) (by rw [hcount]; exact hms) ?_
  · rw [header_countTypes hsize]
    exact hst
  · exact htotal.symm

/-- What is written after `RecalcSize` is accepted exactly when its header is
valid, and gives a table with the same contents. -/
theorem parse_dump (g : Gbnl) (hbuild : PadBuildable g.type)
    (hplain : ∀ m ∈ g.messages, ∀ v ∈ m, v.Plain) (hsize : g.recalcSize.getSize < 2 ^ 32)
    (hcount : g.messages.length < 2 ^ 32)
    (hmagic : g.isGstl = false →
      ¬ magicGst.1 <+: g.recalcSize.messages.flatMap (rowBytes g.endian)) :
    ∃ calls g', dump g.recalcSize = .ok calls ∧ SameTable g' g ∧
      parse (.fromMemory (Sink.bytesOf calls)) =
        (g.recalcSize.header.validate g.recalcSize.getSize >>= fun _ => .ok g') := by
  have hmsgsSize := msgsSize_lt hsize
  obtain ⟨calls, ms, hcalls, hback, hparse⟩ := parse_written g hbuild hsize hmagic
  have hms : ms.1 = g.messages.map (List.map Value.content) := by
    rw [hback, Nat.mod_eq_of_lt hcount, ← length_recalcSize_messages, List.take_length]
    refine (List.map_congr_left fun m hm => ?_).trans
      (content_placeMessages StringTable.describes_empty hmsgsSize)
    exact List.map_congr_left fun v hv => readBack_of_plain (plain_recalcSize hplain m hm v hv)
  obtain ⟨hsame, -, hgetSize⟩ := tableOf_header hmsgsSize hms
  refine ⟨calls, _, hcalls, hsame, ?_⟩
  rw [hparse, validateField_of hgetSize]
  rfl

/-- Rows of at least one byte keep the number of messages within 32 bits. -/
theorem length_messages_lt {g : Gbnl} (hbuild : PadBuildable g.type) (hne : g.type ≠ [])
    (hsize : g.recalcSize.getSize < 2 ^ 32) : g.messages.length < 2 ^ 32 := by
  have hpos := totalSize_pos hbuild hne
  have hle := g.recalcSize.le_align g.recalcSize.msgsEnd
  have hle' := g.recalcSize.le_align g.recalcSize.controlEnd
  have hctrl : g.recalcSize.controlEnd =
      g.recalcSize.align g.recalcSize.msgsEnd + 4 * g.recalcSize.realItemCount := rfl
  have hend : g.recalcSize.msgsEnd = totalSize g.type * g.messages.length := by
    rw [← length_recalcSize_messages]
    rfl
  have hmul := Nat.le_mul_of_pos_left g.messages.length hpos
  rw [getSize_eq] at hsize
  omega

/-- A table that `Pad` can build reads back with the same contents if it is
accepted at all, which depends on its header only. -/
theorem parse_dump_same (g : Gbnl) (hbuild : PadBuildable g.type)
    (hplain : ∀ m ∈ g.messages, ∀ v ∈ m, v.Plain) (hsize : g.recalcSize.getSize < 2 ^ 32)
    (hmagic : g.isGstl = false →
      ¬ magicGst.1 <+: g.recalcSize.messages.flatMap (rowBytes g.endian))
    (hcount : g.type = [] → g.messages.length < 2 ^ 32) :
    ∃ calls, dump g.recalcSize = .ok calls ∧
      (∀ g', parse (.fromMemory (Sink.bytesOf calls)) = .ok g' → SameTable g' g) ∧
      ((∃ g', parse (.fromMemory (Sink.bytesOf calls)) = .ok g') ↔
        g.recalcSize.header.validate g.recalcSize.getSize = .ok ()) := by
  have hcount' : g.messages.length < 2 ^ 32 := by
    by_cases htype : g.type = []
    · exact hcount htype
    · exact length_messages_lt hbuild htype hsize
  obtain ⟨calls, g', hcalls, hsame, hparse⟩ :=
    parse_dump g hbuild hplain hsize hcount' hmagic
  refine ⟨calls, hcalls, fun g'' hg'' => ?_, ?_⟩
  · rw [hparse] at hg''
    obtain ⟨-, -, heq⟩ := bind_eq_ok.mp hg''
    cases heq
    exact hsame
  · rw [hparse]
    constructor
    · rintro ⟨g'', hg''⟩
      obtain ⟨⟨⟩, hvalid, -⟩ := bind_eq_ok.mp hg''
      exact hvalid
    · intro hvalid
      exact ⟨g', by rw [hvalid, ok_bind]⟩

/-- A table with one message: a number, a fixed string and a string. -/
def sample : Gbnl :=
  { endian := .big, isGstl := true, flags := 1, field28 := 0, field30 := 8
    type := [.int32, .fixString 5, .offsetString]
    messages := [[.int32 7, .fixString [0x61, 0, 0, 0, 0], .offsetString [0x68, 0x69] 0]]
    msgDescrSize := 0, msgsSize := 0, realItemCount := 0
    typed := by decide }

theorem sample_parse_dump_same :
    ∃ calls, dump sample.recalcSize = .ok calls ∧
      (∀ g', parse (.fromMemory (Sink.bytesOf calls)) = .ok g' → SameTable g' sample) ∧
      ((∃ g', parse (.fromMemory (Sink.bytesOf calls)) = .ok g') ↔
        sample.recalcSize.header.validate sample.recalcSize.getSize = .ok ()) := by
  refine parse_dump_same sample ⟨?_, ?_, ?_⟩ ?_ (by decide) (fun h => nomatch h)
    (fun h => nomatch h)
  · simp [sample, SizeOk]
  · simp [sample, MayFollow]
  · simp [sample, OffsetsFit, FieldType.rowSize]
  · intro m hm v hv
    cases List.mem_singleton.mp hm
    simp only [List.mem_cons, List.not_mem_nil, or_false] at hv
    rcases hv with rfl | rfl | rfl
    · trivial
    · exact ⟨[0x61], 3, rfl, by decide⟩
    · exact Or.inr (by decide)

/-- Messages without fields, which take no room in the file. -/
def noFields (n : Nat) : Gbnl :=
  { endian := .little, isGstl := false, flags := 0, field28 := 0, field30 := 0, type := []
    messages := List.replicate n [], msgDescrSize := 0, msgsSize := 0, realItemCount := 0
    typed := fun m hm => by rw [List.eq_of_mem_replicate hm]; rfl }

theorem padBuildable_nil : PadBuildable [] :=
  ⟨(fun _ h => nomatch h), .nil, trivial⟩

theorem header_noFields {n : Nat} (h : UInt32.ofNat n = 0) :
    (noFields n).recalcSize.header = (noFields 0).recalcSize.header := by
  have hlen : (noFields n).recalcSize.messages.length = n := by
    rw [length_recalcSize_messages]
    exact List.length_replicate
  have hmsgs : (noFields n).recalcSize.msgsSize = 0 :=
    msgsSize_of_no_rows padBuildable_nil (Nat.zero_mul _)
  have hmul : (noFields n).recalcSize.msgDescrSize * n = 0 := Nat.zero_mul n
  rw [header, hlen, h, hmsgs, hmul]
  rfl

theorem dump_noFields (n : Nat) :
    ∃ calls, dump (noFields n).recalcSize = .ok calls ∧
      Sink.bytesOf calls = (noFields n).recalcSize.headerBytes := by
  have hend : (noFields n).recalcSize.msgsEnd = 0 := Nat.zero_mul _
  have hmsgs : (noFields n).recalcSize.msgsSize = 0 :=
    msgsSize_of_no_rows padBuildable_nil hend
  obtain ⟨calls, text, hcalls, hbytes, hrows, htext, -⟩ :=
    dump_layout (noFields n) padBuildable_nil (by rw [hmsgs]; decide)
  refine ⟨calls, hcalls, ?_⟩
  have hctrl : (noFields n).recalcSize.controlEnd = 0 := by
    rw [controlEnd, hend]
    rfl
  rw [hbytes, List.eq_nil_of_length_eq_zero (hrows.trans hend),
    List.eq_nil_of_length_eq_zero (htext.trans hmsgs), layout]
  change (noFields n).recalcSize.body [] [] ++ (noFields n).recalcSize.headerBytes = _
  rw [body, hend, hctrl, hmsgs]
  rfl

/-- 2^32 messages without fields are counted as none. -/
theorem messages_without_fields_lost :
    ¬ ∀ g : Gbnl, PadBuildable g.type → (∀ m ∈ g.messages, ∀ v ∈ m, v.Plain) →
      g.recalcSize.getSize < 2 ^ 32 →
      (g.isGstl = false → ¬ magicGst.1 <+: g.recalcSize.messages.flatMap (rowBytes g.endian)) →
      ∃ calls, dump g.recalcSize = .ok calls ∧
        ∀ g', parse (.fromMemory (Sink.bytesOf calls)) = .ok g' → SameTable g' g := by
  intro h
  have hcount : UInt32.ofNat (2 ^ 32) = 0 := by decide
  have hheader := header_noFields hcount
  have hsize : ∀ n, (noFields n).recalcSize.getSize < 2 ^ 32 := fun n => by
    have hmul : (noFields n).recalcSize.msgsEnd = 0 := Nat.zero_mul _
    have hmsgs := msgsSize_of_no_rows (g := noFields n) padBuildable_nil hmul
    have halign : ∀ x, (noFields n).recalcSize.align x = (x + 15) / 16 * 16 := fun _ => rfl
    have hcount : (noFields n).recalcSize.realItemCount = 0 := rfl
    rw [getSize_eq, controlEnd, hmul, hmsgs, hcount]
    simp only [halign]
    decide
  have hplain : ∀ n, ∀ m ∈ (noFields n).messages, ∀ v ∈ m, v.Plain := fun n m hm v hv => by
    rw [List.eq_of_mem_replicate hm] at hv
    cases hv
  have hmagic : ∀ n, ¬ magicGst.1 <+:
      (noFields n).recalcSize.messages.flatMap (rowBytes .little) := fun n hpre => by
    obtain ⟨-, -, -, -, hrows, -⟩ := dump_layout (noFields n) padBuildable_nil
      (msgsSize_lt (hsize n))
    have hmul : (noFields n).recalcSize.msgsEnd = 0 := Nat.zero_mul _
    have hle := hpre.length_le
    change _ ≤ List.length (List.flatMap (rowBytes (noFields n).endian) _) at hle
    rw [hrows, hmul] at hle
    exact absurd hle (by decide)
  -- The same bytes are written for no messages at all, and are accepted.
  obtain ⟨calls, hcalls, hbytes⟩ := dump_noFields (2 ^ 32)
  obtain ⟨calls', hcalls', hbytes'⟩ := dump_noFields 0
  obtain ⟨_, g', hdump, hsame, hparse⟩ := parse_dump (noFields 0) padBuildable_nil
    (hplain 0) (hsize 0) (by decide) fun _ => hmagic 0
  cases hcalls'.symm.trans hdump
  have hbytesEq : Sink.bytesOf calls = Sink.bytesOf calls' := by
    rw [hbytes, hbytes', headerBytes, headerBytes, hheader]
    rfl
  have hvalid : (noFields 0).recalcSize.header.validate (noFields 0).recalcSize.getSize =
      .ok () := by decide
  rw [hvalid, ok_bind] at hparse
  obtain ⟨_, hdump', hall⟩ := h (noFields (2 ^ 32)) padBuildable_nil (hplain _) (hsize _)
    fun _ => hmagic _
  cases hcalls.symm.trans hdump'
  have hlost := hsame.messages.symm.trans (hall g' (by rw [hbytesEq]; exact hparse)).messages
  have hlen := congrArg List.length hlost
  rw [List.length_map, List.length_map, noFields, noFields, List.length_replicate,
    List.length_replicate] at hlen
  exact absurd hlen (by decide)

end Gbnl

end Neptools

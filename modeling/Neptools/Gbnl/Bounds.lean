import Neptools.Gbnl.Repack

/-!
Where `Parse_` reads. The descriptors are within the source once the header is
valid; rows and strings need not be, as the header check multiplies in 32 bits
and the width of a row follows from the descriptors. The accesses made for the
rows are listed, in their order, and compared with the bounds.
-/

namespace Neptools

open Lib

namespace Gbnl

/-- A row is sought, or a field of the given type is read. -/
inductive Access
  | seek (pos : Nat)
  | field (pos : Nat) (t : FieldType)
  deriving DecidableEq

def fieldAccesses (pos : Nat) : List FieldType → List Access
  | [] => []
  | t :: ts => .field pos t :: fieldAccesses (pos + t.rowSize) ts

/-- The accesses of the loop over the messages; `msgs` is 32 bits wide. -/
def rowAccesses (foot : Header) (type : List FieldType) : Nat → UInt32 → List Access
  | 0, _ => []
  | n + 1, msgs =>
      (.seek msgs.toNat :: fieldAccesses msgs.toNat type) ++
        rowAccesses foot type n (msgs + foot.msgDescrSize)

/-- The offset of the string whose field is at `pos`. -/
def stringOffset (e : Endian) (src : Source) (pos : Nat) : UInt32 :=
  toNative (Pod.ofBytes (slice src.bytes pos 4)) e

/-- The field of a string at `pos` has an offset that is not nil and below the
room behind `offset_msgs`. -/
def Referenced (e : Endian) (offsetMsgs : UInt32) (src : Source) (pos : Nat) : Prop :=
  stringOffset e src pos ≠ nilOffset ∧
    (stringOffset e src pos).toNat < src.size - offsetMsgs.toNat

/-- The access leaves the source: the row or the field does, or the string
referred to has no end in it. -/
def Outside (e : Endian) (offsetMsgs : UInt32) (src : Source) : Access → Prop
  | .seek pos => src.size < pos
  | .field pos t =>
      src.size < pos + t.rowSize ∨
      t = .offsetString ∧ Referenced e offsetMsgs src pos ∧
        0 ∉ src.bytes.drop (offsetMsgs + stringOffset e src pos).toNat

/-- The offset of the string is refused. -/
def Refused (e : Endian) (offsetMsgs : UInt32) (src : Source) : Access → Prop
  | .seek _ => False
  | .field pos t =>
      t = .offsetString ∧ pos + 4 ≤ src.size ∧ stringOffset e src pos ≠ nilOffset ∧
        ¬ Referenced e offsetMsgs src pos

section

variable {e : Endian} {offsetMsgs : UInt32} {src : Source}

theorem accesses_seek (pos pos' : Nat) :
    Accesses Error.Thrown (Outside e offsetMsgs src) (Refused e offsetMsgs src) [.seek pos]
      ((src.at_ pos').seek pos) := by
  by_cases h : pos ≤ src.size
  · rw [Source.seek_of_le (s := src.at_ pos') h]
    exact Accesses.single_ok (Nat.not_lt_of_le h) id
  · have hnot : ¬ pos ≤ (src.at_ pos').size := h
    rw [Source.seek, require_not hnot, error_bind]
    exact Accesses.single_bad (Nat.lt_of_not_le h) (not_thrown_overflow _)

/-- A number is read from within the source or not at all. -/
theorem accesses_readUint {α β : Type} [Pod α] [EndianReverse α] {t : FieldType} {pos : Nat}
    {f : α × Source → Except Error β} (hsize : Pod.size α = t.rowSize) (ht : t ≠ .offsetString)
    (hf : ∀ r, ∃ b, f r = .ok b) :
    Accesses Error.Thrown (Outside e offsetMsgs src) (Refused e offsetMsgs src) [.field pos t]
      ((src.at_ pos).readUint α e >>= f) := by
  by_cases h : pos + Pod.size α ≤ src.size
  · obtain ⟨b, hb⟩ := hf (toNative (Pod.ofBytes (slice src.bytes pos (Pod.size α))) e,
      src.at_ (pos + Pod.size α))
    rw [Source.readUint_of_le h, ok_bind, hb]
    refine Accesses.single_ok ?_ fun hr => ht hr.1
    rintro (hgt | ⟨ht', -⟩)
    · omega
    · exact ht ht'
  · rw [Source.readUint_of_gt (by omega), error_bind]
    exact Accesses.single_bad (Or.inl (by omega)) (not_thrown_overflow _)

theorem accesses_read {β : Type} {t : FieldType} {pos : Nat}
    {f : ByteArr t.rowSize × Source → Except Error β} (ht : t ≠ .offsetString)
    (hf : ∀ r, ∃ b, f r = .ok b) :
    Accesses Error.Thrown (Outside e offsetMsgs src) (Refused e offsetMsgs src) [.field pos t]
      ((src.at_ pos).read t.rowSize >>= f) := by
  by_cases h : pos + t.rowSize ≤ src.size
  · obtain ⟨buf, hread, -⟩ := Source.read_of_le h
    obtain ⟨b, hb⟩ := hf (buf, src.at_ (pos + t.rowSize))
    rw [hread, ok_bind, hb]
    refine Accesses.single_ok ?_ fun hr => ht hr.1
    rintro (hgt | ⟨ht', -⟩)
    · omega
    · exact ht ht'
  · rw [Source.read_of_gt (by omega), error_bind]
    exact Accesses.single_bad (Or.inl (by omega)) (not_thrown_overflow _)

theorem readField_offsetString {pos : Nat} (h : pos + Pod.size UInt32 ≤ src.size) :
    readField e offsetMsgs (src.at_ pos) .offsetString =
      if stringOffset e src pos = nilOffset then
        .ok (⟨.offsetString [] nilOffset, rfl⟩, src.at_ (pos + Pod.size UInt32))
      else
        validateField "Gbnl" "offs < src.GetSize() - foot.offset_msgs"
          ((stringOffset e src pos).toNat < src.size - offsetMsgs.toNat) >>= fun _ =>
        (src.at_ (pos + Pod.size UInt32)).preadCString
          (offsetMsgs + stringOffset e src pos).toNat >>= fun str =>
        .ok (⟨.offsetString str 0, rfl⟩, src.at_ (pos + Pod.size UInt32)) := by
  rw [readField, Source.readUint32, Source.readUint_of_le h, ok_bind]
  rfl

theorem accesses_offsetString (pos : Nat) :
    Accesses Error.Thrown (Outside e offsetMsgs src) (Refused e offsetMsgs src)
      [.field pos .offsetString] (readField e offsetMsgs (src.at_ pos) .offsetString) := by
  by_cases h : pos + Pod.size UInt32 ≤ src.size
  · have hrow : ¬ src.size < pos + FieldType.offsetString.rowSize := Nat.not_lt_of_le h
    rw [readField_offsetString h]
    by_cases hnil : stringOffset e src pos = nilOffset
    · rw [if_pos hnil]
      refine Accesses.single_ok ?_ fun hr => hr.2.2.1 hnil
      exact fun hout => hout.elim hrow fun href => href.2.1.1 hnil
    · rw [if_neg hnil]
      by_cases hoffs : (stringOffset e src pos).toNat < src.size - offsetMsgs.toNat
      · have href : Referenced e offsetMsgs src pos := ⟨hnil, hoffs⟩
        rw [validateField_of hoffs, ok_bind]
        by_cases hzero : 0 ∈ src.bytes.drop (offsetMsgs + stringOffset e src pos).toNat
        · have hzero' : 0 ∈ (src.at_ (pos + Pod.size UInt32)).bytes.drop
            (offsetMsgs + stringOffset e src pos).toNat := hzero
          rw [Source.preadCString_of_mem hzero', ok_bind]
          refine Accesses.single_ok ?_ fun hr => hr.2.2.2 href
          exact fun hout => hout.elim hrow fun hend => hend.2.2 hzero
        · have hzero' : ¬ 0 ∈ (src.at_ (pos + Pod.size UInt32)).bytes.drop
            (offsetMsgs + stringOffset e src pos).toNat := hzero
          rw [Source.preadCString_of_not_mem hzero', error_bind]
          exact Accesses.single_bad (Or.inr ⟨rfl, href, hzero⟩) (not_thrown_assertion _)
      · rw [validateField, require_not hoffs, error_bind]
        refine Accesses.single_refused ?_ ⟨rfl, h, hnil, fun href => hoffs href.2⟩ ⟨_, rfl⟩
        exact fun hout => hout.elim hrow fun hend => hoffs hend.2.1.2
  · have hrow : src.size < pos + FieldType.offsetString.rowSize := Nat.lt_of_not_le h
    rw [readField, Source.readUint32, Source.readUint_of_gt (Nat.lt_of_not_le h), error_bind]
    exact Accesses.single_bad (Or.inl hrow) (not_thrown_overflow _)

theorem accesses_readField (t : FieldType) (pos : Nat) :
    Accesses Error.Thrown (Outside e offsetMsgs src) (Refused e offsetMsgs src) [.field pos t]
      (readField e offsetMsgs (src.at_ pos) t) := by
  cases t with
  | int8 => exact accesses_readUint (t := .int8) rfl (fun h => nomatch h) fun _ => ⟨_, rfl⟩
  | int16 => exact accesses_readUint (t := .int16) rfl (fun h => nomatch h) fun _ => ⟨_, rfl⟩
  | int32 => exact accesses_readUint (t := .int32) rfl (fun h => nomatch h) fun _ => ⟨_, rfl⟩
  | int64 => exact accesses_readUint (t := .int64) rfl (fun h => nomatch h) fun _ => ⟨_, rfl⟩
  | float => exact accesses_readUint (t := .float) rfl (fun h => nomatch h) fun _ => ⟨_, rfl⟩
  | offsetString => exact accesses_offsetString pos
  | fixString size =>
      exact accesses_read (t := .fixString size) (fun h => nomatch h) fun _ => ⟨_, rfl⟩
  | padding size =>
      exact accesses_read (t := .padding size) (fun h => nomatch h) fun _ => ⟨_, rfl⟩

/-- A field that was read leaves the read position behind it. -/
theorem readField_at {src' : Source} {t : FieldType} {pos : Nat}
    {r : { v : Value // v.type = t }}
    (h : readField e offsetMsgs (src.at_ pos) t = .ok (r, src')) :
    src' = src.at_ (pos + t.rowSize) :=
  (readField_spec h).2

theorem accesses_readStruct (type : List FieldType) (pos : Nat) :
    Accesses Error.Thrown (Outside e offsetMsgs src) (Refused e offsetMsgs src)
      (fieldAccesses pos type) (readStruct e offsetMsgs type (src.at_ pos)) := by
  induction type generalizing pos with
  | nil => exact Accesses.nil _
  | cons t ts ih =>
      refine Accesses.bind (accesses_readField t pos) fun r hr => ?_
      obtain ⟨v, src'⟩ := r
      rw [readField_at hr, ← List.append_nil (fieldAccesses _ _)]
      exact Accesses.bind (ih _) fun _ _ => Accesses.nil _

theorem readStruct_at {src' : Source} {type : List FieldType} {pos : Nat}
    {m : { m : Struct // m.type = type }}
    (h : readStruct e offsetMsgs type (src.at_ pos) = .ok (m, src')) :
    ∃ pos', src' = src.at_ pos' := by
  induction type generalizing pos src' with
  | nil =>
      cases h
      exact ⟨pos, rfl⟩
  | cons t ts ih =>
      obtain ⟨⟨v, src₁⟩, hv, h⟩ := bind_eq_ok.mp h
      obtain ⟨⟨vs, src₂⟩, hvs, h⟩ := bind_eq_ok.mp h
      cases h
      rw [readField_at hv] at hvs
      exact ih hvs

theorem accesses_readMessages (foot : Header) (type : List FieldType) (n : Nat) (msgs : UInt32)
    (pos : Nat) :
    Accesses Error.Thrown (Outside e foot.offsetMsgs src) (Refused e foot.offsetMsgs src)
      (rowAccesses foot type n msgs) (readMessages e foot type n msgs (src.at_ pos)) := by
  induction n generalizing msgs pos with
  | zero => exact Accesses.nil _
  | succ n ih =>
      rw [rowAccesses, readMessages, List.cons_append]
      refine Accesses.bind (accesses_seek _ _) fun src₁ hseek => ?_
      obtain ⟨-, rfl⟩ := Source.seek_spec hseek
      refine Accesses.bind (accesses_readStruct type msgs.toNat) fun r hr => ?_
      obtain ⟨m, src₂⟩ := r
      obtain ⟨pos', rfl⟩ := readStruct_at hr
      rw [← List.append_nil (rowAccesses _ _ _ _)]
      exact Accesses.bind (ih _ pos') fun _ _ => Accesses.nil _

end

theorem not_overran_validate (h : Header) (chunkSize : Nat) :
    ¬ Overran Error.Thrown (h.validate chunkSize) := by
  rw [Header.validate]
  repeat refine not_overran_bind not_overran_validateField fun _ _ => ?_
  split
  · exact not_overran_validateField
  · split <;> exact not_overran_validateField

/-- The descriptors of a valid header and the start of its strings are within
the file, and its rows start where the form of the file has them. -/
theorem validate_spec {h : Header} {chunkSize : Nat} (hvalid : h.validate chunkSize = .ok ()) :
    h.offsetTypes.toNat + 4 * h.countTypes.toNat < chunkSize ∧
      h.offsetMsgs.toNat < chunkSize ∧ h.descrOffset.toNat ≤ sizeofHeader := by
  obtain ⟨_, -, hvalid⟩ := bind_eq_ok.mp hvalid
  obtain ⟨_, -, hvalid⟩ := bind_eq_ok.mp hvalid
  obtain ⟨_, -, hvalid⟩ := bind_eq_ok.mp hvalid
  obtain ⟨_, htypes, hvalid⟩ := bind_eq_ok.mp hvalid
  obtain ⟨_, hmsgs, hvalid⟩ := bind_eq_ok.mp hvalid
  obtain ⟨_, -, hvalid⟩ := bind_eq_ok.mp hvalid
  refine ⟨require_eq_ok.mp htypes, require_eq_ok.mp hmsgs, ?_⟩
  split at hvalid
  · rw [require_eq_ok.mp hvalid]
    exact Nat.zero_le _
  · split at hvalid
    · rw [require_eq_ok.mp hvalid]
      exact Nat.le_refl _
    · exact absurd (require_eq_ok.mp hvalid) id

theorem not_overran_getTypeSize (type : UInt16) :
    ¬ Overran Error.Thrown (getTypeSize type) := by
  rw [getTypeSize]
  repeat'
    split
    · exact not_overran_ok _
  exact fun hover => overran_error.mp hover ⟨_, rfl⟩

theorem not_overran_addType (st : TypeState) (desc : TypeDescriptor) :
    ¬ Overran Error.Thrown (addType st desc) := by
  rw [addType]
  have hpending : (pad (toUint16 (desc.offset.toNat - st.calcOffs)) st.bld
      st.int8InProgress).2 = false := by
    rw [pad]
    split <;> rfl
  generalize pad (toUint16 (desc.offset.toNat - st.calcOffs)) st.bld st.int8InProgress = padded
    at hpending
  refine not_overran_bind not_overran_validateField fun _ _ => ?_
  refine not_overran_bind (not_overran_getTypeSize _) fun size _ => ?_
  by_cases h8 : desc.type = TypeDescriptor.int8
  · simp only [if_pos h8, require_of hpending, ok_bind]
    exact not_overran_ok _
  · simp only [if_neg h8]
    repeat'
      split
      · exact not_overran_ok _
    exact fun hover => overran_error.mp hover ⟨_, rfl⟩

theorem not_overran_readTypes {e : Endian} {n : Nat} {src : Source} {pos : Nat}
    (h : pos + 4 * n ≤ src.size) (st : TypeState) :
    ¬ Overran Error.Thrown (readTypes e n st (src.at_ pos)) := by
  induction n generalizing st pos with
  | zero => exact not_overran_ok _
  | succ n ih =>
      have hdesc : pos + Pod.size TypeDescriptor ≤ src.size := by
        change pos + 4 ≤ _
        omega
      rw [readTypes, Source.readGen_of_le hdesc, ok_bind]
      refine not_overran_bind (not_overran_addType _ _) fun st' _ => ih ?_ st'
      change pos + 4 + 4 * n ≤ _
      omega

/-- The part of `Parse_` up to where the types are known. -/
def parseTypes (endian : Endian) (foot : Header) (src : Source) :
    Except Error (List FieldType × Source) := do
  foot.validate src.size
  let src ← src.seek foot.offsetTypes.toNat
  let (st, src) ← readTypes endian foot.countTypes.toNat
    { calcOffs := 0, bld := [], int8InProgress := false } src
  pure ((pad (toUint16 (foot.msgDescrSize.toNat - st.calcOffs)) st.bld st.int8InProgress).1, src)

theorem parseWith_eq_bind (e : Endian) (foot : Header) (isGstl : Bool) (src : Source) :
    parseWith e foot isGstl src =
      parseTypes e foot src >>= fun r => readTable e foot isGstl r.1 r.2 := by
  rw [parseWith, parseTypes]
  simp only [bind_assoc, pure_eq_ok, ok_bind]

/-- The descriptors are read from within the source. -/
theorem not_overran_parseTypes (e : Endian) (foot : Header) (src : Source) :
    ¬ Overran Error.Thrown (parseTypes e foot src) := by
  refine not_overran_bind (not_overran_validate _ _) fun _ hvalid => ?_
  have hroom := (validate_spec hvalid).1
  rw [Source.seek_of_le (by omega), ok_bind]
  exact not_overran_bind (not_overran_readTypes (by omega) _) fun _ _ => not_overran_ok _

theorem readTypes_at {e : Endian} {n : Nat} {st st' : TypeState} {src src' : Source} {pos : Nat}
    (h : readTypes e n st (src.at_ pos) = .ok (st', src')) : ∃ pos', src' = src.at_ pos' := by
  induction n generalizing st pos with
  | zero =>
      cases h
      exact ⟨pos, rfl⟩
  | succ n ih =>
      obtain ⟨⟨desc, src₁⟩, hdesc, h⟩ := bind_eq_ok.mp h
      obtain ⟨st₁, -, h⟩ := bind_eq_ok.mp h
      obtain ⟨-, rfl⟩ := Source.readGen_spec hdesc
      exact ih h

theorem parseTypes_spec {e : Endian} {foot : Header} {src src' : Source} {type : List FieldType}
    (h : parseTypes e foot src = .ok (type, src')) :
    foot.validate src.size = .ok () ∧ ∃ pos, src' = src.at_ pos := by
  obtain ⟨⟨⟩, hvalid, h⟩ := bind_eq_ok.mp h
  obtain ⟨src₁, hseek, h⟩ := bind_eq_ok.mp h
  obtain ⟨⟨st, src₂⟩, htypes, h⟩ := bind_eq_ok.mp h
  cases h
  obtain ⟨-, rfl⟩ := Source.seek_spec hseek
  exact ⟨hvalid, readTypes_at htypes⟩

/-- The checks behind the loop over the messages throw. -/
theorem overran_readTable {e : Endian} {foot : Header} {isGstl : Bool} {type : List FieldType}
    {src : Source} {pos : Nat} :
    Overran Error.Thrown (readTable e foot isGstl type (src.at_ pos)) ↔
      Reaches (Outside e foot.offsetMsgs src) (Refused e foot.offsetMsgs src)
        (rowAccesses foot type foot.countMsgs.toNat foot.descrOffset) := by
  have hrows : Accesses Error.Thrown (Outside e foot.offsetMsgs src) (Refused e foot.offsetMsgs src)
      (rowAccesses foot type foot.countMsgs.toNat foot.descrOffset)
      (readMessages e foot type foot.countMsgs.toNat foot.descrOffset (src.at_ pos)) :=
    accesses_readMessages foot type _ _ pos
  rw [← hrows.overran_iff, readTable, overran_bind]
  refine or_iff_left ?_
  rintro ⟨ms, -, hover⟩
  refine absurd hover ?_
  refine not_overran_bind not_overran_validateField fun _ _ => ?_
  exact not_overran_bind not_overran_validateField fun _ _ => not_overran_ok _

theorem not_overran_readHeader (data : Bytes) :
    ¬ Overran Error.Thrown (readHeader (.fromMemory data)) := by
  by_cases hsize : sizeofHeader ≤ data.length
  · have hfirst : 0 + Pod.size Header ≤ (Source.fromMemory data).size := by
      rw [Nat.zero_add]
      exact hsize
    have hlast : data.length - sizeofHeader + Pod.size Header ≤
        (Source.fromMemory data).size := by
      change data.length - 64 + 64 ≤ data.length
      change 64 ≤ data.length at hsize
      omega
    rw [readHeader, Source.checkSize_of_le hsize, ok_bind, Source.preadGen_of_le hfirst, ok_bind]
    split
    · exact not_overran_ok _
    · change ¬ Overran _ (Source.preadGen _ _ (data.length - sizeofHeader) >>= _)
      rw [Source.preadGen_of_le hlast, ok_bind]
      exact not_overran_ok _
  · have hshort : ¬ sizeofHeader ≤ (Source.fromMemory data).getOrigSize := hsize
    rw [readHeader, Source.checkSize, require_not hshort, error_bind]
    exact fun hover => overran_error.mp hover ⟨_, rfl⟩

/-- The places that are read are within the source, in numbers that do not wrap. -/
structure InsideSource (foot : Header) (g : Gbnl) (src : Source) : Prop where
  descriptors : foot.offsetTypes.toNat + 4 * foot.countTypes.toNat ≤ src.size
  rows : ∀ i < foot.countMsgs.toNat,
    foot.descrOffset.toNat + i * foot.msgDescrSize.toNat + totalSize g.type ≤ src.size
  strings : ∀ pos,
    .field pos .offsetString ∈ rowAccesses foot g.type foot.countMsgs.toNat foot.descrOffset →
    stringOffset g.endian src pos ≠ nilOffset →
    foot.offsetMsgs.toNat + (stringOffset g.endian src pos).toNat < src.size

/-- The byte order that the header names. -/
def Header.byteOrder (h : Header) : Endian := if h.endian = 0x4c then .little else .big

/-- The file is refused by an exception, or it is accepted and was read from
within. -/
def ReadSafely (data : Bytes) : Prop :=
  (∃ e, parse (.fromMemory data) = .error e ∧ e.Thrown) ∨
    ∃ g hdr isGstl, parse (.fromMemory data) = .ok g ∧
      readHeader (.fromMemory data) = .ok (hdr, isGstl) ∧
      InsideSource (toNative hdr g.endian) g (.fromMemory data)

/-- When the header and the descriptors are in order, no row, field or string
leaves the source unless the offset of a string before it is refused. -/
def RowsInside (data : Bytes) : Prop :=
  ∀ hdr isGstl type src', readHeader (.fromMemory data) = .ok (hdr, isGstl) →
    parseTypes hdr.byteOrder (toNative hdr hdr.byteOrder) (.fromMemory data) = .ok (type, src') →
    let foot := toNative hdr hdr.byteOrder
    ∀ before a after,
      rowAccesses foot type foot.countMsgs.toNat foot.descrOffset = before ++ a :: after →
      Outside hdr.byteOrder foot.offsetMsgs (.fromMemory data) a →
      ∃ b ∈ before, Refused hdr.byteOrder foot.offsetMsgs (.fromMemory data) b

theorem rowsInside_iff (data : Bytes) :
    RowsInside data ↔ ¬ Overran Error.Thrown (parse (.fromMemory data)) := by
  rw [parse, overran_bind, or_iff_right (not_overran_readHeader data)]
  constructor
  · rintro h ⟨⟨hdr, isGstl⟩, hheader, hover⟩
    change Overran _ (parseWith hdr.byteOrder (toNative hdr hdr.byteOrder) isGstl _) at hover
    rw [parseWith_eq_bind, overran_bind, or_iff_right (not_overran_parseTypes _ _ _)] at hover
    obtain ⟨⟨type, src'⟩, htypes, hover⟩ := hover
    obtain ⟨-, pos, rfl⟩ := parseTypes_spec htypes
    obtain ⟨before, a, after, hsplit, hout, hall⟩ := reaches_iff.mp (overran_readTable.mp hover)
    obtain ⟨b, hb, href⟩ := h hdr isGstl type _ hheader htypes before a after hsplit hout
    exact hall b hb href
  · intro h hdr isGstl type src' hheader htypes foot before a after hsplit hout
    by_contra hnone
    refine h ⟨(hdr, isGstl), hheader, ?_⟩
    change Overran _ (parseWith hdr.byteOrder (toNative hdr hdr.byteOrder) isGstl _)
    rw [parseWith_eq_bind, overran_bind]
    refine Or.inr ⟨(type, src'), htypes, ?_⟩
    obtain ⟨-, pos, rfl⟩ := parseTypes_spec htypes
    refine overran_readTable.mpr (reaches_iff.mpr ⟨before, a, after, hsplit, hout, ?_⟩)
    exact fun b hb href => hnone ⟨b, hb, href⟩

/-- The room of the rows is part of the size that is compared at the end. -/
theorem rows_le_getSize (g : Gbnl) :
    g.messages.length * g.msgDescrSize + sizeofHeader ≤ g.getSize := by
  have hend : g.msgsEnd = g.msgDescrSize * g.messages.length := rfl
  have hctrl : g.controlEnd = g.align g.msgsEnd + 4 * g.realItemCount := rfl
  have hle := g.le_align g.msgsEnd
  have hle' := g.le_align g.controlEnd
  rw [getSize_eq, Nat.mul_comm]
  omega

theorem inside_of_parse {src : Source} {g : Gbnl} (h : parse src = .ok g) :
    ∃ hdr isGstl, readHeader src = .ok (hdr, isGstl) ∧
      InsideSource (toNative hdr g.endian) g src := by
  obtain ⟨⟨hdr, isGstl⟩, hheader, h⟩ := bind_eq_ok.mp h
  refine ⟨hdr, isGstl, hheader, ?_⟩
  change parseWith hdr.byteOrder (toNative hdr hdr.byteOrder) isGstl src = .ok g at h
  generalize hdr.byteOrder = e at h
  rw [parseWith_eq_bind] at h
  obtain ⟨⟨type, src'⟩, htypes, h⟩ := bind_eq_ok.mp h
  obtain ⟨hvalid, pos, rfl⟩ := parseTypes_spec htypes
  obtain ⟨ms, hms, h⟩ := bind_eq_ok.mp h
  obtain ⟨_, hdescr, h⟩ := bind_eq_ok.mp h
  obtain ⟨_, hsize, h⟩ := bind_eq_ok.mp h
  cases h
  obtain ⟨hdescrs, -, hbase⟩ := validate_spec hvalid
  have hlength := (readMessages_spec hms).1
  have hclean := (accesses_readMessages (toNative hdr e) type _ _ pos).ok_iff.mp ⟨ms, hms⟩
  change InsideSource (toNative hdr e) _ src
  refine ⟨Nat.le_of_lt hdescrs, fun i hi => ?_, fun pos' hmem hnil => ?_⟩
  · have hroom := rows_le_getSize (tableOf e (toNative hdr e) isGstl ms)
    have hcount : (tableOf e (toNative hdr e) isGstl ms).messages.length =
        (toNative hdr e).countMsgs.toNat := by
      rw [tableOf, length_recalcSize_messages]
      exact hlength
    have htotal : totalSize (tableOf e (toNative hdr e) isGstl ms).type =
        (toNative hdr e).msgDescrSize.toNat := require_eq_ok.mp hdescr
    have hend : (tableOf e (toNative hdr e) isGstl ms).getSize = src.size :=
      require_eq_ok.mp hsize
    rw [hcount, require_eq_ok.mp hdescr, hend] at hroom
    rw [htotal, Nat.add_assoc, ← Nat.succ_mul]
    have := Nat.mul_le_mul_right (toNative hdr e).msgDescrSize.toNat (Nat.succ_le_of_lt hi)
    omega
  · obtain ⟨hin, hok⟩ := hclean _ hmem
    have hroom : pos' + 4 ≤ src.size := Nat.le_of_not_lt fun hlt => hin (Or.inl hlt)
    by_contra hout
    refine hok ⟨rfl, hroom, hnil, fun href => hout ?_⟩
    have hlt := href.2
    change _ + (stringOffset e src pos').toNat < src.size
    omega

/-- A file is read safely exactly when walking its rows, which are placed in 32
bits and as wide as the descriptors make them, does not leave the source before
a string offset is refused. -/
theorem readSafely_iff (data : Bytes) : ReadSafely data ↔ RowsInside data := by
  rw [rowsInside_iff]
  constructor
  · rintro (⟨e, herr, hthrown⟩ | ⟨g, _, _, hok, -⟩)
    · rw [herr, overran_error]
      exact fun h => h hthrown
    · rw [hok]
      exact not_overran_ok g
  · intro h
    cases hparse : parse (.fromMemory data) with
    | ok g =>
        obtain ⟨hdr, isGstl, hheader, hin⟩ := inside_of_parse hparse
        exact Or.inr ⟨g, hdr, isGstl, hparse, hheader, hin⟩
    | error e =>
        refine Or.inl ⟨e, hparse, ?_⟩
        by_contra hnot
        rw [hparse, overran_error] at h
        exact h hnot

/-- A header for two rows that are `2 ^ 31 + 4` bytes apart; in 32 bits they end
at 8. -/
def farRowsHeader : Header :=
  { magic := magicGbn, endian := 0x4c, field04 := 1, field06 := 0, field08 := 16, field0c := 4
    flags := 0, descrOffset := 0, countMsgs := 2, msgDescrSize := 0x80000004, countTypes := 1
    offsetTypes := 4, field28 := 0, offsetMsgs := 0, field30 := 0, field34 := 0, field38 := 0
    field3c := 0 }

def farRows : Bytes :=
  zeros 4 ++ toBytes (TypeDescriptor.mk TypeDescriptor.int32 0) ++ toBytes farRowsHeader

/-- The second row is sought behind the end of the file. -/
theorem farRows_not_readSafely : ¬ ∀ data : Bytes, ReadSafely data := by
  intro h
  have hparse : parse (.fromMemory farRows) =
      .error (.sourceOverflow "Seek past end of source") := rfl
  obtain ⟨e, herr, hthrown⟩ | ⟨g, _, _, hok, -⟩ := h farRows
  · cases hparse.symm.trans herr
    exact not_thrown_overflow _ hthrown
  · cases hparse.symm.trans hok

end Gbnl

end Neptools

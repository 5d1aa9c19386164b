import Neptools.Gbnl.Dump

/-!
Reading a message table. The descriptors tell the types and offsets of the
fields; what is between them is padding, except that a long gap behind an
`INT8` makes it a fixed string.
-/

namespace Neptools

open Lib

namespace Gbnl

namespace Header

/-- Sums and products of 32-bit fields wrap; `sizeof` makes a sum a 64-bit one. -/
def validate (h : Header) (chunkSize : Nat) : Except Error Unit := do
  validateField "Gbnl::Header" "endian == 'L' || endian == 'B'" (h.endian = 0x4c ∨ h.endian = 0x42)
  validateField "Gbnl::Header" "field_04 == 1 && field_06 == 0 && field_08 == 16 && field_0c == 4"
    (h.field04 = 1 ∧ h.field06 = 0 ∧ h.field08 = 16 ∧ h.field0c = 4)
  validateField "Gbnl::Header" "descr_offset + msg_descr_size * count_msgs < chunk_size"
    ((h.descrOffset + h.msgDescrSize * h.countMsgs).toNat < chunkSize)
  validateField "Gbnl::Header" "offset_types + sizeof(TypeDescriptor) * count_types < chunk_size"
    (h.offsetTypes.toNat + 4 * h.countTypes.toNat < chunkSize)
  validateField "Gbnl::Header" "offset_msgs < chunk_size" (h.offsetMsgs.toNat < chunkSize)
  validateField "Gbnl::Header" "field_34 == 0 && field_38 == 0 && field_3c == 0"
    (h.field34 = 0 ∧ h.field38 = 0 ∧ h.field3c = 0)
  if h.magic = magicGbn then
    validateField "Gbnl::Header" "descr_offset == 0" (h.descrOffset = 0)
  else if h.magic = magicGst then
    validateField "Gbnl::Header" "descr_offset == sizeof(Header)"
      (h.descrOffset = UInt32.ofNat sizeofHeader)
  else validateField "Gbnl::Header" "!\"Invalid magic\"" False

end Header

def getTypeSize (type : UInt16) : Except Error Nat :=
  if type = TypeDescriptor.int8 then pure 1
  else if type = TypeDescriptor.int16 then pure 2
  else if type = TypeDescriptor.int32 then pure 4
  else if type = TypeDescriptor.int64 then pure 8
  else if type = TypeDescriptor.float then pure 4
  else if type = TypeDescriptor.string then pure 4
  else throw (Error.decodeError "Gbnl: invalid type")

/-- `bld` with the field that a pending `INT8` and a gap of `diff` bytes make;
the flag says whether an `INT8` is pending. -/
def pad (diff : UInt16) (bld : List FieldType) (int8InProgress : Bool) :
    List FieldType × Bool :=
  if int8InProgress = true ∧ 3 < diff then
    (bld ++ [.fixString (diff.toNat + 1)], false)
  else
    let bld := if int8InProgress then bld ++ [.int8] else bld
    (if diff ≠ 0 then bld ++ [.padding diff.toNat] else bld, false)

/-- The conversion of a difference of sizes to the 16-bit parameter of `Pad`. -/
def toUint16 (x : Int) : UInt16 := UInt16.ofNat (x % 2 ^ 16).toNat

structure TypeState where
  calcOffs : Nat
  bld : List FieldType
  int8InProgress : Bool

/-- One round of the loop over the descriptors. -/
def addType (st : TypeState) (desc : TypeDescriptor) : Except Error TypeState := do
  validateField "Gbnlunordered types" "calc_offs <= type.offset"
    (st.calcOffs ≤ desc.offset.toNat)
  let (bld, int8InProgress) :=
    pad (toUint16 (desc.offset.toNat - st.calcOffs)) st.bld st.int8InProgress
  let calcOffs := desc.offset.toNat + (← getTypeSize desc.type)
  let st := { calcOffs, bld, int8InProgress : TypeState }
  if desc.type = TypeDescriptor.int8 then do
    require (st.int8InProgress = false) (Error.assertionFailed "!int8_in_progress")
    pure { st with int8InProgress := true }
  else if desc.type = TypeDescriptor.int16 then pure { st with bld := bld ++ [.int16] }
  else if desc.type = TypeDescriptor.int32 then pure { st with bld := bld ++ [.int32] }
  else if desc.type = TypeDescriptor.int64 then pure { st with bld := bld ++ [.int64] }
  else if desc.type = TypeDescriptor.float then pure { st with bld := bld ++ [.float] }
  else if desc.type = TypeDescriptor.string then
    pure { st with bld := bld ++ [.offsetString] }
  else throw (Error.decodeError "GBNL: invalid type")

def readTypes (endian : Endian) : Nat → TypeState → Source → Except Error (TypeState × Source)
  | 0, st, src => pure (st, src)
  | n + 1, st, src => do
      let (desc, src) ← src.readGen TypeDescriptor
      let st ← addType st (toNative desc endian)
      readTypes endian n st src

/-- A field of a message, of the type asked for. -/
def readField (endian : Endian) (offsetMsgs : UInt32) (src : Source) (t : FieldType) :
    Except Error ({ v : Value // v.type = t } × Source) :=
  match t with
  | .int8 => do
      let (x, src) ← src.readUint8 endian
      pure (⟨.int8 x.toInt8, rfl⟩, src)
  | .int16 => do
      let (x, src) ← src.readUint16 endian
      pure (⟨.int16 x.toInt16, rfl⟩, src)
  | .int32 => do
      let (x, src) ← src.readUint32 endian
      pure (⟨.int32 x.toInt32, rfl⟩, src)
  | .int64 => do
      let (x, src) ← src.readUint64 endian
      pure (⟨.int64 x.toInt64, rfl⟩, src)
  | .float => do
      let (x, src) ← src.readUint32 endian
      pure (⟨.float x, rfl⟩, src)
  | .offsetString => do
      let (offs, src) ← src.readUint32 endian
      if offs = 0xffffffff then pure (⟨.offsetString [] nilOffset, rfl⟩, src)
      else
        validateField "Gbnl" "offs < src.GetSize() - foot.offset_msgs"
          (offs.toNat < src.size - offsetMsgs.toNat)
        let str ← src.preadCString (offsetMsgs + offs).toNat
        pure (⟨.offsetString str 0, rfl⟩, src)
  | .fixString size => do
      let (buf, src) ← src.read size
      pure (⟨.fixString buf.1, congrArg FieldType.fixString buf.2⟩, src)
  | .padding size => do
      let (buf, src) ← src.read size
      pure (⟨.padding buf.1, congrArg FieldType.padding buf.2⟩, src)

def readStruct (endian : Endian) (offsetMsgs : UInt32) :
    (type : List FieldType) → Source →
      Except Error ({ m : Struct // m.type = type } × Source)
  | [], src => pure (⟨[], rfl⟩, src)
  | t :: ts, src => do
      let (v, src) ← readField endian offsetMsgs src t
      let (m, src) ← readStruct endian offsetMsgs ts src
      pure (⟨v.1 :: m.1, congrArg₂ List.cons v.2 m.2⟩, src)

/-- The loop over the messages; `msgs` is 32 bits wide. -/
def readMessages (endian : Endian) (foot : Header) (type : List FieldType) :
    Nat → UInt32 → Source → Except Error { ms : List Struct // ∀ m ∈ ms, m.type = type }
  | 0, _, _ => pure ⟨[], fun _ h => nomatch h⟩
  | n + 1, msgs, src => do
      let src ← src.seek msgs.toNat
      let (m, src) ← readStruct endian foot.offsetMsgs type src
      let ms ← readMessages endian foot type n (msgs + foot.msgDescrSize) src
      pure ⟨m.1 :: ms.1, List.forall_mem_cons.mpr ⟨m.2, ms.2⟩⟩

/-- The header, found at the end of the file unless the file starts with the
magic of the other form. -/
def readHeader (src : Source) : Except Error (Header × Bool) := do
  src.checkSize sizeofHeader
  let foot ← src.preadGen Header 0
  if foot.magic = magicGst then pure (foot, true)
  else do
    let foot ← src.preadGen Header (src.size - sizeofHeader)
    pure (foot, false)

/-- The table with the members read, after its `RecalcSize`. -/
def tableOf (endian : Endian) (foot : Header) (isGstl : Bool) {type : List FieldType}
    (messages : { ms : List Struct // ∀ m ∈ ms, m.type = type }) : Gbnl :=
  recalcSize
    { endian, isGstl, flags := foot.flags, field28 := foot.field28, field30 := foot.field30
      type, messages := messages.1, typed := messages.2
      msgDescrSize := foot.msgDescrSize.toNat, msgsSize := 0, realItemCount := 0 }

/-- The end of `Parse_`, once the types are known. -/
def readTable (endian : Endian) (foot : Header) (isGstl : Bool) (type : List FieldType)
    (src : Source) : Except Error Gbnl := do
  let messages ← readMessages endian foot type foot.countMsgs.toNat foot.descrOffset src
  let g := tableOf endian foot isGstl messages
  validateField "Gbnl invalid size after repack" "msg_descr_size == foot.msg_descr_size"
    (g.msgDescrSize = foot.msgDescrSize.toNat)
  validateField "Gbnl invalid size after repack" "GetSize() == src.GetSize()"
    (g.getSize = src.size)
  pure g

/-- What `Parse_` does with the header in native byte order. -/
def parseWith (endian : Endian) (foot : Header) (isGstl : Bool) (src : Source) :
    Except Error Gbnl := do
  foot.validate src.size
  let src ← src.seek foot.offsetTypes.toNat
  let (st, src) ← readTypes endian foot.countTypes.toNat
    { calcOffs := 0, bld := [], int8InProgress := false } src
  let (type, _) := pad (toUint16 (foot.msgDescrSize.toNat - st.calcOffs)) st.bld
    st.int8InProgress
  readTable endian foot isGstl type src

def parse (src : Source) : Except Error Gbnl := do
  let (foot, isGstl) ← readHeader src
  let endian := if foot.endian = 0x4c then Endian.little else Endian.big
  parseWith endian (toNative foot endian) isGstl src

/-- A table whose parts can be read is accepted exactly when its header is valid
and the table made of them has the size of the source. -/
theorem parseWith_eq {endian : Endian} {foot : Header} {isGstl : Bool} {src : Source}
    {st : TypeState} {pos : Nat} {type : List FieldType}
    {ms : { ms : List Struct // ∀ m ∈ ms, m.type = type }}
    (hseek : foot.offsetTypes.toNat ≤ src.size)
    (htypes : readTypes endian foot.countTypes.toNat
      { calcOffs := 0, bld := [], int8InProgress := false }
      (src.at_ foot.offsetTypes.toNat) = .ok (st, src.at_ pos))
    (hpad : pad (toUint16 (foot.msgDescrSize.toNat - st.calcOffs)) st.bld
      st.int8InProgress = (type, false))
    (hms : readMessages endian foot type foot.countMsgs.toNat foot.descrOffset
      (src.at_ pos) = .ok ms)
    (hdescr : (tableOf endian foot isGstl ms).msgDescrSize = foot.msgDescrSize.toNat) :
    parseWith endian foot isGstl src =
      (foot.validate src.size >>= fun _ =>
        validateField "Gbnl invalid size after repack" "GetSize() == src.GetSize()"
          ((tableOf endian foot isGstl ms).getSize = src.size) >>= fun _ =>
        .ok (tableOf endian foot isGstl ms)) := by
  rw [parseWith]
  refine congrArg (foot.validate src.size >>= ·) (funext fun _ => ?_)
  have hsize : (src.at_ pos).size = src.size := rfl
  rw [Source.seek_of_le hseek, ok_bind, htypes, ok_bind]
  simp only [hpad]
  simp only [readTable, hms, ok_bind, validateField_of hdescr, hsize, pure_eq_ok]

end Gbnl

end Neptools

import Neptools.Format.Label

/-!
The items of an STCM file, what each of them holds and what it writes. All
records are little-endian.
-/

namespace Neptools

open Lib

namespace Stcm

/-! The header of the file. -/

structure HeaderItem.Header where
  magic : ByteArr 5
  endian : UInt8
  msg : ByteArr 0x1a
  exportOffset : UInt32
  exportCount : UInt32
  field28 : UInt32
  collectionLinkOffset : UInt32
  field30 : UInt32
  expansionOffset : UInt32
  expansionCount : UInt32
  deriving DecidableEq

def HeaderItem.Header.equivFields : HeaderItem.Header ≃ ByteArr 5 × UInt8 × ByteArr 0x1a ×
    UInt32 × UInt32 × UInt32 × UInt32 × UInt32 × UInt32 × UInt32 where
  toFun h := (h.magic, h.endian, h.msg, h.exportOffset, h.exportCount, h.field28,
    h.collectionLinkOffset, h.field30, h.expansionOffset, h.expansionCount)
  invFun := fun (magic, endian, msg, exportOffset, exportCount, field28, collectionLinkOffset,
      field30, expansionOffset, expansionCount) =>
    { magic, endian, msg, exportOffset, exportCount, field28, collectionLinkOffset, field30,
      expansionOffset, expansionCount }
  left_inv _ := rfl
  right_inv _ := rfl

instance : Pod HeaderItem.Header := Pod.ofEquiv HeaderItem.Header.equivFields

structure HeaderItem where
  msg : ByteArr 0x1a
  exportSec : LabelPtr
  collectionLink : LabelPtr
  expansion : Option LabelPtr
  field28 : UInt32
  deriving DecidableEq

namespace HeaderItem

/-- "STCM2" -/
def magic : ByteArr 5 := ⟨[0x53, 0x54, 0x43, 0x4d, 0x32], rfl⟩

/-- The place and the number of the expansions, zero if there are none. -/
def dumpExpansion (v : LabelView) : Option LabelPtr → Except Error (Nat × Nat)
  | none => pure (0, 0)
  | some l => do
      let offset ← v.toFilePos l
      let count ← v.expansionCount l
      pure (offset, count)

def dump (v : LabelView) (h : HeaderItem) : Except Error (List Sink.Call) := do
  let exportOffset ← v.toFilePos h.exportSec
  let exportCount ← v.exportCount h.exportSec
  let collectionLinkOffset ← v.toFilePos h.collectionLink
  let (expansionOffset, expansionCount) ← dumpExpansion v h.expansion
  let hdr : Header :=
    { magic, endian := 0x4c, msg := h.msg, exportOffset := UInt32.ofNat exportOffset
      exportCount := UInt32.ofNat exportCount, field28 := h.field28
      collectionLinkOffset := UInt32.ofNat collectionLinkOffset, field30 := 0
      expansionOffset := UInt32.ofNat expansionOffset
      expansionCount := UInt32.ofNat expansionCount }
  pure [.write (toBytes hdr)]

end HeaderItem

/-! The exports. -/

inductive ExportsItem.Type
  | code
  | data
  deriving Repr, DecidableEq

def ExportsItem.Type.toUint32 : ExportsItem.Type → UInt32
  | .code => 0
  | .data => 1

structure ExportsItem.Entry where
  type : UInt32
  name : ByteArr 0x20
  offset : UInt32
  deriving DecidableEq

def ExportsItem.Entry.equivFields : ExportsItem.Entry ≃ UInt32 × ByteArr 0x20 × UInt32 where
  toFun e := (e.type, e.name, e.offset)
  invFun := fun (type, name, offset) => { type, name, offset }
  left_inv _ := rfl
  right_inv _ := rfl

instance : Pod ExportsItem.Entry := Pod.ofEquiv ExportsItem.Entry.equivFields

structure ExportsItem.EntryType where
  type : ExportsItem.Type
  name : ByteArr 0x20
  lbl : LabelPtr
  deriving DecidableEq

namespace ExportsItem

def dump (v : LabelView) : List EntryType → Except Error (List Sink.Call)
  | [] => pure []
  | e :: es => do
      let offset ← v.toFilePos e.lbl
      let rest ← dump v es
      let ee : Entry :=
        { type := e.type.toUint32, name := e.name, offset := UInt32.ofNat offset }
      pure (.write (toBytes ee) :: rest)

end ExportsItem

/-! The links to other collections. -/

structure CollectionLinkHeaderItem.Header where
  field00 : UInt32
  offset : UInt32
  count : UInt32
  field0c : UInt32
  field10 : UInt32
  field14 : UInt32
  field18 : UInt32
  field1c : UInt32
  field20 : UInt32
  field24 : UInt32
  field28 : UInt32
  field2c : UInt32
  field30 : UInt32
  field34 : UInt32
  field38 : UInt32
  field3c : UInt32
  deriving DecidableEq

def CollectionLinkHeaderItem.Header.equivFields : CollectionLinkHeaderItem.Header ≃
    UInt32 × UInt32 × UInt32 × UInt32 × UInt32 × UInt32 × UInt32 × UInt32 ×
    UInt32 × UInt32 × UInt32 × UInt32 × UInt32 × UInt32 × UInt32 × UInt32 where
  toFun h := (h.field00, h.offset, h.count, h.field0c, h.field10, h.field14, h.field18,
    h.field1c, h.field20, h.field24, h.field28, h.field2c, h.field30, h.field34, h.field38,
    h.field3c)
  invFun := fun (field00, offset, count, field0c, field10, field14, field18, field1c, field20,
      field24, field28, field2c, field30, field34, field38, field3c) =>
    { field00, offset, count, field0c, field10, field14, field18, field1c, field20, field24,
      field28, field2c, field30, field34, field38, field3c }
  left_inv _ := rfl
  right_inv _ := rfl

instance : Pod CollectionLinkHeaderItem.Header :=
  Pod.ofEquiv CollectionLinkHeaderItem.Header.equivFields

/-- A header with the given fields, zero in all others. -/
def CollectionLinkHeaderItem.Header.ofData (offset count : UInt32) :
    CollectionLinkHeaderItem.Header :=
  { field00 := 0, offset, count, field0c := 0, field10 := 0, field14 := 0, field18 := 0
    field1c := 0, field20 := 0, field24 := 0, field28 := 0, field2c := 0, field30 := 0
    field34 := 0, field38 := 0, field3c := 0 }

def CollectionLinkHeaderItem.dump (v : LabelView) (data : LabelPtr) :
    Except Error (List Sink.Call) := do
  let offset ← v.toFilePos data
  let count ← v.linkCount data
  pure [.write (toBytes
    (CollectionLinkHeaderItem.Header.ofData (UInt32.ofNat offset) (UInt32.ofNat count)))]

structure CollectionLinkItem.Entry where
  name0 : UInt32
  name1 : UInt32
  /-- Filled by the engine. -/
  ptr : UInt32
  field0c : UInt32
  field10 : UInt32
  field14 : UInt32
  field18 : UInt32
  field1c : UInt32
  deriving DecidableEq

def CollectionLinkItem.Entry.equivFields : CollectionLinkItem.Entry ≃
    UInt32 × UInt32 × UInt32 × UInt32 × UInt32 × UInt32 × UInt32 × UInt32 where
  toFun e := (e.name0, e.name1, e.ptr, e.field0c, e.field10, e.field14, e.field18, e.field1c)
  invFun := fun (name0, name1, ptr, field0c, field10, field14, field18, field1c) =>
    { name0, name1, ptr, field0c, field10, field14, field18, field1c }
  left_inv _ := rfl
  right_inv _ := rfl

instance : Pod CollectionLinkItem.Entry := Pod.ofEquiv CollectionLinkItem.Entry.equivFields

structure CollectionLinkItem.LinkEntry where
  name0 : Option LabelPtr
  name1 : Option LabelPtr
  deriving DecidableEq

namespace CollectionLinkItem

def dump (v : LabelView) : List LinkEntry → Except Error (List Sink.Call)
  | [] => pure []
  | e :: es => do
      let name0 ← v.toFilePosOrZero e.name0
      let name1 ← v.toFilePosOrZero e.name1
      let rest ← dump v es
      let ee : Entry :=
        { name0 := UInt32.ofNat name0, name1 := UInt32.ofNat name1, ptr := 0, field0c := 0
          field10 := 0, field14 := 0, field18 := 0, field1c := 0 }
      pure (.write (toBytes ee) :: rest)

end CollectionLinkItem

/-! The expansions. -/

structure ExpansionItem.Header where
  index : UInt32
  name : UInt32
  /-- Used by the game engine. -/
  ptr : UInt64
  pad : ByteArr 0x40
  deriving DecidableEq

def ExpansionItem.Header.equivFields : ExpansionItem.Header ≃
    UInt32 × UInt32 × UInt64 × ByteArr 0x40 where
  toFun h := (h.index, h.name, h.ptr, h.pad)
  invFun := fun (index, name, ptr, pad) => { index, name, ptr, pad }
  left_inv _ := rfl
  right_inv _ := rfl

instance : Pod ExpansionItem.Header := Pod.ofEquiv ExpansionItem.Header.equivFields

structure ExpansionItem where
  index : UInt32
  name : LabelPtr
  deriving DecidableEq

def ExpansionItem.dump (v : LabelView) (e : ExpansionItem) : Except Error (List Sink.Call) := do
  let name ← v.toFilePos e.name
  let hdr : Header :=
    { index := e.index, name := UInt32.ofNat name, ptr := 0, pad := ⟨zeros 0x40, length_zeros _⟩ }
  pure [.write (toBytes hdr)]

/-! Instructions. -/

structure InstructionItem.Header where
  isCall : UInt32
  opcode : UInt32
  paramCount : UInt32
  size : UInt32
  deriving DecidableEq

def InstructionItem.Header.equivFields : InstructionItem.Header ≃
    UInt32 × UInt32 × UInt32 × UInt32 where
  toFun h := (h.isCall, h.opcode, h.paramCount, h.size)
  invFun := fun (isCall, opcode, paramCount, size) => { isCall, opcode, paramCount, size }
  left_inv _ := rfl
  right_inv _ := rfl

instance : Pod InstructionItem.Header := Pod.ofEquiv InstructionItem.Header.equivFields

structure InstructionItem.Parameter where
  param0 : UInt32
  param4 : UInt32
  param8 : UInt32
  deriving DecidableEq

namespace InstructionItem

namespace Parameter

def equivFields : Parameter ≃ UInt32 × UInt32 × UInt32 where
  toFun p := (p.param0, p.param4, p.param8)
  invFun := fun (param0, param4, param8) => { param0, param4, param8 }
  left_inv _ := rfl
  right_inv _ := rfl

instance : Pod Parameter := Pod.ofEquiv equivFields

def tag (tag val : UInt32) : UInt32 := (tag <<< 30) ||| val

namespace Type0

def memOffset : UInt32 := 0
def indirect : UInt32 := 2

end Type0

namespace Type0Special

def readStackMin : UInt32 := 0xffffff00
def read4acMin : UInt32 := 0xffffff20
def instrPtr0 : UInt32 := 0xffffff40
def instrPtr1 : UInt32 := 0xffffff41
def collLink : UInt32 := 0xffffff42
def expansion : UInt32 := 0xffffff43

end Type0Special

namespace Type48

def memOffset : UInt32 := 0
def immediate : UInt32 := 1
def indirect : UInt32 := 2

end Type48

namespace Type48Special

def readStackMin : UInt32 := 0xffffff00
def read4acMin : UInt32 := 0xffffff20

end Type48Special

end Parameter

open Parameter

inductive Param48
  | memOffset (target : LabelPtr)
  | immediate (val : UInt32)
  | indirect (val : UInt32)
  | readStack (val : UInt32)
  | read4ac (val : UInt32)
  deriving DecidableEq

def Param48.dump (v : LabelView) : Param48 → Except Error UInt32
  | .memOffset target => do
      let pos ← v.toFilePos target
      pure (tag Type48.memOffset (UInt32.ofNat pos))
  | .immediate val => pure (tag Type48.immediate val)
  | .indirect val => pure (tag Type48.indirect val)
  | .readStack val => pure (Type48Special.readStackMin + val)
  | .read4ac val => pure (Type48Special.read4acMin + val)

inductive Param
  | memOffset (target : LabelPtr) (param4 param8 : Param48)
  | indirect (param0 : UInt32) (param8 : Param48)
  | readStack (val : UInt32)
  | read4ac (val : UInt32)
  | instrPtr0 (target : LabelPtr)
  | instrPtr1 (target : LabelPtr)
  | collLink (target : LabelPtr)
  | expansion (target : LabelPtr)
  deriving DecidableEq

def Param.parameter (v : LabelView) : Param → Except Error Parameter
  | .memOffset target param4 param8 => do
      let pos ← v.toFilePos target
      let param4 ← param4.dump v
      let param8 ← param8.dump v
      pure { param0 := tag Type0.memOffset (UInt32.ofNat pos), param4, param8 }
  | .indirect param0 param8 => do
      let param8 ← param8.dump v
      pure { param0 := tag Type0.indirect param0, param4 := 0x40000000, param8 }
  | .readStack val =>
      pure { param0 := Type0Special.readStackMin + val, param4 := 0x40000000
             param8 := 0x40000000 }
  | .read4ac val =>
      pure { param0 := Type0Special.read4acMin + val, param4 := 0x40000000, param8 := 0x40000000 }
  | .instrPtr0 target => do
      let pos ← v.toFilePos target
      pure { param0 := Type0Special.instrPtr0, param4 := UInt32.ofNat pos, param8 := 0x40000000 }
  | .instrPtr1 target => do
      let pos ← v.toFilePos target
      pure { param0 := Type0Special.instrPtr1, param4 := UInt32.ofNat pos, param8 := 0x40000000 }
  | .collLink target => do
      let pos ← v.toFilePos target
      pure { param0 := Type0Special.collLink, param4 := UInt32.ofNat pos, param8 := 0 }
  | .expansion target => do
      let pos ← v.toFilePos target
      pure { param0 := Type0Special.expansion, param4 := UInt32.ofNat pos, param8 := 0 }

def Param.dump (v : LabelView) (p : Param) : Except Error Sink.Call := do
  let pp ← p.parameter v
  pure (.write (toBytes pp))

def dumpParams (v : LabelView) : List Param → Except Error (List Sink.Call)
  | [] => pure []
  | p :: ps => do
      let call ← p.dump v
      let rest ← dumpParams v ps
      pure (call :: rest)

end InstructionItem

/-- The opcode of an instruction, or the target of a call. -/
inductive OpcodeTarget
  | opcode (opcode : UInt32)
  | target (target : LabelPtr)
  deriving DecidableEq

/-- The fields `is_call` and `opcode`. -/
def OpcodeTarget.dump (v : LabelView) : OpcodeTarget → Except Error (UInt32 × UInt32)
  | .target lbl => do
      let pos ← v.toFilePos lbl
      pure (1, UInt32.ofNat pos)
  | .opcode code => pure (0, code)

structure InstructionItem where
  params : List InstructionItem.Param
  opcodeTarget : OpcodeTarget
  deriving DecidableEq

/-- What `Dump_` writes before the children. -/
def InstructionItem.dump (v : LabelView) (i : InstructionItem) (size : Nat) :
    Except Error (List Sink.Call) := do
  let (isCall, opcode) ← i.opcodeTarget.dump v
  let hdr : Header :=
    { isCall, opcode, paramCount := UInt32.ofNat i.params.length, size := UInt32.ofNat size }
  let params ← dumpParams v i.params
  pure (.write (toBytes hdr) :: params)

/-! Data. -/

structure DataItem.Header where
  type : UInt32
  offsetUnit : UInt32
  field8 : UInt32
  length : UInt32
  deriving DecidableEq

def DataItem.Header.equivFields : DataItem.Header ≃ UInt32 × UInt32 × UInt32 × UInt32 where
  toFun h := (h.type, h.offsetUnit, h.field8, h.length)
  invFun := fun (type, offsetUnit, field8, length) => { type, offsetUnit, field8, length }
  left_inv _ := rfl
  right_inv _ := rfl

instance : Pod DataItem.Header := Pod.ofEquiv DataItem.Header.equivFields

structure DataItem where
  type : UInt32
  offsetUnit : UInt32
  field8 : UInt32
  deriving DecidableEq

/-- What `Dump_` writes before the children. -/
def DataItem.dump (d : DataItem) (size : Nat) : List Sink.Call :=
  let hdr : Header :=
    { type := d.type, offsetUnit := d.offsetUnit, field8 := d.field8
      length := UInt32.ofNat (size - Pod.size Header) }
  [.write (toBytes hdr)]

/-- The text of a string with its padding. -/
def StringDataItem.paddedLength (string : Bytes) : Nat := (string.length + 1 + 3) / 4 * 4

def StringDataItem.dump (string : Bytes) : List Sink.Call :=
  let len := paddedLength string
  let hdr : DataItem.Header :=
    { type := 0, offsetUnit := UInt32.ofNat (len / 4), field8 := 1, length := UInt32.ofNat len }
  [.write (toBytes hdr), .write string, .pad (len - string.length)]

end Stcm

end Neptools

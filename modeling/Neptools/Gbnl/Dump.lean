import Neptools.Gbnl.Basic
import Neptools.Sink.Basic

/-!
Writing a message table: the rows, the type descriptors and the strings, with
the header in front of them (`GSTL`) or behind (`GBNL`). What is written is
given as the calls made on the sink.
-/

namespace Neptools

open Lib

namespace Gbnl

structure Header where
  magic : ByteArr 3
  endian : UInt8
  field04 : UInt16
  field06 : UInt16
  field08 : UInt32
  field0c : UInt32
  flags : UInt32
  descrOffset : UInt32
  countMsgs : UInt32
  msgDescrSize : UInt32
  countTypes : UInt32
  offsetTypes : UInt32
  field28 : UInt32
  offsetMsgs : UInt32
  field30 : UInt32
  field34 : UInt32
  field38 : UInt32
  field3c : UInt32
  deriving DecidableEq

namespace Header

def equivFields : Header ≃ ByteArr 3 × UInt8 × UInt16 × UInt16 × UInt32 × UInt32 × UInt32 ×
    UInt32 × UInt32 × UInt32 × UInt32 × UInt32 × UInt32 × UInt32 × UInt32 × UInt32 ×
    UInt32 × UInt32 where
  toFun h := (h.magic, h.endian, h.field04, h.field06, h.field08, h.field0c, h.flags,
    h.descrOffset, h.countMsgs, h.msgDescrSize, h.countTypes, h.offsetTypes, h.field28,
    h.offsetMsgs, h.field30, h.field34, h.field38, h.field3c)
  invFun := fun (magic, endian, field04, field06, field08, field0c, flags, descrOffset,
      countMsgs, msgDescrSize, countTypes, offsetTypes, field28, offsetMsgs, field30,
      field34, field38, field3c) =>
    { magic, endian, field04, field06, field08, field0c, flags, descrOffset, countMsgs,
      msgDescrSize, countTypes, offsetTypes, field28, offsetMsgs, field30, field34,
      field38, field3c }
  left_inv _ := rfl
  right_inv _ := rfl

instance : Pod Header := Pod.ofEquiv equivFields

def reverse (hdr : Header) : Header :=
  { hdr with
    field04 := endianReverse hdr.field04
    field06 := endianReverse hdr.field06
    field08 := endianReverse hdr.field08
    field0c := endianReverse hdr.field0c
    flags := endianReverse hdr.flags
    descrOffset := endianReverse hdr.descrOffset
    countMsgs := endianReverse hdr.countMsgs
    msgDescrSize := endianReverse hdr.msgDescrSize
    countTypes := endianReverse hdr.countTypes
    offsetTypes := endianReverse hdr.offsetTypes
    field28 := endianReverse hdr.field28
    offsetMsgs := endianReverse hdr.offsetMsgs
    field30 := endianReverse hdr.field30
    field34 := endianReverse hdr.field34
    field38 := endianReverse hdr.field38
    field3c := endianReverse hdr.field3c }

instance : EndianReverse Header where
  endianReverse := reverse
  endianReverse_endianReverse hdr := by
    simp only [reverse, endianReverse_endianReverse]

end Header

structure TypeDescriptor where
  type : UInt16
  offset : UInt16
  deriving DecidableEq

namespace TypeDescriptor

def int32 : UInt16 := 0
def int8 : UInt16 := 1
def int16 : UInt16 := 2
def float : UInt16 := 3
def string : UInt16 := 5
def int64 : UInt16 := 6

def equivFields : TypeDescriptor ≃ UInt16 × UInt16 where
  toFun d := (d.type, d.offset)
  invFun := fun (type, offset) => { type, offset }
  left_inv _ := rfl
  right_inv _ := rfl

instance : Pod TypeDescriptor := Pod.ofEquiv equivFields

instance : EndianReverse TypeDescriptor where
  endianReverse desc :=
    { type := endianReverse desc.type, offset := endianReverse desc.offset }
  endianReverse_endianReverse desc := by simp only [endianReverse_endianReverse]

end TypeDescriptor

/-- `strncpy`: the text up to its NUL, at most `n` bytes of it, then zeros. -/
def strncpy (src : Bytes) (n : Nat) : Bytes :=
  let text := (src.take n).takeWhile (· ≠ 0)
  text ++ zeros (n - text.length)

theorem length_strncpy (src : Bytes) (n : Nat) : (strncpy src n).length = n := by
  have htake : ((src.take n).takeWhile (· ≠ 0)).length ≤ n :=
    Nat.le_trans (List.takeWhile_sublist _).length_le (List.length_take_le n src)
  rw [strncpy, List.length_append, length_zeros]
  omega

/-- How far `WriteDescr` writes from the place of a field on. `strncpy` fills a
fixed string to `len - 1` bytes, in a `size_t`, and a NUL comes behind them. -/
def extent : Value → Nat
  | .fixString str => (str.length + (2 ^ 64 - 1)) % 2 ^ 64 + 1
  | v => v.type.rowSize

/-- The fields of a message that starts at `offs` are written inside a buffer of
the given size. -/
def InBuffer (size : Nat) : Nat → Struct → Prop
  | _, [] => True
  | offs, v :: m => offs + extent v ≤ size ∧ InBuffer size (offs + v.type.rowSize) m

instance decidableInBuffer (size : Nat) : ∀ offs m, Decidable (InBuffer size offs m)
  | _, [] => inferInstanceAs (Decidable True)
  | offs, v :: m =>
      have := decidableInBuffer size (offs + v.type.rowSize) m
      inferInstanceAs (Decidable (_ ∧ _))

/-- What `WriteDescr` puts into a row for a field that it writes inside the row. -/
def writeDescr (e : Endian) : Value → Bytes
  | .int8 x => toBytes (fromNative x.toUInt8 e)
  | .int16 x => toBytes (fromNative x.toUInt16 e)
  | .int32 x => toBytes (fromNative x.toUInt32 e)
  | .int64 x => toBytes (fromNative x.toUInt64 e)
  | .float bits => toBytes (fromNative bits e)
  | .offsetString _ offset => toBytes (fromNative offset e)
  | .fixString str => strncpy str (str.length - 1) ++ [0]
  | .padding pad => pad

/-- The loop over the messages, which are `InBuffer`. `msgd` is the buffer of
`msg_descr_size` bytes that each of them is written to. -/
def dumpRows (e : Endian) (msgDescrSize : Nat) (msgd : Bytes) : List Struct → List Sink.Call
  | [] => []
  | m :: ms =>
      let msgd := overwrite msgd 0 (m.flatMap (writeDescr e))
      .write (msgd.take msgDescrSize) :: dumpRows e msgDescrSize msgd ms

/-- The type in the descriptor of a field. Fixed strings pass for `INT8`. -/
def descriptorType : FieldType → UInt16
  | .int8 => TypeDescriptor.int8
  | .int16 => TypeDescriptor.int16
  | .int32 => TypeDescriptor.int32
  | .int64 => TypeDescriptor.int64
  | .float => TypeDescriptor.float
  | .offsetString => TypeDescriptor.string
  | .fixString _ => TypeDescriptor.int8
  | .padding _ => TypeDescriptor.int8

/-- The loop over the types; `offs` is 16 bits wide. -/
def dumpTypes (e : Endian) (offs : UInt16) : List FieldType → List Sink.Call
  | [] => []
  | t :: ts =>
      let rest := dumpTypes e (offs + UInt16.ofNat t.rowSize) ts
      if t.isReal then
        .write (toBytes (fromNative ({ type := descriptorType t, offset := offs } :
          TypeDescriptor) e)) :: rest
      else rest

/-- The loop over all strings, which writes those whose place is the current
offset. It ends with the offset behind the last one. -/
def dumpStrings (offset : Nat) : List Value → List Sink.Call × Nat
  | [] => ([], offset)
  | .offsetString str ofs :: vs =>
      if ofs.toNat = offset then
        let (calls, offset) := dumpStrings (offset + (str.length + 1)) vs
        (.write (str ++ [0]) :: calls, offset)
      else dumpStrings offset vs
  | _ :: vs => dumpStrings offset vs

def magicGst : ByteArr 3 := ⟨[0x47, 0x53, 0x54], rfl⟩
def magicGbn : ByteArr 3 := ⟨[0x47, 0x42, 0x4e], rfl⟩

def sizeofHeader : Nat := 0x40

def header (g : Gbnl) : Header :=
  let offset := if g.isGstl then sizeofHeader else 0
  let msgsEndRound := g.align (offset + g.msgDescrSize * g.messages.length)
  let controlEndRound := g.align (msgsEndRound + 4 * g.realItemCount)
  { magic := if g.isGstl then magicGst else magicGbn
    endian := if g.endian = .little then 0x4c else 0x42
    field04 := 1
    field06 := 0
    field08 := 16
    field0c := 4
    flags := g.flags
    descrOffset := UInt32.ofNat offset
    countMsgs := UInt32.ofNat g.messages.length
    msgDescrSize := UInt32.ofNat g.msgDescrSize
    countTypes := UInt32.ofNat g.realItemCount
    offsetTypes := UInt32.ofNat msgsEndRound
    field28 := g.field28
    offsetMsgs := if g.msgsSize ≠ 0 then UInt32.ofNat controlEndRound else 0
    field30 := g.field30
    field34 := 0
    field38 := 0
    field3c := 0 }

def dumpHeader (g : Gbnl) : Sink.Call := .write (toBytes (fromNative g.header g.endian))

def dump (g : Gbnl) : Except Error (List Sink.Call) := do
  -- nothing keeps `WriteDescr` inside `msgd`
  require (∀ m ∈ g.messages, InBuffer g.msgDescrSize 0 m) Error.undefinedBehaviour
  let rows := dumpRows g.endian g.msgDescrSize (zeros g.msgDescrSize) g.messages
  let msgsEnd := g.msgDescrSize * g.messages.length
  let msgsEndRound := g.align msgsEnd
  let types := dumpTypes g.endian 0 g.type
  let controlEnd := msgsEndRound + 4 * g.realItemCount
  let controlEndRound := g.align controlEnd
  let (strings, offset) := dumpStrings 0 g.messages.flatten
  require (offset = g.msgsSize) (Error.assertionFailed "offset == msgs_size")
  let offsetRound := g.align offset
  pure ((if g.isGstl then [dumpHeader g] else []) ++
    rows ++ [.pad (msgsEndRound - msgsEnd)] ++
    types ++ [.pad (controlEndRound - controlEnd)] ++
    strings ++ [.pad (offsetRound - offset)] ++
    (if g.isGstl then [] else [dumpHeader g]))

end Gbnl

end Neptools

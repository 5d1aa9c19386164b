import Neptools.Source

/-!
Message tables. Every message has the same list of fields; strings are kept
with the place they have in the string section, where equal strings stand once.
`RecalcSize` computes these places and the sizes that `Dump_` relies on.
-/

namespace Neptools

open Lib

namespace Gbnl

/-- The types of the fields of a message. The last two come in any size. -/
inductive FieldType
  | int8
  | int16
  | int32
  | int64
  | float
  | offsetString
  | fixString (size : Nat)
  | padding (size : Nat)
  deriving Repr, DecidableEq

namespace FieldType

/-- The bytes a field takes in a row. -/
def rowSize : FieldType → Nat
  | int8 => 1
  | int16 => 2
  | int32 => 4
  | int64 => 8
  | float => 4
  | offsetString => 4
  | fixString size => size
  | padding size => size

/-- Padding has no type descriptor. -/
def isReal : FieldType → Bool
  | padding _ => false
  | _ => true

end FieldType

/-- A field of a message. Floats are their bits. -/
inductive Value
  | int8 (x : Int8)
  | int16 (x : Int16)
  | int32 (x : Int32)
  | int64 (x : Int64)
  | float (bits : UInt32)
  | offsetString (str : Bytes) (offset : UInt32)
  | fixString (str : Bytes)
  | padding (pad : Bytes)
  deriving Repr, DecidableEq

def Value.type : Value → FieldType
  | .int8 _ => .int8
  | .int16 _ => .int16
  | .int32 _ => .int32
  | .int64 _ => .int64
  | .float _ => .float
  | .offsetString _ _ => .offsetString
  | .fixString str => .fixString str.length
  | .padding pad => .padding pad.length

/-- The offset of a nil string, `static_cast<uint32_t>(-1)`. -/
def nilOffset : UInt32 := 0xffffffff

abbrev Struct := List Value

def Struct.type (m : Struct) : List FieldType := m.map Value.type

/-- The state of the second loop of `RecalcSize`. -/
structure StringTable where
  offsetMap : List (Bytes × Nat)
  offset : Nat

namespace StringTable

def empty : StringTable := { offsetMap := [], offset := 0 }

/-- The offset of `str`, which is put at the end when it is not there yet. -/
def place (t : StringTable) (str : Bytes) : Nat × StringTable :=
  match t.offsetMap.lookup str with
  | some x => (x, t)
  | none =>
      (t.offset,
        { offsetMap := (str, t.offset) :: t.offsetMap
          offset := t.offset + (str.length + 1) })

def placeValue (t : StringTable) : Value → Value × StringTable
  | .offsetString str offset =>
      if offset = nilOffset then (.offsetString str offset, t)
      else
        let (x, t) := t.place str
        (.offsetString str (UInt32.ofNat x), t)
  | v => (v, t)

def placeStruct (t : StringTable) : Struct → Struct × StringTable
  | [] => ([], t)
  | v :: m =>
      let (v, t) := t.placeValue v
      let (m, t) := t.placeStruct m
      (v :: m, t)

def placeMessages (t : StringTable) : List Struct → List Struct × StringTable
  | [] => ([], t)
  | m :: ms =>
      let (m, t) := t.placeStruct m
      let (ms, t) := t.placeMessages ms
      (m :: ms, t)

theorem type_placeValue (t : StringTable) (v : Value) : (t.placeValue v).1.type = v.type := by
  cases v with
  | offsetString str offset =>
      simp only [placeValue]
      split <;> rfl
  | _ => rfl

theorem type_placeStruct (t : StringTable) (m : Struct) :
    Struct.type (t.placeStruct m).1 = Struct.type m := by
  induction m generalizing t with
  | nil => rfl
  | cons v m ih =>
      simp only [Struct.type] at ih
      simp only [Struct.type, placeStruct, List.map_cons, type_placeValue, ih]

theorem type_placeMessages (t : StringTable) (ms : List Struct) :
    (t.placeMessages ms).1.map Struct.type = ms.map Struct.type := by
  induction ms generalizing t with
  | nil => rfl
  | cons m ms ih => simp only [placeMessages, List.map_cons, type_placeStruct, ih]

end StringTable

end Gbnl

open Gbnl

/-- A message table. All messages have its type. -/
@[ext]
structure Gbnl where
  endian : Endian
  isGstl : Bool
  flags : UInt32
  field28 : UInt32
  field30 : UInt32
  type : List FieldType
  messages : List Struct
  msgDescrSize : Nat
  msgsSize : Nat
  /-- Excluding padding. -/
  realItemCount : Nat
  typed : ∀ m ∈ messages, Struct.type m = type

namespace Gbnl

theorem typed_placeMessages {type : List FieldType} {ms : List Struct}
    (h : ∀ m ∈ ms, Struct.type m = type) (t : StringTable) :
    ∀ m ∈ (t.placeMessages ms).1, Struct.type m = type := by
  intro m hm
  have hmem := List.mem_map_of_mem (f := Struct.type) hm
  rw [StringTable.type_placeMessages] at hmem
  obtain ⟨m', hm', heq⟩ := List.mem_map.mp hmem
  rw [← heq, h m' hm']

def recalcSize (g : Gbnl) : Gbnl :=
  let placed := StringTable.empty.placeMessages g.messages
  { g with
    msgDescrSize := (g.type.map FieldType.rowSize).sum
    realItemCount := g.type.countP FieldType.isReal
    messages := placed.1
    msgsSize := placed.2.offset
    typed := typed_placeMessages g.typed _ }

/-- `x` rounded up to a multiple of 16, except in the header form. -/
def align (g : Gbnl) (x : Nat) : Nat := if g.isGstl then x else (x + 15) / 16 * 16

def getSize (g : Gbnl) : Nat :=
  let ret := g.msgDescrSize * g.messages.length
  let ret := g.align ret + 4 * g.realItemCount
  let ret := g.align ret + g.msgsSize
  g.align ret + 0x40

theorem le_align (g : Gbnl) (x : Nat) : x ≤ g.align x := by
  rw [align]
  split <;> omega

end Gbnl

end Neptools

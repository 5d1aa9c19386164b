import Neptools.Gbnl.Dump
import Neptools.Gbnl.Ids
import Neptools.Lib.List
import Neptools.Lib.Text

/-!
The text form of a message table: a block for every field with an id, which
starts with a line of dashes and the id, and a last block without a text. What
is read goes into the fields of a table that is there already.
-/

namespace Neptools

open Lib

namespace Gbnl

inductive Separator
  | auto
  | sjis
  | utf8
  deriving Repr, DecidableEq

/-- The settings of the export. -/
structure TxtOptions where
  exportSep : Separator
  simpleIds : Bool

def sepDash : Bytes := (List.replicate 40 [0x81, 0x5c]).flatten ++ [0x20]
def sepDashUtf8 : Bytes := (List.replicate 40 [0xe2, 0x80, 0x95]).flatten ++ [0x20]

def separator (o : TxtOptions) (g : Gbnl) : Bytes :=
  if o.exportSep = .utf8 ∨ (o.exportSep = .auto ∧ g.field30 = 8) then sepDashUtf8 else sepDash

def crlf : Bytes := [0x0d, 0x0a]
def eofWord : Bytes := [0x45, 0x4f, 0x46]

/-- The text of a string; a fixed string ends before its NUL. -/
def Value.text : Value → Bytes
  | .offsetString str _ => str
  | .fixString str => str.takeWhile (· ≠ 0)
  | _ => []

def field (g : Gbnl) (j i : Nat) : Option Value := do
  let m ← g.messages[j]?
  m[i]?

def textAt (g : Gbnl) (j i : Nat) : Bytes := ((field g j i).map Value.text).getD []

/-- The loops of `WriteTxt_`: message, field and id of all that has an id. -/
def exports (g : Gbnl) (simple : Bool) : List (Nat × Nat × Int32) :=
  g.messages.zipIdx.flatMap fun (m, j) => (ids g simple m j).map fun (i, id) => (j, i, id)

def writeBlock (sep : Bytes) (simple : Bool) (id : Int32) (str : Bytes) : Bytes :=
  sep ++ (if simple then [0x23] else []) ++ printInt id.toInt ++ crlf ++
    replaceAll 0x0a crlf str ++ crlf

def blocks (o : TxtOptions) (g : Gbnl) : List Bytes :=
  (exports g o.simpleIds).map fun (j, i, id) =>
    writeBlock (separator o g) o.simpleIds id (textAt g j i)

def eofBlock (o : TxtOptions) (g : Gbnl) : Bytes := separator o g ++ eofWord ++ crlf

def writeTxt (o : TxtOptions) (g : Gbnl) : Bytes := (blocks o g).flatten ++ eofBlock o g

/-- A text put into a string. The last byte of a fixed string stays. -/
def Value.setText (msg : Bytes) : Value → Value
  | .offsetString _ offset => .offsetString msg offset
  | .fixString str =>
      .fixString (strncpy msg (str.length - 1) ++ str.drop (str.length - 1))
  | v => v

theorem type_setText (msg : Bytes) (v : Value) : (v.setText msg).type = v.type := by
  cases v with
  | fixString str =>
      have hlen : (strncpy msg (str.length - 1) ++ str.drop (str.length - 1)).length =
          str.length := by
        rw [List.length_append, length_strncpy, List.length_drop]
        omega
      rw [Value.setText, Value.type, hlen]
      rfl
  | _ => rfl

theorem type_modify_setText (msg : Bytes) (pos : Nat) (m : Struct) :
    Struct.type (m.modify pos (Value.setText msg)) = Struct.type m :=
  map_modify_of_eq (type_setText msg) m pos

theorem typed_modify {g : Gbnl} (msg : Bytes) (index pos : Nat) :
    ∀ m ∈ g.messages.modify index (·.modify pos (Value.setText msg)),
      Struct.type m = g.type := by
  intro m hm
  have hmem := List.mem_map_of_mem (f := Struct.type) hm
  rw [map_modify_of_eq (type_modify_setText msg pos)] at hmem
  obtain ⟨m', hm', heq⟩ := List.mem_map.mp hmem
  rw [← heq, g.typed m' hm']

def setText (g : Gbnl) (index pos : Nat) (msg : Bytes) : Gbnl :=
  { g with
    messages := g.messages.modify index (·.modify pos (Value.setText msg))
    typed := typed_modify msg index pos }

/-- The state of `ReadTxt_`: the table, and the text that goes into field `pos`
of message `lastIndex`. -/
structure TxtState where
  gbnl : Gbnl
  msg : Bytes
  lastIndex : Nat
  pos : Nat

/-- What happens to the text of a block at the next separator. The number of
the message is not checked. -/
def TxtState.store (st : TxtState) : Except Error Gbnl :=
  if st.pos = npos then pure st.gbnl
  else do
    require (st.msg = [] ∨ st.msg.getLast? = some 0x0a)
      (Error.assertionFailed "msg.empty() || msg.back() == '\\n'")
    match st.gbnl.messages[st.lastIndex]? with
    | none => throw .undefinedBehaviour
    | some m =>
        match m[st.pos]? with
        | some (.offsetString _ _) =>
            pure (st.gbnl.setText st.lastIndex st.pos st.msg.dropLast)
        | some (.fixString str) => do
            -- `strncpy` gets the size less one, which wraps
            require (str ≠ []) Error.undefinedBehaviour
            pure (st.gbnl.setText st.lastIndex st.pos st.msg.dropLast)
        | some _ => throw (.assertionFailed "specified item is not T")
        | none => throw (.assertionFailed "index out of range")

/-- What is behind the separator, in a line that starts with one. -/
def separatorRest (line : Bytes) : Option Bytes :=
  if sepDash <+: line then some (line.drop sepDash.length)
  else if sepDashUtf8 <+: line then some (line.drop sepDashUtf8.length)
  else none

/-- A line that starts with a separator, with `rest` behind it. The last block
ends the import, any other one gives the field for the lines that follow. -/
def readSeparator (st : TxtState) (rest : Bytes) : Except Error (Gbnl ⊕ TxtState) := do
  let g ← st.store
  if rest.take 3 = eofWord then pure (.inl g.recalcSize)
  else
    let simple := decide (rest.head? = some 0x23)
    let id := Int32.ofInt (strtol (if simple then rest.drop 1 else rest))
    let dst := findDst g simple id st.lastIndex
    require (dst.1 ≠ npos) (Error.decodeError "GbnlTxt: invalid id in input")
    pure (.inr { gbnl := g, msg := [], lastIndex := dst.2, pos := dst.1 })

/-- The loop over the lines. -/
def readLines (st : TxtState) : List Bytes → Except Error Gbnl
  | [] => throw (.decodeError "GbnlTxt: EOF")
  | line :: lines =>
      match separatorRest line with
      | some rest => do
          match ← readSeparator st rest with
          | .inl g => pure g
          | .inr st => readLines st lines
      | none => do
          require (st.pos ≠ npos) (Error.decodeError "GbnlTxt: data before separator")
          readLines { st with msg := st.msg ++ popCr line ++ [0x0a] } lines

/-- `std::getline` gives an empty line after a last line end, too. -/
def readTxt (g : Gbnl) (is : Bytes) : Except Error Gbnl :=
  readLines { gbnl := g, msg := [], lastIndex := 0, pos := npos } (is.splitOn 0x0a)

end Gbnl

end Neptools

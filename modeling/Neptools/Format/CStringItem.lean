import Neptools.Format.Parse

/-!
Texts with a NUL behind them, and the names of the labels they get.
-/

namespace Neptools

open Lib

/-- `isalnum`, of a byte that is not an ASCII character too. -/
def isAlnum (c : UInt8) : Bool :=
  (0x30 ≤ c ∧ c ≤ 0x39) ∨ (0x41 ≤ c ∧ c ≤ 0x5a) ∨ (0x61 ≤ c ∧ c ≤ 0x7a)

namespace CStringItem

/-- The characters of a label name, `room` of them at most. -/
def labelChars : (room : Nat) → (lastValid : Bool) → Bytes → Bytes
  | 0, _, _ => []
  | _, _, [] => []
  | room + 1, lastValid, c :: cs =>
      if isAlnum c then c :: labelChars room true cs
      else if lastValid then 0x5f :: labelChars room false cs
      else labelChars (room + 1) false cs

/-- "str_", and the beginning of the text. -/
def getLabelName (string : Bytes) : LabelPtr :=
  [0x73, 0x74, 0x72, 0x5f] ++ labelChars 16 false string

/-- `MaybeCreate`, with the text: what is not raw any more has to be a text
already, and the pointer one to its beginning. -/
def maybeCreate (ctx : Context) (ptr : ItemPointer) : Except Error (Context × Bytes) :=
  if ctx.isRaw ptr.item then do
    let src ← ctx.getSource ptr
    let string ← src.preadCString 0
    let ctx ← ctx.splitCreate ptr.item ptr.offset (.cString string)
    pure (ctx, string)
  else do
    let (it, _) ← ctx.get ptr.item
    require (ptr.offset = 0) (Error.assertionFailed "offset == 0")
    match it.body with
    | .cString string => pure (ctx, string)
    | _ => throw .badCast

end CStringItem

end Neptools

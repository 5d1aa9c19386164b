import Neptools.Lib.Pod
import Neptools.Sink.Basic

/-!
References between items. A label is known by its name, which no other label of
its context has.
-/

namespace Neptools

open Lib

abbrev LabelPtr := Bytes

/-- What the items ask of the labels they refer to when they are written: the
place in the file, and the number of entries or children of the item there. -/
structure LabelView where
  toFilePos : LabelPtr → Except Error Nat
  exportCount : LabelPtr → Except Error Nat
  linkCount : LabelPtr → Except Error Nat
  expansionCount : LabelPtr → Except Error Nat

/-- `toFilePos` of a label that may be nil. -/
def LabelView.toFilePosOrZero (v : LabelView) : Option LabelPtr → Except Error Nat
  | none => pure 0
  | some l => v.toFilePos l

end Neptools

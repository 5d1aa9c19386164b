import Neptools.Lib.Pod

/-!
Byte order. The machine is little-endian: values in that order are their own
native form, values in the other are reversed, each record type in the way its
`endian_reverse_inplace` says.
-/

namespace Neptools

open Lib

inductive Endian
  | big
  | little
  deriving Repr, DecidableEq

class EndianReverse (α : Type) where
  endianReverse : α → α
  endianReverse_endianReverse : ∀ a, endianReverse (endianReverse a) = a

export EndianReverse (endianReverse endianReverse_endianReverse)

attribute [simp] endianReverse_endianReverse

instance : EndianReverse UInt8 := ⟨byteSwap, byteSwap_byteSwap⟩
instance : EndianReverse UInt16 := ⟨byteSwap, byteSwap_byteSwap⟩
instance : EndianReverse UInt32 := ⟨byteSwap, byteSwap_byteSwap⟩
instance : EndianReverse UInt64 := ⟨byteSwap, byteSwap_byteSwap⟩

variable {α : Type} [EndianReverse α]

def toNative (a : α) : Endian → α
  | .little => a
  | .big => endianReverse a

def fromNative (a : α) : Endian → α
  | .little => a
  | .big => endianReverse a

@[simp] theorem toNative_fromNative (a : α) (e : Endian) : toNative (fromNative a e) e = a := by
  cases e with
  | little => rfl
  | big => exact endianReverse_endianReverse a

@[simp] theorem fromNative_toNative (a : α) (e : Endian) : fromNative (toNative a e) e = a := by
  cases e with
  | little => rfl
  | big => exact endianReverse_endianReverse a

end Neptools

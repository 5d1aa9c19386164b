import Neptools.Lib.Pod
import Neptools.Utils

/-!
Texts in a field of fixed length. The class is in a library whose source is not
at hand, so what is used of it is a parameter.
-/

namespace Neptools

open Lib

/-- What is used of `Libshit::FixedString` beyond its bytes. -/
class FixedString where
  isValid : Bytes → Bool
  assign : (n : Nat) → (text : Bytes) → ByteArr n
  cStr : {n : Nat} → ByteArr n → Bytes
  /-- A text that was assigned is valid, and is read again. -/
  isValid_assign : ∀ {n : Nat} {text : Bytes}, text.length < n → 0 ∉ text →
    isValid (assign n text).1 = true
  cStr_assign : ∀ {n : Nat} {text : Bytes}, text.length < n → 0 ∉ text →
    cStr (assign n text) = text

namespace FixedString

/-- A text with zeros behind it. -/
def zeroFilled (n : Nat) (text : Bytes) : ByteArr n :=
  ⟨text.take n ++ zeros (n - (text.take n).length), by
    rw [List.length_append, length_zeros, List.length_take]
    omega⟩

theorem zeroFilled_val {n : Nat} {text : Bytes} (h : text.length < n) :
    (zeroFilled n text).1 = text ++ zeros (n - text.length - 1 + 1) := by
  change text.take n ++ zeros (n - (text.take n).length) = _
  rw [List.take_of_length_le (by omega), Nat.sub_add_cancel (by omega)]

/-- A valid text holds a zero, and ends before it. -/
@[reducible] def zeroTerminated : FixedString where
  isValid bs := decide (0 ∈ bs)
  assign := zeroFilled
  cStr s := s.1.takeWhile (· ≠ 0)
  isValid_assign {n text} h _ := by
    rw [zeroFilled_val h]
    refine decide_eq_true (List.mem_append_right text ?_)
    exact List.mem_replicate.mpr ⟨Nat.succ_ne_zero _, rfl⟩
  cStr_assign h hzero := by rw [zeroFilled_val h, takeWhile_append_zeros hzero]

end FixedString

end Neptools

import Neptools.Lib.Buffer

/-!
What the rest of the code shares: the exceptions, the sizes of the buffers, and
zero fill.
-/

namespace Neptools

abbrev Bytes := List UInt8

/-- The exceptions the code throws, a failed assertion, and what C++ leaves
undefined. -/
inductive Error
  | decodeError (message : String)
  | sourceOverflow (message : String)
  | sinkOverflow (message : String)
  | systemError
  | runtimeError (message : String)
  | outOfRange (message : String)
  | badCast
  | assertionFailed (condition : String)
  | undefinedBehaviour
  deriving Repr, DecidableEq

def memChunk : Nat := 8 * 1024
def mmapChunk : Nat := 128 * 1024
def mmapLimit : Nat := 1 * 1024 * 1024

theorem memChunk_pos : 0 < memChunk := by decide
theorem mmapChunk_pos : 0 < mmapChunk := by decide

def zeros (n : Nat) : Bytes := List.replicate n 0

@[simp] theorem length_zeros (n : Nat) : (zeros n).length = n := List.length_replicate

@[simp] theorem zeros_zero : zeros 0 = [] := rfl

theorem zeros_append (m n : Nat) : zeros m ++ zeros n = zeros (m + n) :=
  List.replicate_append_replicate

theorem take_zeros {m n : Nat} (h : m ≤ n) : (zeros n).take m = zeros m := by
  rw [zeros, List.take_replicate, Nat.min_eq_left h]
  rfl

/-- Data written right behind what a zero-filled file holds. -/
theorem overwrite_append_zeros (out data : Bytes) (n : Nat) :
    Lib.overwrite (out ++ zeros n) out.length data =
      out ++ data ++ zeros (n - data.length) := by
  rw [Lib.overwrite_append_left, zeros, List.drop_replicate]
  rfl

/-- A text without a NUL ends at the first NUL behind it. -/
theorem takeWhile_append_ne_zero {text rest : Bytes} (h : 0 ∉ text)
    (hrest : ∀ b ∈ rest.head?, b = 0) : (text ++ rest).takeWhile (· ≠ 0) = text := by
  have hne : ∀ b ∈ text, decide (b ≠ 0) = true := fun b hb =>
    decide_eq_true fun h0 => h (h0 ▸ hb)
  rw [List.takeWhile_append_of_pos hne]
  cases rest with
  | nil => exact List.append_nil text
  | cons b rest =>
      rw [hrest b rfl, List.takeWhile_cons, if_neg (by decide), List.append_nil]

theorem takeWhile_append_zeros {text : Bytes} (h : 0 ∉ text) (n : Nat) :
    (text ++ zeros n).takeWhile (· ≠ 0) = text :=
  takeWhile_append_ne_zero h fun _ hb => List.eq_of_mem_replicate (List.mem_of_mem_head? hb)

/-- A text without a NUL has no first one. -/
theorem takeWhile_ne_zero {str : Bytes} (h : 0 ∉ str) : str.takeWhile (· ≠ 0) = str := by
  have hnil := takeWhile_append_zeros h 0
  rwa [zeros_zero, List.append_nil] at hnil

/-- A line without the carriage return at its end. -/
def popCr (line : Bytes) : Bytes :=
  if line.getLast? = some 0x0d then line.dropLast else line

theorem popCr_append_cr (line : Bytes) : popCr (line ++ [0x0d]) = line := by
  rw [popCr, List.getLast?_concat, if_pos rfl, List.dropLast_concat]

end Neptools

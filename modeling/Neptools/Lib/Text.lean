import Mathlib.Data.Nat.Digits.Defs

/-!
Texts as lists of bytes: lines with another line end, and numbers in decimal
as the C library prints and reads them.
-/

namespace Lib

section Lines

variable {α : Type*} [DecidableEq α]

/-- Every `a` replaced by `w`. -/
def replaceAll (a : α) (w xs : List α) : List α :=
  xs.flatMap fun x => if x = a then w else [x]

/-- The lines with their ends make up the text, and one more end. -/
theorem flatMap_splitOn (a : α) (xs : List α) :
    (xs.splitOn a).flatMap (· ++ [a]) = xs ++ [a] := by
  induction xs with
  | nil => rfl
  | cons x xs ih =>
      rw [List.splitOn_cons_eq_if_modifyHead]
      split
      · rename_i hx
        rw [List.flatMap_cons, ih, eq_of_beq hx]
        rfl
      · cases hxs : xs.splitOn a with
        | nil => exact absurd hxs (List.splitOn_ne_nil a xs)
        | cons l ls =>
            rw [hxs, List.flatMap_cons] at ih
            rw [List.modifyHead_cons, List.flatMap_cons, List.cons_append, List.cons_append, ih]
            rfl

/-- `std::getline` until it fails: what is behind the last line end is a line
only when there is something. -/
def getLines (a : α) (xs : List α) : List (List α) :=
  let lines := xs.splitOn a
  if lines.getLast? = some [] then lines.dropLast else lines

theorem splitOn_flatMap {a : α} {ls : List (List α)} (h : ∀ l ∈ ls, a ∉ l) :
    (ls.flatMap (· ++ [a])).splitOn a = ls ++ [[]] := by
  induction ls with
  | nil => rfl
  | cons l ls ih =>
      obtain ⟨hl, hls⟩ := List.forall_mem_cons.mp h
      rw [List.flatMap_cons, List.append_assoc, List.singleton_append,
        List.splitOn_append_cons_self_of_not_mem hl, ih hls, List.cons_append]

theorem getLines_flatMap {a : α} {ls : List (List α)} (h : ∀ l ∈ ls, a ∉ l) :
    getLines a (ls.flatMap (· ++ [a])) = ls := by
  rw [getLines, splitOn_flatMap h]
  simp only [List.getLast?_concat, if_true, List.dropLast_concat]

/-- The parts of a text between the places where `b` follows `a`. -/
def splitPair (a b : α) : List α → List (List α)
  | x :: y :: xs =>
      if x = a ∧ y = b then [] :: splitPair a b xs
      else (splitPair a b (y :: xs)).modifyHead (x :: ·)
  | xs => [xs]

/-- Every `b` that follows an `a`, and this `a`, replaced by `w`. -/
def replacePair (a b : α) (w : List α) : List α → List α
  | x :: y :: xs =>
      if x = a ∧ y = b then w ++ replacePair a b w xs
      else x :: replacePair a b w (y :: xs)
  | xs => xs

theorem splitPair_ne_nil (a b : α) (xs : List α) : splitPair a b xs ≠ [] := by
  fun_induction splitPair a b xs with
  | case1 => exact List.cons_ne_nil _ _
  | case2 x y xs _ ih =>
      cases h : splitPair a b (y :: xs) with
      | nil => exact absurd h ih
      | cons p ps => exact List.cons_ne_nil _ _
  | case3 => exact List.cons_ne_nil _ _

theorem not_mem_splitPair {a b c : α} {xs : List α} (h : c ∉ xs) :
    ∀ p ∈ splitPair a b xs, c ∉ p := by
  fun_induction splitPair a b xs with
  | case1 x y xs _ ih =>
      rw [List.mem_cons, List.mem_cons, not_or, not_or] at h
      exact List.forall_mem_cons.mpr ⟨List.not_mem_nil, ih h.2.2⟩
  | case2 x y xs _ ih =>
      rw [List.mem_cons, not_or] at h
      have ih := ih h.2
      cases hsplit : splitPair a b (y :: xs) with
      | nil => exact fun _ hp => nomatch hp
      | cons p ps =>
          rw [hsplit] at ih
          obtain ⟨hp, hps⟩ := List.forall_mem_cons.mp ih
          refine List.forall_mem_cons.mpr ⟨fun hmem => ?_, hps⟩
          exact (List.mem_cons.mp hmem).elim h.1 hp
  | case3 xs => exact List.forall_mem_singleton.mpr h

/-- With an end of a line behind, the parts are ended by what replaces the pair. -/
theorem replacePair_append (a b : α) (w xs : List α) :
    replacePair a b w xs ++ w = (splitPair a b xs).flatMap (· ++ w) := by
  fun_induction splitPair a b xs with
  | case1 x y xs h ih =>
      rw [replacePair, if_pos h, List.append_assoc, ih, List.flatMap_cons, List.nil_append]
  | case2 x y xs h ih =>
      rw [replacePair, if_neg h, List.cons_append, ih]
      cases hsplit : splitPair a b (y :: xs) with
      | nil => exact absurd hsplit (splitPair_ne_nil a b _)
      | cons p ps => rfl
  | case3 xs h =>
      rw [replacePair.eq_def]
      split
      · exact absurd rfl (h _ _ _)
      · rw [List.flatMap_cons, List.flatMap_nil, List.append_nil]

theorem replacePair_self (a b : α) (xs : List α) : replacePair a b [a, b] xs = xs := by
  fun_induction replacePair a b [a, b] xs with
  | case1 x y xs h ih =>
      rw [ih, h.1, h.2]
      rfl
  | case2 x y xs _ ih => rw [ih]
  | case3 xs => rfl

end Lines

section Decimal

def digit (d : Nat) : UInt8 := UInt8.ofNat (48 + d)

def isDigit (b : UInt8) : Bool := 48 ≤ b && b ≤ 57

def decimal (n : Nat) : List UInt8 :=
  if n = 0 then [digit 0] else (Nat.digits 10 n).reverse.map digit

/-- The number that the digits in front of a text are. -/
def leadingNat (s : List UInt8) : Nat :=
  (s.takeWhile isDigit).foldl (fun n d => 10 * n + (d.toNat - 48)) 0

theorem toNat_digit {d : Nat} (h : d < 10) : (digit d).toNat = 48 + d := by
  rw [digit, UInt8.toNat_ofNat']
  omega

theorem isDigit_digit {d : Nat} (h : d < 10) : isDigit (digit d) = true := by
  have := toNat_digit h
  rw [isDigit, Bool.and_eq_true, decide_eq_true_iff, decide_eq_true_iff, UInt8.le_iff_toNat_le,
    UInt8.le_iff_toNat_le, this]
  exact ⟨Nat.le_add_right _ _, by show 48 + d ≤ 57; omega⟩

theorem foldl_digits (ds : List Nat) (h : ∀ d ∈ ds, d < 10) :
    (ds.reverse.map digit).foldl (fun n d => 10 * n + (d.toNat - 48)) 0 = Nat.ofDigits 10 ds := by
  induction ds with
  | nil => rfl
  | cons d ds ih =>
      rw [List.reverse_cons, List.map_append, List.foldl_append,
        ih fun x hx => h x (List.mem_cons_of_mem d hx), Nat.ofDigits_cons]
      have := toNat_digit (h d List.mem_cons_self)
      simp only [List.map_cons, List.map_nil, List.foldl_cons, List.foldl_nil, this]
      omega

theorem forall_isDigit_decimal (n : Nat) : ∀ b ∈ decimal n, isDigit b = true := by
  intro b hb
  rw [decimal] at hb
  split at hb
  · rw [List.mem_singleton.mp hb]
    decide
  · obtain ⟨d, hd, rfl⟩ := List.mem_map.mp hb
    exact isDigit_digit (Nat.digits_lt_base (by decide) (List.mem_reverse.mp hd))

theorem leadingNat_decimal (n : Nat) {rest : List UInt8}
    (h : ∀ b ∈ rest.head?, isDigit b = false) : leadingNat (decimal n ++ rest) = n := by
  have hrest : rest.takeWhile isDigit = [] := by
    cases rest with
    | nil => rfl
    | cons b rest => rw [List.takeWhile_cons, h b rfl, if_neg Bool.false_ne_true]
  rw [leadingNat, List.takeWhile_append_of_pos (forall_isDigit_decimal n), hrest, List.append_nil,
    decimal]
  split
  · rename_i hn
    rw [hn]
    decide
  · rw [foldl_digits _ fun d hd => Nat.digits_lt_base (by decide) hd, Nat.ofDigits_digits]

/-- A number as a stream prints it. -/
def printInt : Int → List UInt8
  | .ofNat n => decimal n
  | .negSucc n => 0x2d :: decimal (n + 1)

def isSpace (b : UInt8) : Bool := b = 0x20 || (9 ≤ b && b ≤ 13)

/-- `strtol` with base 10, for a `long` of 64 bits. -/
def strtol (s : List UInt8) : Int :=
  let x : Int :=
    match s.dropWhile isSpace with
    | [] => 0
    | b :: s =>
        if b = 0x2d then -leadingNat s
        else if b = 0x2b then leadingNat s
        else leadingNat (b :: s)
  max (-2 ^ 63) (min x (2 ^ 63 - 1))

end Decimal

end Lib

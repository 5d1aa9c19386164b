import Mathlib.Algebra.Group.Int.Defs
import Mathlib.Algebra.GroupWithZero.Nat
import Mathlib.Data.List.Basic

/-!
Buffers as lists: overwriting a run of cells in place, reading a run back, and
zero fill. Nothing here knows what the cells mean.
-/

namespace Lib

variable {α : Type*}

/-- The cells `i, …, i + xs.length - 1` of `buf` replaced by `xs`. -/
def overwrite (buf : List α) (i : Nat) (xs : List α) : List α :=
  buf.take i ++ xs ++ buf.drop (i + xs.length)

/-- The `len` cells of `buf` from cell `i` on. -/
def slice (buf : List α) (i len : Nat) : List α :=
  (buf.drop i).take len

theorem length_overwrite {buf : List α} {i : Nat} {xs : List α}
    (h : i + xs.length ≤ buf.length) : (overwrite buf i xs).length = buf.length := by
  simp only [overwrite, List.length_append, List.length_take, List.length_drop]
  omega

/-- Up to the end of the written run the buffer is its old prefix and the run. -/
theorem take_overwrite {buf : List α} {i : Nat} (xs : List α) (h : i ≤ buf.length) :
    (overwrite buf i xs).take (i + xs.length) = buf.take i ++ xs := by
  have hl : (buf.take i ++ xs).length = i + xs.length := by
    simp only [List.length_append, List.length_take]
    omega
  rw [overwrite, ← hl, List.take_left']
  rfl

/-- A run written behind `xs`. -/
theorem overwrite_append_left (xs rest ys : List α) :
    overwrite (xs ++ rest) xs.length ys = xs ++ ys ++ rest.drop ys.length := by
  rw [overwrite, List.take_left' rfl, ← List.drop_drop, List.drop_left' rfl]

@[simp] theorem length_slice (buf : List α) (i len : Nat) :
    (slice buf i len).length = min len (buf.length - i) := by
  simp [slice]

theorem length_slice_of_le {buf : List α} {i len : Nat} (h : i + len ≤ buf.length) :
    (slice buf i len).length = len := by
  rw [length_slice]
  omega

/-- A run that starts where `xs` ends, read out of `xs ++ ys ++ zs`. -/
theorem slice_append_mid (xs ys zs : List α) :
    slice (xs ++ ys ++ zs) xs.length ys.length = ys := by
  simp [slice, List.append_assoc]

/-- The run `xs` is in `buf` from cell `i` on. -/
def StandsAt (xs : List α) (i : Nat) (buf : List α) : Prop :=
  ∃ pre post, buf = pre ++ xs ++ post ∧ pre.length = i

namespace StandsAt

variable {xs ys buf buf' : List α} {i j : Nat}

theorem last (pre xs : List α) : StandsAt xs pre.length (pre ++ xs) :=
  ⟨pre, [], (List.append_nil _).symm, rfl⟩

theorem le (h : StandsAt xs i buf) : i + xs.length ≤ buf.length := by
  obtain ⟨pre, post, rfl, rfl⟩ := h
  simp only [List.length_append]
  omega

theorem slice_eq (h : StandsAt xs i buf) : slice buf i xs.length = xs := by
  obtain ⟨pre, post, rfl, rfl⟩ := h
  exact slice_append_mid pre xs post

theorem of_slice {buf : List α} {i len : Nat} (h : i + len ≤ buf.length) :
    StandsAt (slice buf i len) i buf := by
  refine ⟨buf.take i, buf.drop (i + len), ?_, List.length_take_of_le (by omega)⟩
  rw [List.append_assoc, slice, ← List.drop_drop, List.take_append_drop, List.take_append_drop]

theorem of_slice_eq (h : slice buf i xs.length = xs) (hle : i + xs.length ≤ buf.length) :
    StandsAt xs i buf := by
  have hstands := of_slice hle
  rwa [h] at hstands

theorem getElem?_eq (h : StandsAt xs i buf) {k : Nat} (hk : k < xs.length) :
    buf[i + k]? = xs[k]? := by
  obtain ⟨pre, post, rfl, rfl⟩ := h
  rw [List.append_assoc, List.getElem?_append_right (Nat.le_add_right _ _), Nat.add_sub_cancel_left,
    List.getElem?_append_left hk]

theorem drop_eq (h : StandsAt xs i buf) : ∃ post, buf.drop i = xs ++ post := by
  obtain ⟨pre, post, rfl, rfl⟩ := h
  exact ⟨post, by rw [List.append_assoc, List.drop_left]⟩

/-- A run, and what comes behind it. -/
theorem drop_eq_append (h : StandsAt xs i buf) :
    buf.drop i = xs ++ buf.drop (i + xs.length) := by
  rw [← List.drop_drop]
  conv_lhs => rw [← List.take_append_drop xs.length (buf.drop i)]
  exact congrArg (· ++ _) h.slice_eq

/-- Two runs one behind the other are one run. -/
theorem append_iff :
    StandsAt (xs ++ ys) i buf ↔ StandsAt xs i buf ∧ StandsAt ys (i + xs.length) buf := by
  constructor
  · rintro ⟨pre, post, rfl, rfl⟩
    exact ⟨⟨pre, ys ++ post, by simp only [List.append_assoc], rfl⟩,
      ⟨pre ++ xs, post, by simp only [List.append_assoc], List.length_append⟩⟩
  · rintro ⟨⟨pre, post, rfl, rfl⟩, pre', post', heq, hlen⟩
    rw [← List.length_append] at hlen
    obtain ⟨rfl, rfl⟩ := List.append_inj (heq.trans (List.append_assoc _ _ _)) hlen.symm
    exact ⟨pre, post', by simp only [List.append_assoc], rfl⟩

theorem left (h : StandsAt (xs ++ ys) i buf) : StandsAt xs i buf := (append_iff.mp h).1

theorem right (h : StandsAt (xs ++ ys) i buf) : StandsAt ys (i + xs.length) buf :=
  (append_iff.mp h).2

theorem append_buf (h : StandsAt xs i buf) (zs : List α) : StandsAt xs i (buf ++ zs) := by
  obtain ⟨pre, post, rfl, rfl⟩ := h
  exact ⟨pre, post ++ zs, by simp only [List.append_assoc], rfl⟩

/-- A run of a run. -/
protected theorem trans (h : StandsAt xs i ys) (h' : StandsAt ys j buf) :
    StandsAt xs (j + i) buf := by
  obtain ⟨pre, post, rfl, rfl⟩ := h
  obtain ⟨pre', post', rfl, rfl⟩ := h'
  exact ⟨pre' ++ pre, post ++ post', by simp only [List.append_assoc], List.length_append⟩

/-- A run is in a part of the buffer if it is at that place of the buffer. -/
theorem trans_iff (h : StandsAt ys j buf) (hle : i + xs.length ≤ ys.length) :
    StandsAt xs (j + i) buf ↔ StandsAt xs i ys := by
  refine ⟨fun hbuf => ?_, fun hxs => hxs.trans h⟩
  have hpart := of_slice hle
  have hsame := hbuf.slice_eq
  have hpartSame := (hpart.trans h).slice_eq
  rw [length_slice_of_le hle] at hpartSame
  rwa [← hpartSame, hsame] at hpart

/-- The part of an element, behind those of the elements in front of it. -/
theorem flatMap {β : Type*} {f : β → List α} {l : List β} {k : Nat} {b : β}
    (h : StandsAt (l.flatMap f) i buf) (hb : l[k]? = some b) :
    StandsAt (f b) (i + ((l.take k).map fun b => (f b).length).sum) buf := by
  induction l generalizing i k with
  | nil => cases hb
  | cons b' l ih =>
      rw [List.flatMap_cons] at h
      cases k with
      | zero =>
          obtain rfl := Option.some.inj hb
          exact h.left
      | succ k =>
          have hrest := ih h.right hb
          rwa [Nat.add_assoc] at hrest

theorem flatMap_of_length {β : Type*} {f : β → List α} {l : List β} {n k : Nat} {b : β}
    (h : StandsAt (l.flatMap f) i buf) (hlength : ∀ b ∈ l, (f b).length = n)
    (hb : l[k]? = some b) : StandsAt (f b) (i + n * k) buf := by
  have hk : min k l.length = k :=
    Nat.min_eq_left (Nat.le_of_lt (List.getElem?_eq_some_iff.mp hb).1)
  have hmap : (l.take k).map (fun b => (f b).length) = List.replicate k n := by
    rw [List.map_congr_left fun b hb => hlength b (List.mem_of_mem_take hb), List.map_const',
      List.length_take, hk]
  have hpart := h.flatMap hb
  rwa [hmap, List.sum_replicate_nat, Nat.mul_comm] at hpart

end StandsAt

/-- Two lists differ at most in the part in which they are put together from other lists. -/
theorem getElem?_append_mid (pre post : List α) {mid mid' : List α}
    (hlength : mid.length = mid'.length) {k : Nat}
    (hk : k < pre.length ∨ pre.length + mid.length ≤ k) :
    (pre ++ (mid ++ post))[k]? = (pre ++ (mid' ++ post))[k]? := by
  rcases hk with hk | hk
  · rw [List.getElem?_append_left hk, List.getElem?_append_left hk]
  · rw [List.getElem?_append_right (by omega), List.getElem?_append_right (by omega),
      List.getElem?_append_right (by omega), List.getElem?_append_right (by omega), hlength]

theorem length_flatMap_of_length_eq {β : Type*} {f : α → List β} {xs : List α} {n : Nat}
    (h : ∀ x ∈ xs, (f x).length = n) : (xs.flatMap f).length = n * xs.length := by
  induction xs with
  | nil => simp
  | cons x xs ih =>
      rw [List.flatMap_cons, List.length_append, h x List.mem_cons_self,
        ih fun y hy => h y (List.mem_cons_of_mem x hy), List.length_cons, Nat.mul_add,
        Nat.mul_one, Nat.add_comm]

theorem slice_slice (buf : List α) {i len j n : Nat} (h : j + n ≤ len) :
    slice (slice buf i len) j n = slice buf (i + j) n := by
  simp only [slice, List.drop_take, List.drop_drop, List.take_take]
  congr 1
  omega

theorem slice_append_slice (buf : List α) (i m n : Nat) :
    slice buf i m ++ slice buf (i + m) n = slice buf i (m + n) := by
  simp only [slice]
  rw [List.take_add, List.drop_drop]

end Lib

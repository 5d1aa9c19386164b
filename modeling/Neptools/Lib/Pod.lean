import Mathlib.Algebra.Group.Int.Defs
import Mathlib.Algebra.GroupWithZero.Nat
import Mathlib.Data.List.Basic
import Mathlib.Logic.Equiv.Defs

/-!
Values with a fixed-size memory image, as plain records have on a little-endian
machine: unsigned integers, arrays of bytes, and records made of these. Bytes
of the right number always are the image of a value, so writing the image of
what was read gives the bytes read.
-/

namespace Lib

/-- The `w` lowest bytes of `n`, lowest first. -/
def leBytes : Nat → Nat → List UInt8
  | 0, _ => []
  | w + 1, n => UInt8.ofNat n :: leBytes w (n / 256)

def leNat : List UInt8 → Nat
  | [] => 0
  | b :: bs => b.toNat + 256 * leNat bs

@[simp] theorem length_leBytes (w n : Nat) : (leBytes w n).length = w := by
  induction w generalizing n with
  | zero => rfl
  | succ w ih => simp [leBytes, ih]

theorem leNat_leBytes (w n : Nat) : leNat (leBytes w n) = n % 256 ^ w := by
  induction w generalizing n with
  | zero => simp [leBytes, leNat, Nat.mod_one]
  | succ w ih =>
      rw [leBytes, leNat, ih, Nat.pow_succ, Nat.mul_comm (256 ^ w), Nat.mod_mul]
      rfl

theorem leBytes_leNat (bs : List UInt8) : leBytes bs.length (leNat bs) = bs := by
  induction bs with
  | nil => rfl
  | cons b bs ih =>
      have hb := b.toNat_lt
      have hdiv : leNat (b :: bs) / 256 = leNat bs := by
        rw [leNat]
        omega
      have hmod : UInt8.ofNat (leNat (b :: bs)) = b := by
        apply UInt8.toNat_inj.mp
        rw [UInt8.toNat_ofNat', leNat]
        omega
      rw [List.length_cons, leBytes, hdiv, hmod, ih]

class Pod (α : Type) where
  size : Nat
  toBytes : α → List UInt8
  ofBytes : List UInt8 → α
  length_toBytes : ∀ a, (toBytes a).length = size
  ofBytes_toBytes : ∀ a, ofBytes (toBytes a) = a
  toBytes_ofBytes : ∀ bs, bs.length = size → toBytes (ofBytes bs) = bs

export Pod (toBytes)

namespace Pod

attribute [simp] length_toBytes ofBytes_toBytes

/-- Integers of `w` bytes. -/
@[reducible] def ofNat {α : Type} (w : Nat) (toNat : α → Nat) (ofNat : Nat → α)
    (toNat_ofNat : ∀ n, toNat (ofNat n) = n % 256 ^ w)
    (ofNat_toNat : ∀ a, ofNat (toNat a) = a) : Pod α where
  size := w
  toBytes a := leBytes w (toNat a)
  ofBytes bs := ofNat (leNat bs)
  length_toBytes _ := length_leBytes _ _
  ofBytes_toBytes a := by
    rw [leNat_leBytes, ← toNat_ofNat, ofNat_toNat, ofNat_toNat]
  toBytes_ofBytes bs h := by
    subst h
    rw [toNat_ofNat, ← leNat_leBytes, leBytes_leNat, leBytes_leNat]

instance : Pod UInt8 :=
  ofNat 1 UInt8.toNat UInt8.ofNat (fun _ => UInt8.toNat_ofNat') (fun _ => UInt8.ofNat_toNat)
instance : Pod UInt16 :=
  ofNat 2 UInt16.toNat UInt16.ofNat (fun _ => UInt16.toNat_ofNat')
    (fun _ => UInt16.ofNat_toNat)
instance : Pod UInt32 :=
  ofNat 4 UInt32.toNat UInt32.ofNat (fun _ => UInt32.toNat_ofNat')
    (fun _ => UInt32.ofNat_toNat)
instance : Pod UInt64 :=
  ofNat 8 UInt64.toNat UInt64.ofNat (fun _ => UInt64.toNat_ofNat')
    (fun _ => UInt64.ofNat_toNat)

instance {α β : Type} [Pod α] [Pod β] : Pod (α × β) where
  size := size α + size β
  toBytes p := toBytes p.1 ++ toBytes p.2
  ofBytes bs := (ofBytes (bs.take (size α)), ofBytes (bs.drop (size α)))
  length_toBytes p := by simp
  ofBytes_toBytes p := by
    have h := length_toBytes p.1
    simp only [← h, List.take_left', List.drop_left', ofBytes_toBytes]
  toBytes_ofBytes bs h := by
    rw [toBytes_ofBytes _ (by rw [List.length_take]; omega),
      toBytes_ofBytes _ (by rw [List.length_drop]; omega), List.take_append_drop]

/-- A record with the image of the tuple of its fields. -/
@[reducible] def ofEquiv {α β : Type} [Pod β] (e : α ≃ β) : Pod α where
  size := size β
  toBytes a := toBytes (e a)
  ofBytes bs := e.symm (ofBytes bs)
  length_toBytes a := length_toBytes (e a)
  ofBytes_toBytes a := by rw [ofBytes_toBytes, Equiv.symm_apply_apply]
  toBytes_ofBytes bs h := by rw [Equiv.apply_symm_apply, toBytes_ofBytes bs h]

end Pod

/-- An array of `n` bytes. -/
abbrev ByteArr (n : Nat) := { bs : List UInt8 // bs.length = n }

instance (n : Nat) : Pod (ByteArr n) where
  size := n
  toBytes a := a.1
  ofBytes bs := if h : bs.length = n then ⟨bs, h⟩ else ⟨List.replicate n 0, List.length_replicate⟩
  length_toBytes a := a.2
  ofBytes_toBytes a := by rw [dif_pos a.2]
  toBytes_ofBytes bs h := by rw [dif_pos h]

/-- The value whose image is reversed. -/
def byteSwap {α : Type} [Pod α] (a : α) : α := Pod.ofBytes (toBytes a).reverse

@[simp] theorem toBytes_byteSwap {α : Type} [Pod α] (a : α) :
    toBytes (byteSwap a) = (toBytes a).reverse :=
  Pod.toBytes_ofBytes _ (by simp)

@[simp] theorem byteSwap_byteSwap {α : Type} [Pod α] (a : α) : byteSwap (byteSwap a) = a := by
  rw [byteSwap, toBytes_byteSwap, List.reverse_reverse, Pod.ofBytes_toBytes]

end Lib

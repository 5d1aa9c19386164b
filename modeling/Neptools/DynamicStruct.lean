import Mathlib.Data.List.Chain
import Neptools.Lib.Align

/-!
Structures whose fields are known at run time only. The fields are laid out in
the order in which they were added, and the end of each is rounded up to its own
alignment, not to that of the next one.
-/

namespace Neptools

open Lib

namespace DynamicStruct

/-- What the layout needs of one of the types that a structure may have. -/
structure Arg where
  size : UInt64
  align : UInt64
  sizable : Bool
  align_eq : ∃ k < 64, align.toNat = 2 ^ k
  align_dvd : align.toNat ∣ size.toNat

variable {n : Nat} (Args : Fin n → Arg)

namespace StructType

structure Item (n : Nat) where
  idx : Fin n
  size : UInt64
  offset : UInt64
  deriving DecidableEq

end StructType

structure StructType (n : Nat) where
  items : List (StructType.Item n)
  byteSize : UInt64
  deriving DecidableEq

namespace TypeBuilder

/-- `desc`: an index and a size for each item. -/
abbrev Desc (n : Nat) := List (Fin n × UInt64)

/-- Only a type that is sizable has another size than its own. -/
def Described (desc : Desc n) : Prop :=
  ∀ item ∈ desc, (Args item.1).sizable = true ∨ item.2 = (Args item.1).size

/-- Where an item at `offs` leaves off. -/
def next (offs size al : UInt64) : UInt64 :=
  let offs := offs + size
  (offs + al - 1) / al * al

def buildFrom (offs : UInt64) : Desc n → StructType n
  | [] => { items := [], byteSize := offs }
  | (idx, size) :: desc =>
      let rest := buildFrom (next offs size (Args idx).align) desc
      { rest with items := { idx, size, offset := offs } :: rest.items }

def build (desc : Desc n) : StructType n := buildFrom Args 0 desc

/-- What the items take, each of them rounded up to its own alignment. -/
def padded (desc : Desc n) : Nat :=
  (desc.map fun (idx, size) => roundUp (Args idx).align.toNat size.toNat).sum

end TypeBuilder

/-- Every item is where its type can be, behind the ones in front of it. -/
structure StructType.LaidOut (t : StructType n) : Prop where
  aligned : ∀ item ∈ t.items, (Args item.idx).align.toNat ∣ item.offset.toNat
  inOrder : t.items.Pairwise fun a b => a.offset.toNat + a.size.toNat ≤ b.offset.toNat
  within : ∀ item ∈ t.items.getLast?, item.offset.toNat + item.size.toNat ≤ t.byteSize.toNat

theorem Arg.align_pos (arg : Arg) : 0 < arg.align.toNat := by
  obtain ⟨k, -, hk⟩ := arg.align_eq
  rw [hk]
  exact Nat.two_pow_pos k

theorem Arg.align_dvd_two_pow (arg : Arg) : arg.align.toNat ∣ 2 ^ 64 := by
  obtain ⟨k, hlt, hk⟩ := arg.align_eq
  rw [hk]
  exact Nat.pow_dvd_pow 2 hlt.le

namespace TypeBuilder

variable {Args}

/-- With room for rounding up, nothing wraps around. -/
theorem toNat_next (arg : Arg) {offs size : UInt64}
    (hroom : offs.toNat + size.toNat + arg.align.toNat - 1 < 2 ^ 64) :
    (next offs size arg.align).toNat = roundUp arg.align.toNat (offs.toNat + size.toNat) := by
  have hpos := arg.align_pos
  have hle := Nat.div_mul_le_self (offs.toNat + size.toNat + arg.align.toNat - 1) arg.align.toNat
  have hsum : (offs + size + arg.align - 1).toNat =
      offs.toNat + size.toNat + arg.align.toNat - 1 := by
    simp only [UInt64.toNat_sub, UInt64.toNat_add, UInt64.toNat_one]
    omega
  rw [next, UInt64.toNat_mul, UInt64.toNat_div, hsum, roundUp]
  exact Nat.mod_eq_of_lt (hle.trans_lt hroom)

/-- Without it, the next item is in front of the end of this one. -/
theorem toNat_next_lt (arg : Arg) {offs size : UInt64}
    (hroom : ¬ offs.toNat + size.toNat + arg.align.toNat - 1 < 2 ^ 64) :
    (next offs size arg.align).toNat < offs.toNat + size.toNat := by
  have hpos := arg.align_pos
  have hlt := (next offs size arg.align).toNat_lt
  have halign := arg.align.toNat_lt
  by_cases hwrap : 2 ^ 64 ≤ offs.toNat + size.toNat
  · omega
  · have hsum : (offs + size + arg.align - 1).toNat < arg.align.toNat := by
      simp only [UInt64.toNat_sub, UInt64.toNat_add, UInt64.toNat_one]
      omega
    rw [next, UInt64.toNat_mul, UInt64.toNat_div, Nat.div_eq_of_lt hsum, Nat.zero_mul]
    omega

/-- Where an item at its alignment ends well. -/
theorem end_le_next_iff (arg : Arg) {offs size : UInt64} (hdvd : arg.align.toNat ∣ offs.toNat) :
    offs.toNat + size.toNat ≤ (next offs size arg.align).toNat ↔
      offs.toNat + roundUp arg.align.toNat size.toNat < 2 ^ 64 := by
  rw [← roundUp_add arg.align_pos hdvd, roundUp_lt_iff arg.align_pos arg.align_dvd_two_pow]
  constructor
  · intro h
    by_contra hroom
    exact absurd (toNat_next_lt arg hroom) (by omega)
  · intro hroom
    rw [toNat_next arg hroom]
    exact le_roundUp arg.align_pos _

theorem toNat_next_of_dvd (arg : Arg) {offs size : UInt64} (hdvd : arg.align.toNat ∣ offs.toNat)
    (hroom : offs.toNat + roundUp arg.align.toNat size.toNat < 2 ^ 64) :
    (next offs size arg.align).toNat = offs.toNat + roundUp arg.align.toNat size.toNat := by
  rw [← roundUp_add arg.align_pos hdvd] at hroom ⊢
  exact toNat_next arg ((roundUp_lt_iff arg.align_pos arg.align_dvd_two_pow).mp hroom)

theorem padded_cons (idx : Fin n) (size : UInt64) (desc : Desc n) :
    padded Args ((idx, size) :: desc) =
      roundUp (Args idx).align.toNat size.toNat + padded Args desc := by
  simp [padded]

/-- An item is laid out well in front of others exactly when it leaves off behind its
end, and the others are. -/
theorem laidOut_cons_iff (offs : UInt64) (idx : Fin n) (size : UInt64) (desc : Desc n) :
    (buildFrom Args offs ((idx, size) :: desc)).LaidOut Args ↔
      (Args idx).align.toNat ∣ offs.toNat ∧
        offs.toNat + size.toNat ≤ (next offs size (Args idx).align).toNat ∧
        (buildFrom Args (next offs size (Args idx).align) desc).LaidOut Args := by
  constructor
  · rintro ⟨haligned, horder, hwithin⟩
    obtain ⟨hfirst, haligned⟩ := List.forall_mem_cons.mp haligned
    obtain ⟨hbehind, horder⟩ := List.pairwise_cons.mp horder
    cases desc with
    | nil => exact ⟨hfirst, hwithin _ rfl, haligned, horder, fun item h => nomatch h⟩
    | cons _ desc => exact ⟨hfirst, hbehind _ List.mem_cons_self, haligned, horder, hwithin⟩
  · rintro ⟨hfirst, hnext, haligned, horder, hwithin⟩
    refine ⟨List.forall_mem_cons.mpr ⟨hfirst, haligned⟩, List.pairwise_cons.mpr ⟨?_, horder⟩, ?_⟩
    · cases desc with
      | nil => exact fun item h => nomatch h
      | cons _ desc =>
          refine List.forall_mem_cons.mpr ⟨hnext, fun item hitem => hnext.trans ?_⟩
          exact (Nat.le_add_right _ _).trans ((List.pairwise_cons.mp horder).1 item hitem)
    · cases desc with
      | nil =>
          intro item hitem
          obtain rfl := Option.some.inj hitem
          exact hnext
      | cons _ desc => exact hwithin

theorem laidOut_buildFrom_iff (desc : Desc n) (offs : UInt64) :
    (buildFrom Args offs desc).LaidOut Args ↔
      (∀ i item, desc[i]? = some item →
        (Args item.1).align.toNat ∣ offs.toNat + padded Args (desc.take i)) ∧
      offs.toNat + padded Args desc < 2 ^ 64 := by
  induction desc generalizing offs with
  | nil =>
      have hlt := offs.toNat_lt
      exact ⟨fun _ => ⟨(fun i item h => nomatch h), hlt⟩, fun _ =>
        ⟨(fun item h => nomatch h), List.Pairwise.nil, fun item h => nomatch h⟩⟩
  | cons item desc ih =>
      obtain ⟨idx, size⟩ := item
      rw [laidOut_cons_iff, ih]
      simp only [padded_cons]
      constructor
      · rintro ⟨hdvd, hend, haligned, htotal⟩
        have hnext := toNat_next_of_dvd _ hdvd ((end_le_next_iff _ hdvd).mp hend)
        rw [hnext, Nat.add_assoc] at htotal
        refine ⟨fun i item h => ?_, htotal⟩
        cases i with
        | zero =>
            cases h
            exact hdvd
        | succ i =>
            have hitem := haligned i item h
            rwa [hnext, Nat.add_assoc] at hitem
      · rintro ⟨haligned, htotal⟩
        have hdvd : (Args idx).align.toNat ∣ offs.toNat := haligned 0 _ rfl
        have hroom : offs.toNat + roundUp (Args idx).align.toNat size.toNat < 2 ^ 64 := by omega
        rw [toNat_next_of_dvd _ hdvd hroom, Nat.add_assoc]
        refine ⟨hdvd, ?_, fun i item h => ?_, htotal⟩
        · rw [← toNat_next_of_dvd _ hdvd hroom]
          exact (end_le_next_iff _ hdvd).mpr hroom
        · rw [Nat.add_assoc]
          exact haligned (i + 1) item h

/-- The items are where they should be exactly when what is in front of each, rounded up item
by item, is a multiple of its alignment, and all together fits in a `size_t`. -/
theorem build_laidOut_iff (desc : Desc n) :
    (build Args desc).LaidOut Args ↔
      (∀ i item, desc[i]? = some item →
        (Args item.1).align.toNat ∣ padded Args (desc.take i)) ∧ padded Args desc < 2 ^ 64 := by
  simpa [build] using laidOut_buildFrom_iff desc 0

/-- `int8_t` and `int32_t`. -/
def int8Int32 : Fin 2 → Arg
  | 0 => { size := 1, align := 1, sizable := false, align_eq := ⟨0, by decide⟩, align_dvd := by decide }
  | 1 => { size := 4, align := 4, sizable := false, align_eq := ⟨2, by decide⟩, align_dvd := by decide }

/-- Behind one byte, an `int32_t` is at offset 1. -/
theorem int8Int32_not_laidOut :
    ¬ ∀ (n : Nat) (Args : Fin n → Arg) (desc : Desc n), Described Args desc →
      (build Args desc).LaidOut Args := by
  intro hall
  have hdescribed : Described int8Int32 [(0, 1), (1, 4)] := by
    simp [Described, int8Int32]
  obtain ⟨hdvd, -⟩ := (laidOut_buildFrom_iff _ 0).mp (hall 2 int8Int32 _ hdescribed)
  exact absurd (hdvd 1 _ rfl) (by decide)

end TypeBuilder

end DynamicStruct

end Neptools

import Neptools.Gbnl.Layout
import Neptools.Gbnl.Parse

/-!
The field lists that `Pad` can build, and that the descriptors written for such
a list are read back as the same list: paddings and fixed strings are found
again from the gaps between the descriptors.
-/

namespace Neptools

open Lib

namespace Gbnl

def SizeOk : FieldType → Prop
  | .padding size => 1 ≤ size ∧ size ≤ 65535
  | .fixString size => 5 ≤ size ∧ size ≤ 65536
  | _ => True

/-- A field of the second type may stand right behind one of the first. -/
def MayFollow : FieldType → FieldType → Prop
  | .padding _, .padding _ => False
  | .int8, .padding size => size ≤ 3
  | .fixString _, .padding _ => False
  | _, _ => True

/-- All fields start where 16 bits can tell. -/
def OffsetsFit : Nat → List FieldType → Prop
  | _, [] => True
  | offs, t :: ts => offs ≤ 65535 ∧ OffsetsFit (offs + t.rowSize) ts

structure PadBuildable (type : List FieldType) : Prop where
  sizes : ∀ t ∈ type, SizeOk t
  chain : type.IsChain MayFollow
  offsets : OffsetsFit 0 type

/-- The total size of a list of fields. -/
def totalSize (ts : List FieldType) : Nat := (ts.map FieldType.rowSize).sum

theorem SizeOk.rowSize_le {t : FieldType} (h : SizeOk t) : t.rowSize ≤ 65536 := by
  cases t with
  | fixString size => exact h.2
  | padding size => exact Nat.le_succ_of_le h.2
  | _ => decide

theorem totalSize_le {ts : List FieldType} :
    ∀ {offs : Nat}, (∀ t ∈ ts, SizeOk t) → OffsetsFit offs ts →
      offs + totalSize ts ≤ max offs 131071 := by
  induction ts with
  | nil =>
      intro offs _ _
      exact Nat.le_max_left _ _
  | cons t ts ih =>
      intro offs hsizes hfit
      have hrow := (hsizes t List.mem_cons_self).rowSize_le
      have hrest := ih (fun u hu => hsizes u (List.mem_cons_of_mem t hu)) hfit.2
      have hoffs := hfit.1
      have htotal : totalSize (t :: ts) = t.rowSize + totalSize ts := by
        simp only [totalSize, List.map_cons, List.sum_cons]
      omega

theorem totalSize_pos {type : List FieldType} (hbuild : PadBuildable type) (hne : type ≠ []) :
    0 < totalSize type := by
  obtain ⟨t, ht⟩ := List.exists_mem_of_ne_nil _ hne
  have hrow : 0 < t.rowSize := by
    have hsize := hbuild.sizes t ht
    cases t with
    | fixString size => exact Nat.lt_of_lt_of_le (by decide) hsize.1
    | padding size => exact hsize.1
    | _ => decide
  by_contra hzero
  have := List.sum_eq_zero_iff_forall_eq_nat.mp (Nat.eq_zero_of_not_pos hzero) _
    (List.mem_map_of_mem (f := FieldType.rowSize) ht)
  omega

theorem PadBuildable.no_empty_fixString {type : List FieldType} (h : PadBuildable type) :
    .fixString 0 ∉ type := fun hmem => absurd (h.sizes _ hmem).1 (by decide)

theorem pad_zero_false (bld : List FieldType) : pad (.ofNat 0) bld false = (bld, false) :=
  rfl

theorem pad_zero_true (bld : List FieldType) :
    pad (.ofNat 0) bld true = (bld ++ [.int8], false) := rfl

theorem pad_false {diff : UInt16} (bld : List FieldType) (h : diff ≠ 0) :
    pad diff bld false = (bld ++ [.padding diff.toNat], false) := by
  simp [pad, h]

theorem pad_true_le {diff : UInt16} (bld : List FieldType) (h : diff ≠ 0) (hle : diff ≤ 3) :
    pad diff bld true = (bld ++ [.int8] ++ [.padding diff.toNat], false) := by
  simp [pad, h, UInt16.not_lt.mpr hle]

theorem pad_true_gt {diff : UInt16} (bld : List FieldType) (h : 3 < diff) :
    pad diff bld true = (bld ++ [.fixString (diff.toNat + 1)], false) := by
  simp [pad, h]

theorem toUint16_sub {a b : Nat} (h : b ≤ a) : toUint16 ((a : Int) - b) = UInt16.ofNat (a - b) := by
  have hcast : (a : Int) - b = ((a - b : Nat) : Int) := by omega
  rw [toUint16, hcast]
  apply UInt16.toNat_inj.mp
  simp only [UInt16.toNat_ofNat']
  omega

theorem toNat_ofNat16 {n : Nat} (h : n ≤ 65535) : (UInt16.ofNat n).toNat = n :=
  UInt16.toNat_ofNat_of_lt' (by change _ < 65536; omega)

/-- The loop over the descriptors has come to offset `offs`, behind the fields
`done`, of which `prev` is the last: the last call of `Pad` is still to come,
and would complete them. -/
structure Behind (done : List FieldType) (prev : Option FieldType) (offs : Nat)
    (st : TypeState) : Prop where
  le : st.calcOffs ≤ offs
  gap_le : offs - st.calcOffs ≤ 65535
  pad_eq : pad (UInt16.ofNat (offs - st.calcOffs)) st.bld st.int8InProgress = (done, false)
  gap : offs = st.calcOffs ∨ ∃ p, prev = some p ∧ ∀ size, ¬ MayFollow p (.padding size)
  int8 : offs = st.calcOffs → st.int8InProgress = true → prev = some .int8

theorem behind_start : Behind [] none 0 { calcOffs := 0, bld := [], int8InProgress := false } :=
  { le := Nat.le_refl _, gap_le := by decide, pad_eq := rfl, gap := Or.inl rfl
    int8 := fun _ h => nomatch h }

theorem Behind.padding {done : List FieldType} {prev : Option FieldType} {offs : Nat}
    {st : TypeState} (h : Behind done prev offs st) {size : Nat} (hsize : SizeOk (.padding size))
    (hprev : ∀ p, prev = some p → MayFollow p (.padding size)) :
    Behind (done ++ [.padding size]) (some (.padding size)) (offs + size) st := by
  obtain ⟨hle, hgap, hpad, hkind, hint8⟩ := h
  have heq : offs = st.calcOffs := by
    rcases hkind with heq | ⟨p, hp, hnot⟩
    · exact heq
    · exact absurd (hprev p hp) (hnot size)
  obtain ⟨hpos, hmax⟩ := hsize
  have hnat := toNat_ofNat16 hmax
  have hne : UInt16.ofNat size ≠ 0 := by
    intro h0
    rw [h0] at hnat
    exact absurd hnat (Nat.ne_of_lt hpos)
  subst heq
  have hdiff : st.calcOffs + size - st.calcOffs = size := by omega
  refine ⟨by omega, by omega, ?_, Or.inr ⟨_, rfl, fun _ => id⟩, fun h0 => by omega⟩
  rw [Nat.sub_self] at hpad
  rw [hdiff]
  cases hi : st.int8InProgress with
  | false =>
      rw [hi, pad_zero_false] at hpad
      cases hpad
      rw [pad_false _ hne, hnat]
  | true =>
      rw [hi, pad_zero_true] at hpad
      cases hpad
      have hsize3 : size ≤ 3 := hprev _ (hint8 rfl hi)
      have hle3 : UInt16.ofNat size ≤ 3 := by
        rw [UInt16.le_iff_toNat_le, hnat]
        exact hsize3
      rw [pad_true_le _ hne hle3, hnat]

/-- A real field: the pending gap is closed and the field itself is added, or
left pending as an `INT8`. -/
theorem Behind.addType {done : List FieldType} {prev : Option FieldType} {offs : Nat}
    {st : TypeState} (h : Behind done prev offs st) {t : FieldType} (ht : t.isReal = true)
    (hsize : SizeOk t) (hoffs : offs ≤ 65535) :
    ∃ st', addType st { type := descriptorType t, offset := UInt16.ofNat offs } = .ok st' ∧
      Behind (done ++ [t]) (some t) (offs + t.rowSize) st' := by
  have hnat := toNat_ofNat16 hoffs
  have hpad := h.pad_eq
  rw [← toUint16_sub h.le] at hpad
  -- `st'` is behind the field, with nothing pending or an `INT8` of one byte.
  have hplain : Behind (done ++ [t]) (some t) (offs + t.rowSize)
      { calcOffs := offs + t.rowSize, bld := done ++ [t], int8InProgress := false } :=
    { le := Nat.le_refl _, gap_le := by simp, pad_eq := by rw [Nat.sub_self]; rfl
      gap := Or.inl rfl, int8 := fun _ h => nomatch h }
  unfold Gbnl.addType
  simp only [hnat, validateField_of h.le, ok_bind, hpad]
  cases t with
  | int16 => exact ⟨_, rfl, hplain⟩
  | int32 => exact ⟨_, rfl, hplain⟩
  | int64 => exact ⟨_, rfl, hplain⟩
  | float => exact ⟨_, rfl, hplain⟩
  | offsetString => exact ⟨_, rfl, hplain⟩
  | int8 =>
      refine ⟨_, rfl, Nat.le_refl _, ?_, ?_, Or.inl rfl, fun _ _ => rfl⟩
      · change offs + 1 - (offs + 1) ≤ 65535
        omega
      · change pad (.ofNat (offs + 1 - (offs + 1))) done true = _
        rw [Nat.sub_self, pad_zero_true]
  | fixString size =>
      obtain ⟨hmin, hmax⟩ := hsize
      refine ⟨_, rfl, ?_, ?_, ?_, Or.inr ⟨_, rfl, fun _ => id⟩, ?_⟩
      · simp only [FieldType.rowSize]
        omega
      · simp only [FieldType.rowSize]
        omega
      · have hdiff : offs + (FieldType.fixString size).rowSize - (offs + 1) = size - 1 := by
          simp only [FieldType.rowSize]
          omega
        have hnat' := toNat_ofNat16 (show size - 1 ≤ 65535 by omega)
        have hgt : 3 < UInt16.ofNat (size - 1) := by
          rw [UInt16.lt_iff_toNat_lt, hnat']
          change 3 < size - 1
          omega
        simp only [hdiff]
        rw [pad_true_gt _ hgt, hnat', Nat.sub_add_cancel (by omega)]
      · intro h0
        simp only [FieldType.rowSize] at h0
        omega
  | padding size => cases ht

theorem readTypes_descriptors {e : Endian} {src : Source} {ts : List FieldType} :
    ∀ {done : List FieldType} {prev : Option FieldType} {offs : Nat} {st : TypeState} {pos : Nat},
    Behind done prev offs st → (prev.toList ++ ts).IsChain MayFollow →
    (∀ t ∈ ts, SizeOk t) → OffsetsFit offs ts →
    StandsAt ((descriptors offs ts).flatMap fun d => toBytes (fromNative d e)) pos src.bytes →
    ∃ st' prev' pos', readTypes e (ts.countP FieldType.isReal) st (src.at_ pos) =
        .ok (st', src.at_ pos') ∧
      Behind (done ++ ts) prev' (offs + totalSize ts) st' := by
  induction ts with
  | nil =>
      intro done prev offs st pos h _ _ _ _
      refine ⟨st, prev, pos, rfl, ?_⟩
      rwa [List.append_nil]
  | cons t ts ih =>
      intro done prev offs st pos h hchain hsizes hfit hstand
      have hsize := hsizes t List.mem_cons_self
      have htail : ∀ u ∈ ts, SizeOk u := fun u hu => hsizes u (List.mem_cons_of_mem t hu)
      have hprev : ∀ p, prev = some p → MayFollow p t := by
        rintro p rfl
        exact (List.isChain_cons_cons.mp hchain).1
      have hchain' : ((some t).toList ++ ts).IsChain MayFollow := by
        cases prev with
        | none => exact hchain
        | some p => exact (List.isChain_cons_cons.mp hchain).2
      have htotal : offs + totalSize (t :: ts) = offs + t.rowSize + totalSize ts := by
        simp only [totalSize, List.map_cons, List.sum_cons]
        omega
      rw [htotal]
      by_cases ht : t.isReal = true
      · rw [descriptors, if_pos ht, List.flatMap_cons] at hstand
        obtain ⟨st₁, hst₁, h₁⟩ := h.addType ht hsize hfit.1
        have hread := Source.readGen_of_standsAt (s := src) hstand.left
        have hlen := Pod.length_toBytes
          (fromNative { type := descriptorType t, offset := UInt16.ofNat offs : TypeDescriptor } e)
        obtain ⟨st', prev', pos', hst', h'⟩ := ih h₁ hchain' htail hfit.2 hstand.right
        refine ⟨st', prev', pos', ?_, by simpa using h'⟩
        rw [List.countP_cons_of_pos ht, readTypes, hread, ok_bind]
        simp only [toNative_fromNative, hst₁, ok_bind]
        rwa [← hlen]
      · have ht' : t.isReal = false := by simpa using ht
        rw [descriptors, if_neg ht] at hstand
        cases t with
        | padding size =>
            obtain ⟨st', prev', pos', hst', h'⟩ :=
              ih (h.padding hsize hprev) hchain' htail hfit.2 hstand
            rw [List.append_assoc, List.singleton_append] at h'
            refine ⟨st', prev', pos', ?_, h'⟩
            rwa [List.countP_cons_of_neg ht]
        | _ => cases ht'

/-- The list of types read from the descriptors written. -/
theorem types_roundTrip {e : Endian} {src : Source} {type : List FieldType}
    (hbuild : PadBuildable type) {pos : Nat}
    (hstand : StandsAt ((descriptors 0 type).flatMap fun d => toBytes (fromNative d e)) pos
      src.bytes) :
    ∃ st pos', readTypes e (type.countP FieldType.isReal)
        { calcOffs := 0, bld := [], int8InProgress := false } (src.at_ pos) =
        .ok (st, src.at_ pos') ∧
      pad (toUint16 (totalSize type - st.calcOffs)) st.bld st.int8InProgress =
        (type, false) := by
  obtain ⟨st, prev, pos', hst, h⟩ := readTypes_descriptors behind_start
    hbuild.chain hbuild.sizes hbuild.offsets hstand
  refine ⟨st, pos', hst, ?_⟩
  have hpad := h.pad_eq
  rw [← toUint16_sub h.le, Nat.zero_add] at hpad
  exact hpad

end Gbnl

end Neptools

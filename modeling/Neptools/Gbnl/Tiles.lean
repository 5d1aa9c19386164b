import Neptools.Gbnl.Repack

/-!
The descriptors of an accepted table and the fields that were made of them. The
differences of offsets pass through 16 bits, but only the last one can lose
anything there, and then the fields do not add up to the size of a row.
-/

namespace Neptools

open Lib

namespace Gbnl

/-- The fields with a descriptor of a list of types that starts at `offs`, and where
they start. -/
def described (offs : Nat) : List FieldType → List (UInt16 × Nat)
  | [] => []
  | t :: ts =>
      let rest := described (offs + t.rowSize) ts
      if t.isReal then (descriptorType t, offs) :: rest else rest

def TypeDescriptor.place (d : TypeDescriptor) : UInt16 × Nat := (d.type, d.offset.toNat)

/-- What the descriptors tell of comes one behind the other, from `offs` to `stop`. -/
def InOrder (stop : Nat) : Nat → List TypeDescriptor → Prop
  | offs, [] => offs ≤ stop
  | offs, d :: ds => ∃ size, getTypeSize d.type = .ok size ∧ offs ≤ d.offset.toNat ∧
      InOrder stop (d.offset.toNat + size) ds

/-- The field that is not added yet. -/
def pending (int8InProgress : Bool) : List FieldType := if int8InProgress then [.int8] else []

theorem totalSize_append (ts us : List FieldType) :
    totalSize (ts ++ us) = totalSize ts + totalSize us := by
  simp [totalSize]

theorem described_append (offs : Nat) (ts us : List FieldType) :
    described offs (ts ++ us) = described offs ts ++ described (offs + totalSize ts) us := by
  induction ts generalizing offs with
  | nil => rfl
  | cons t ts ih =>
      have htotal : offs + totalSize (t :: ts) = offs + t.rowSize + totalSize ts := by
        simp [totalSize, Nat.add_assoc]
      rw [List.cons_append, described, described, ih, htotal]
      split
      · rfl
      · rfl

/-- A gap adds its bytes and no descriptor. -/
theorem pad_spec (diff : UInt16) (bld : List FieldType) (b : Bool) :
    totalSize (pad diff bld b).1 = totalSize (bld ++ pending b) + diff.toNat ∧
      described 0 (pad diff bld b).1 = described 0 (bld ++ pending b) := by
  have hpadding (ts : List FieldType) :
      totalSize (if diff ≠ 0 then ts ++ [.padding diff.toNat] else ts) =
          totalSize ts + diff.toNat ∧
        described 0 (if diff ≠ 0 then ts ++ [.padding diff.toNat] else ts) = described 0 ts := by
    split
    · exact ⟨totalSize_append ts _, (described_append 0 ts _).trans (List.append_nil _)⟩
    · rename_i hzero
      rw [not_not.mp hzero]
      exact ⟨rfl, rfl⟩
  cases b with
  | false =>
      simp only [pad, pending, Bool.false_eq_true, false_and, if_false, List.append_nil]
      exact hpadding bld
  | true =>
      by_cases hlong : 3 < diff
      · rw [pad, if_pos ⟨rfl, hlong⟩, pending, if_pos rfl, totalSize_append, totalSize_append,
          described_append, described_append]
        refine ⟨?_, rfl⟩
        simp only [totalSize, List.map_singleton, List.sum_singleton, FieldType.rowSize]
        omega
      · rw [pad, if_neg fun h => hlong h.2, pending, if_pos rfl, if_pos rfl]
        exact hpadding (bld ++ [.int8])

theorem pad_snd (diff : UInt16) (bld : List FieldType) (b : Bool) : (pad diff bld b).2 = false := by
  rw [pad]
  split
  · rfl
  · rfl

/-- One descriptor closes the gap in front of it and makes one field. -/
theorem addType_spec {st st' : TypeState} {desc : TypeDescriptor} (h : addType st desc = .ok st') :
    st.calcOffs ≤ desc.offset.toNat ∧
      ∃ t : FieldType, t.isReal = true ∧ descriptorType t = desc.type ∧
        getTypeSize desc.type = .ok t.rowSize ∧ st'.calcOffs = desc.offset.toNat + t.rowSize ∧
        st'.bld ++ pending st'.int8InProgress =
          (pad (UInt16.ofNat (desc.offset.toNat - st.calcOffs)) st.bld st.int8InProgress).1 ++
            [t] := by
  obtain ⟨_, hle, h⟩ := bind_eq_ok.mp h
  have hle : st.calcOffs ≤ desc.offset.toNat := require_eq_ok.mp hle
  refine ⟨hle, ?_⟩
  rw [toUint16_sub hle] at h
  have hdone := pad_snd (UInt16.ofNat (desc.offset.toNat - st.calcOffs)) st.bld st.int8InProgress
  generalize pad (UInt16.ofNat (desc.offset.toNat - st.calcOffs)) st.bld st.int8InProgress = padded
    at h hdone ⊢
  obtain ⟨bld, b⟩ := padded
  obtain rfl : b = false := hdone
  obtain ⟨size, hsize, h⟩ := bind_eq_ok.mp h
  rw [hsize]
  rw [getTypeSize] at hsize
  by_cases h8 : desc.type = TypeDescriptor.int8
  · simp only [if_pos h8] at h hsize
    obtain ⟨_, -, h⟩ := bind_eq_ok.mp h
    cases hsize
    cases h
    exact ⟨.int8, rfl, h8.symm, rfl, rfl, rfl⟩
  simp only [if_neg h8] at h hsize
  by_cases h16 : desc.type = TypeDescriptor.int16
  · simp only [if_pos h16] at h hsize
    cases hsize
    cases h
    exact ⟨.int16, rfl, h16.symm, rfl, rfl, List.append_nil _⟩
  simp only [if_neg h16] at h hsize
  by_cases h32 : desc.type = TypeDescriptor.int32
  · simp only [if_pos h32] at h hsize
    cases hsize
    cases h
    exact ⟨.int32, rfl, h32.symm, rfl, rfl, List.append_nil _⟩
  simp only [if_neg h32] at h hsize
  by_cases h64 : desc.type = TypeDescriptor.int64
  · simp only [if_pos h64] at h hsize
    cases hsize
    cases h
    exact ⟨.int64, rfl, h64.symm, rfl, rfl, List.append_nil _⟩
  simp only [if_neg h64] at h hsize
  by_cases hfloat : desc.type = TypeDescriptor.float
  · simp only [if_pos hfloat] at h hsize
    cases hsize
    cases h
    exact ⟨.float, rfl, hfloat.symm, rfl, rfl, List.append_nil _⟩
  simp only [if_neg hfloat] at h hsize
  by_cases hstring : desc.type = TypeDescriptor.string
  · simp only [if_pos hstring] at h hsize
    cases hsize
    cases h
    exact ⟨.offsetString, rfl, hstring.symm, rfl, rfl, List.append_nil _⟩
  · simp only [if_neg hstring] at hsize
    cases hsize

/-- The fields made so far, with the one that is not added yet, tell what the descriptors
did. -/
structure Tiled (table : List TypeDescriptor) (st : TypeState) : Prop where
  total : totalSize (st.bld ++ pending st.int8InProgress) = st.calcOffs
  places : described 0 (st.bld ++ pending st.int8InProgress) = table.map TypeDescriptor.place

theorem Tiled.addType {table : List TypeDescriptor} {st st' : TypeState} {desc : TypeDescriptor}
    (htiled : Tiled table st) (h : addType st desc = .ok st') : Tiled (table ++ [desc]) st' := by
  obtain ⟨hle, t, hreal, htype, -, hoffs, hbld⟩ := addType_spec h
  obtain ⟨htotal, hplaces⟩ := pad_spec (UInt16.ofNat (desc.offset.toNat - st.calcOffs)) st.bld
    st.int8InProgress
  have hlt := desc.offset.toNat_lt
  rw [htiled.total, toNat_ofNat16 (by omega), Nat.add_sub_cancel' hle] at htotal
  constructor
  · rw [hbld, hoffs, totalSize_append, htotal]
    rfl
  · rw [hbld, described_append, htotal, hplaces, htiled.places, List.map_append, Nat.zero_add,
      described, if_pos hreal, htype]
    rfl

/-- The last gap loses nothing if the fields add up to the size of a row. -/
theorem Tiled.pad {table : List TypeDescriptor} {st : TypeState} (htiled : Tiled table st)
    {size : Nat} (h : totalSize (pad (toUint16 (size - st.calcOffs)) st.bld st.int8InProgress).1 =
      size) :
    st.calcOffs ≤ size ∧
      described 0 (pad (toUint16 (size - st.calcOffs)) st.bld st.int8InProgress).1 =
        table.map TypeDescriptor.place := by
  obtain ⟨htotal, hplaces⟩ := pad_spec (toUint16 (size - st.calcOffs)) st.bld st.int8InProgress
  rw [htiled.total] at htotal
  exact ⟨by omega, hplaces.trans htiled.places⟩

theorem InOrder.mono {stop stop' : Nat} (hle : stop ≤ stop') {table : List TypeDescriptor} :
    ∀ {offs : Nat}, InOrder stop offs table → InOrder stop' offs table := by
  induction table with
  | nil => exact fun h => h.trans hle
  | cons d ds ih => exact fun ⟨size, hsize, hoffs, hrest⟩ => ⟨size, hsize, hoffs, ih hrest⟩

end Gbnl

end Neptools

import Neptools.Stcm.Header

/-!
What the checks of an STCM file say about the places it refers to, over numbers
without bound. A product or a sum that wraps around is smaller than the one it
stands for, and a difference that wraps around lets everything pass.
-/

namespace Neptools

open Lib

namespace Stcm

/-- A table of `size` bytes at `offset` ends in the file. -/
def Fits (fileSize offset size : Nat) : Prop := offset + size ≤ fileSize

/-- The difference does not wrap around, and the product neither, unless there is
room for the table anyway. -/
def Unwrapped (fileSize offset size : Nat) : Prop :=
  size ≤ fileSize ∧ (size < 2 ^ 32 ∨ offset ≤ fileSize - size)

instance (fileSize offset size : Nat) : Decidable (Unwrapped fileSize offset size) :=
  inferInstanceAs (Decidable (_ ∧ _))

theorem fits_iff {fileSize offset size : Nat} (hfile : fileSize < 2 ^ 64)
    (h : offset < roomBefore fileSize (size % 2 ^ 32)) :
    Fits fileSize offset size ↔ Unwrapped fileSize offset size := by
  rw [Fits, Unwrapped]
  constructor
  · intro hfits
    exact ⟨by omega, Or.inr (by omega)⟩
  · rintro ⟨hle, hwrap | hroom⟩
    · rw [Nat.mod_eq_of_lt hwrap, roomBefore] at h
      have hsub : (fileSize + 2 ^ 64 - size) % 2 ^ 64 = fileSize - size := by
        rw [Nat.add_comm, Nat.add_sub_assoc hle, Nat.add_mod_left, Nat.mod_eq_of_lt (by omega)]
      omega
    · omega

theorem toNat_mul (size count : UInt32) :
    (size * count).toNat = size.toNat * count.toNat % 2 ^ 32 := UInt32.toNat_mul size count

namespace HeaderItem.Header

def TablesFit (h : Header) (fileSize : Nat) : Prop :=
  Fits fileSize h.exportOffset.toNat (0x28 * h.exportCount.toNat) ∧
    Fits fileSize h.expansionOffset.toNat (0x50 * h.expansionCount.toNat)

theorem tablesFit_iff [FixedString] {h : Header} {fileSize : UInt64}
    (hvalid : h.validate fileSize.toNat = .ok ()) :
    h.TablesFit fileSize.toNat ↔
      Unwrapped fileSize.toNat h.exportOffset.toNat (0x28 * h.exportCount.toNat) ∧
        Unwrapped fileSize.toNat h.expansionOffset.toNat (0x50 * h.expansionCount.toNat) := by
  have hv := validate_eq_ok.mp hvalid
  have hexports := hv.exports
  have hexpansions := hv.expansions
  rw [toNat_mul] at hexports hexpansions
  exact and_congr (fits_iff fileSize.toNat_lt hexports) (fits_iff fileSize.toNat_lt hexpansions)

end HeaderItem.Header

namespace InstructionItem

open Parameter

theorem value_lt (x : UInt32) : (value x).toNat < 2 ^ 30 := by
  rw [value, UInt32.toNat_and]
  exact Nat.and_lt_two_pow _ (by decide)

theorem toNat_add_of_lt {x n : UInt32} (h : x.toNat + n.toNat < 2 ^ 32) :
    (x + n).toNat = x.toNat + n.toNat := by
  rw [UInt32.toNat_add, Nat.mod_eq_of_lt h]

/-- The place in the file that a 48 word carries, with the size of its record. -/
def offsets48 (x : UInt32) : List (Nat × Nat) :=
  if typeTag x = Type48.memOffset then [((value x).toNat, 16)] else []

/-- The places in the file that a parameter carries. -/
def Parameter.offsets (p : Parameter) : List (Nat × Nat) :=
  if typeTag p.param0 = Type0.memOffset then
    ((value p.param0).toNat, 0) :: (offsets48 p.param4 ++ offsets48 p.param8)
  else if typeTag p.param0 = Type0.indirect then offsets48 p.param8
  else if p.param0 = Type0Special.instrPtr0 ∨ p.param0 = Type0Special.instrPtr1 then
    [(p.param4.toNat, 0)]
  else if p.param0 = Type0Special.collLink then [(p.param4.toNat, 8)]
  else if p.param0 = Type0Special.expansion then [(p.param4.toNat, 80)]
  else []

def OffsetsFit (fileSize : Nat) (offsets : List (Nat × Nat)) : Prop :=
  ∀ o ∈ offsets, o.1 + o.2 < fileSize

theorem offsetsFit_append {fileSize : Nat} {os os' : List (Nat × Nat)}
    (h : OffsetsFit fileSize os) (h' : OffsetsFit fileSize os') :
    OffsetsFit fileSize (os ++ os') := fun o ho =>
  (List.mem_append.mp ho).elim (h o) (h' o)

/-- The end of a record that a special parameter refers to is a 32-bit number, or
in the file anyway. -/
def Parameter.Unwrapped (p : Parameter) (fileSize : Nat) : Prop :=
  (p.param0 = Type0Special.collLink →
    p.param4.toNat + 8 < 2 ^ 32 ∨ p.param4.toNat + 8 < fileSize) ∧
  (p.param0 = Type0Special.expansion →
    p.param4.toNat + 80 < 2 ^ 32 ∨ p.param4.toNat + 80 < fileSize)

/-- A value has 30 bits, so nothing wraps around in a 48 word. -/
theorem offsetsFit48 {x : UInt32} {fileSize : Nat} (h : validate48 x fileSize = .ok ()) :
    OffsetsFit fileSize (offsets48 x) := by
  rw [validate48] at h
  rw [offsets48]
  split
  · rename_i htag
    rw [if_pos htag] at h
    intro o ho
    cases List.mem_singleton.mp ho
    have hlt := value_lt x
    have hsum : (value x + 16).toNat = (value x).toNat + 16 :=
      toNat_add_of_lt (show (value x).toNat + 16 < 2 ^ 32 by omega)
    exact hsum ▸ require_eq_ok.mp h
  · exact fun o ho => nomatch ho

/-- What the checks accept, by the kind of the parameter. -/
inductive Parameter.Valid (fileSize : Nat) (p : Parameter) : Prop
  | memOffset (tag : typeTag p.param0 = Type0.memOffset)
      (target : (value p.param0).toNat < fileSize)
      (param4 : validate48 p.param4 fileSize = .ok ())
      (param8 : validate48 p.param8 fileSize = .ok ())
  | indirect (tag : typeTag p.param0 = Type0.indirect) (val : value p.param0 < 256)
      (param4 : p.param4 = 0x40000000) (param8 : validate48 p.param8 fileSize = .ok ())
  | read (tag : typeTag p.param0 = Type0.special)
      (range : Type0Special.readStackMin ≤ p.param0 ∧ p.param0 ≤ Type0Special.readStackMax ∨
        Type0Special.read4acMin ≤ p.param0 ∧ p.param0 ≤ Type0Special.read4acMax)
      (param4 : p.param4 = 0x40000000) (param8 : p.param8 = 0x40000000)
  | instrPtr (special : p.param0 = Type0Special.instrPtr0 ∨ p.param0 = Type0Special.instrPtr1)
      (target : p.param4.toNat < fileSize) (param8 : p.param8 = 0x40000000)
  | collLink (special : p.param0 = Type0Special.collLink)
      (target : (p.param4 + 8).toNat < fileSize) (param8 : p.param8 = 0)
  | expansion (special : p.param0 = Type0Special.expansion)
      (target : (p.param4 + 80).toNat < fileSize) (param8 : p.param8 = 0)

theorem Parameter.valid_of_validate {p : Parameter} {fileSize : Nat}
    (h : p.validate fileSize = .ok ()) : p.Valid fileSize := by
  rw [validate] at h
  simp only [check, validateField] at h
  split at h
  · rename_i htag
    obtain ⟨_, htarget, h⟩ := bind_eq_ok.mp h
    obtain ⟨_, h4, h8⟩ := bind_eq_ok.mp h
    exact .memOffset htag (require_eq_ok.mp htarget) h4 h8
  split at h
  · rename_i htag
    obtain ⟨_, hval, h8⟩ := bind_eq_ok.mp h
    obtain ⟨hval, h4⟩ := require_eq_ok.mp hval
    exact .indirect htag hval h4 h8
  split at h
  swap
  · exact (require_eq_ok.mp h).elim
  rename_i htag
  split at h
  · obtain ⟨_, h4, h8⟩ := bind_eq_ok.mp h
    exact .read htag ‹_› (require_eq_ok.mp h4) (require_eq_ok.mp h8)
  split at h
  · obtain ⟨_, htarget, h8⟩ := bind_eq_ok.mp h
    exact .instrPtr ‹_› (require_eq_ok.mp htarget) (require_eq_ok.mp h8)
  split at h
  · obtain ⟨_, htarget, h8⟩ := bind_eq_ok.mp h
    exact .collLink ‹_› (require_eq_ok.mp htarget) (require_eq_ok.mp h8)
  split at h
  · obtain ⟨_, htarget, h8⟩ := bind_eq_ok.mp h
    exact .expansion ‹_› (require_eq_ok.mp htarget) (require_eq_ok.mp h8)
  · exact (require_eq_ok.mp h).elim

/-- The check of a record behind a special parameter. -/
theorem fits_of_check {x n : UInt32} {fileSize : Nat} (h : (x + n).toNat < fileSize) :
    x.toNat + n.toNat < fileSize ↔
      x.toNat + n.toNat < 2 ^ 32 ∨ x.toNat + n.toNat < fileSize := by
  refine ⟨Or.inr, fun hfit => hfit.elim (fun hlt => ?_) id⟩
  rwa [← toNat_add_of_lt hlt]

theorem offsetsFit_singleton {fileSize : Nat} {o : Nat × Nat} :
    OffsetsFit fileSize [o] ↔ o.1 + o.2 < fileSize := by
  simp only [OffsetsFit, List.mem_singleton, forall_eq]

/-- Only the last kinds of parameters refer to records. -/
theorem Parameter.unwrapped_of_ne {p : Parameter} {fileSize : Nat}
    (hlink : p.param0 ≠ Type0Special.collLink) (hexp : p.param0 ≠ Type0Special.expansion) :
    p.Unwrapped fileSize := ⟨fun h => absurd h hlink, fun h => absurd h hexp⟩

theorem Parameter.offsetsFit_iff {p : Parameter} {fileSize : Nat}
    (hvalid : p.validate fileSize = .ok ()) :
    OffsetsFit fileSize p.offsets ↔ p.Unwrapped fileSize := by
  have hne : ∀ {tag x : UInt32}, typeTag p.param0 = tag → typeTag x ≠ tag → p.param0 ≠ x :=
    fun htag hx h => hx (h ▸ htag)
  cases valid_of_validate hvalid with
  | memOffset htag htarget h4 h8 =>
      refine iff_of_true ?_ (unwrapped_of_ne (hne htag (by decide)) (hne htag (by decide)))
      rw [Parameter.offsets, if_pos htag]
      exact List.forall_mem_cons.mpr
        ⟨htarget, offsetsFit_append (offsetsFit48 h4) (offsetsFit48 h8)⟩
  | indirect htag hval h4 h8 =>
      refine iff_of_true ?_ (unwrapped_of_ne (hne htag (by decide)) (hne htag (by decide)))
      rw [Parameter.offsets, htag, if_neg (by decide), if_pos rfl]
      exact offsetsFit48 h8
  | read htag hrange h4 h8 =>
      have hout : ∀ x : UInt32, ¬ (Type0Special.readStackMin ≤ x ∧ x ≤ Type0Special.readStackMax ∨
          Type0Special.read4acMin ≤ x ∧ x ≤ Type0Special.read4acMax) → p.param0 ≠ x :=
        fun x hx h => hx (h ▸ hrange)
      have hlink := hout Type0Special.collLink (by decide)
      have hexp := hout Type0Special.expansion (by decide)
      have hptr : ¬ (p.param0 = Type0Special.instrPtr0 ∨ p.param0 = Type0Special.instrPtr1) :=
        not_or.mpr ⟨hout _ (by decide), hout _ (by decide)⟩
      refine iff_of_true ?_ (unwrapped_of_ne hlink hexp)
      rw [Parameter.offsets, htag, if_neg (by decide), if_neg (by decide), if_neg hptr,
        if_neg hlink, if_neg hexp]
      exact fun o ho => nomatch ho
  | instrPtr hptr htarget h8 =>
      refine iff_of_true ?_ ?_
      · have hoffsets : p.offsets = [(p.param4.toNat, 0)] := by
          rw [Parameter.offsets]
          cases hptr with
          | inl h => rw [h]; rfl
          | inr h => rw [h]; rfl
        rw [hoffsets, offsetsFit_singleton]
        exact htarget
      · cases hptr with
        | inl h => exact unwrapped_of_ne (h ▸ by decide) (h ▸ by decide)
        | inr h => exact unwrapped_of_ne (h ▸ by decide) (h ▸ by decide)
  | collLink hlink htarget h8 =>
      have hoffsets : p.offsets = [(p.param4.toNat, 8)] := by
        rw [Parameter.offsets, hlink]
        rfl
      rw [hoffsets, offsetsFit_singleton, Parameter.Unwrapped, hlink]
      have hfit := fits_of_check htarget
      exact ⟨fun h => ⟨fun _ => hfit.mp h, fun h' => absurd h' (by decide)⟩,
        fun h => hfit.mpr (h.1 rfl)⟩
  | expansion hexp htarget h8 =>
      have hoffsets : p.offsets = [(p.param4.toNat, 80)] := by
        rw [Parameter.offsets, hexp]
        rfl
      rw [hoffsets, offsetsFit_singleton, Parameter.Unwrapped, hexp]
      have hfit := fits_of_check htarget
      exact ⟨fun h => ⟨fun h' => absurd h' (by decide), fun _ => hfit.mp h⟩,
        fun h => hfit.mpr (h.2 rfl)⟩

end InstructionItem

/-- What the two validations should say: tables and records end in the file. -/
theorem validate_fits_iff [FixedString] (fileSize : UInt64) (h : HeaderItem.Header)
    (p : InstructionItem.Parameter) :
    (h.validate fileSize.toNat = .ok () →
      (h.TablesFit fileSize.toNat ↔
        Unwrapped fileSize.toNat h.exportOffset.toNat (0x28 * h.exportCount.toNat) ∧
          Unwrapped fileSize.toNat h.expansionOffset.toNat (0x50 * h.expansionCount.toNat))) ∧
    (p.validate fileSize.toNat = .ok () →
      (InstructionItem.OffsetsFit fileSize.toNat p.offsets ↔ p.Unwrapped fileSize.toNat)) :=
  ⟨HeaderItem.Header.tablesFit_iff, InstructionItem.Parameter.offsetsFit_iff⟩

/-- A header with one table, of `count` exports, at the end of the header. -/
def HeaderItem.Header.ofExports (count : UInt32) : HeaderItem.Header :=
  { magic := HeaderItem.magic, endian := 0x4c, msg := ⟨zeros 0x1a, length_zeros _⟩
    exportOffset := 0x3c, exportCount := count, field28 := 0, collectionLinkOffset := 0x3c
    field30 := 0, expansionOffset := 0, expansionCount := 0 }

def collLinkAt (pos : UInt32) : InstructionItem.Parameter :=
  { param0 := InstructionItem.Parameter.Type0Special.collLink, param4 := pos, param8 := 0 }

theorem validate_fits_of_room :
    ((HeaderItem.Header.ofExports 1).TablesFit 0x100 ↔
      Unwrapped 0x100 0x3c (0x28 * 1) ∧ Unwrapped 0x100 0 (0x50 * 0)) ∧
    (InstructionItem.OffsetsFit 0x100 (collLinkAt 0x3c).offsets ↔
      (collLinkAt 0x3c).Unwrapped 0x100) :=
  let fits := @validate_fits_iff FixedString.zeroTerminated 0x100 (.ofExports 1) (collLinkAt 0x3c)
  ⟨fits.1 (by decide), fits.2 (by decide)⟩

/-- Seven exports are longer than the file, so the difference wraps around; and the
end of the last record wraps around to the beginning of the file. -/
theorem validate_not_fits :
    (@HeaderItem.Header.validate FixedString.zeroTerminated (.ofExports 7) 0x100 = .ok () ∧
      ¬ (HeaderItem.Header.ofExports 7).TablesFit 0x100) ∧
    ((collLinkAt 0xfffffffc).validate 0x100 = .ok () ∧
      ¬ InstructionItem.OffsetsFit 0x100 (collLinkAt 0xfffffffc).offsets) := by
  refine ⟨⟨by decide, fun h => ?_⟩, by decide, fun h => ?_⟩
  · exact absurd h.1 (by unfold Fits; decide)
  · exact absurd (h _ List.mem_cons_self) (by decide)

end Stcm

end Neptools

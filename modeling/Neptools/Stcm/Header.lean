import Neptools.FixedString
import Neptools.Stcm.Parse

/-!
The header of an STCM file. Its checks compare 32-bit offsets with the size of
the file less the size of a table; the table's size is a 32-bit product, and the
difference one of 64 bits.
-/

namespace Neptools

open Lib

namespace Stcm

/-- `file_size - size`, of file positions. -/
def roomBefore (fileSize size : Nat) : Nat := (fileSize + 2 ^ 64 - size) % 2 ^ 64

def HeaderItem.Header.validate [FixedString] (h : HeaderItem.Header) (fileSize : Nat) :
    Except Error Unit := do
  validateField "Stcm::HeaderItem::Header" "memcmp(magic, \"STCM2\", 5) == 0"
    (h.magic = HeaderItem.magic)
  validateField "Stcm::HeaderItem::Header" "endian == 'L'" (h.endian = 0x4c)
  validateField "Stcm::HeaderItem::Header" "msg.is_valid()" (FixedString.isValid h.msg.1 = true)
  validateField "Stcm::HeaderItem::Header" "export_offset < file_size - 0x28*export_count"
    (h.exportOffset.toNat < roomBefore fileSize (0x28 * h.exportCount).toNat)
  validateField "Stcm::HeaderItem::Header" "collection_link_offset < file_size"
    (h.collectionLinkOffset.toNat < fileSize)
  validateField "Stcm::HeaderItem::Header" "field_30 == 0" (h.field30 = 0)
  validateField "Stcm::HeaderItem::Header" "expansion_count == 0 || expansion_offset != 0"
    (h.expansionCount = 0 ∨ h.expansionOffset ≠ 0)
  validateField "Stcm::HeaderItem::Header" "expansion_offset < file_size - 0x50*expansion_count"
    (h.expansionOffset.toNat < roomBefore fileSize (0x50 * h.expansionCount).toNat)

structure HeaderItem.Header.Valid [FixedString] (h : HeaderItem.Header) (fileSize : Nat) : Prop where
  magic : h.magic = HeaderItem.magic
  endian : h.endian = 0x4c
  msg : FixedString.isValid h.msg.1 = true
  exports : h.exportOffset.toNat < roomBefore fileSize (0x28 * h.exportCount).toNat
  collectionLink : h.collectionLinkOffset.toNat < fileSize
  field30 : h.field30 = 0
  expansionCount : h.expansionCount = 0 ∨ h.expansionOffset ≠ 0
  expansions : h.expansionOffset.toNat < roomBefore fileSize (0x50 * h.expansionCount).toNat

theorem HeaderItem.Header.validate_eq_ok [FixedString] {h : HeaderItem.Header} {fileSize : Nat} :
    h.validate fileSize = .ok () ↔ h.Valid fileSize := by
  simp only [validate, validateField, bind_eq_ok, require_eq_ok, exists_const]
  constructor
  · rintro ⟨h₁, h₂, h₃, h₄, h₅, h₆, h₇, h₈⟩
    exact ⟨h₁, h₂, h₃, h₄, h₅, h₆, h₇, h₈⟩
  · rintro ⟨h₁, h₂, h₃, h₄, h₅, h₆, h₇, h₈⟩
    exact ⟨h₁, h₂, h₃, h₄, h₅, h₆, h₇, h₈⟩

end Stcm

end Neptools

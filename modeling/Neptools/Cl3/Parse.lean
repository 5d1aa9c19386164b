import Neptools.Cl3.Basic

/-!
Reading an archive. All file entries are read twice: first for the files, then
for the links between them. The links are read as they are in the file, in the
order of bytes of the machine.
-/

namespace Neptools

open Lib

namespace Cl3

namespace Header

def validate (h : Header) (fileSize : Nat) : Except Error Unit := do
  validateField "Cl3::Header" "memcmp(magic, \"CL3\", 3) == 0" (h.magic = Cl3.magic)
  validateField "Cl3::Header" "endian == 'L' || endian == 'B'" (h.endian = 0x4c ∨ h.endian = 0x42)
  validateField "Cl3::Header" "field_04 == 0" (h.field04 = 0)
  validateField "Cl3::Header" "field_08 == 3" (h.field08 = 3)
  validateField "Cl3::Header" "sections_offset + sections_count * sizeof(Section) <= file_size"
    (h.sectionsOffset.toNat + h.sectionsCount.toNat * sizeofSection ≤ fileSize)

end Header

variable [FixedString]

namespace Section

def validate (s : Section) (fileSize : Nat) : Except Error Unit := do
  validateField "Cl3::Section" "name.is_valid()" (FixedString.isValid s.name.1 = true)
  validateField "Cl3::Section" "data_offset <= file_size" (s.dataOffset.toNat ≤ fileSize)
  validateField "Cl3::Section" "data_offset + data_size <= file_size"
    ((s.dataOffset + s.dataSize).toNat ≤ fileSize)
  validateField "Cl3::Section" "field_2c == 0" (s.field2c = 0)
  validateField "Cl3::Section"
    "field_30 == 0 && field_34 == 0 && field_38 == 0 && field_3c == 0"
    (s.field30 = 0 ∧ s.field34 = 0 ∧ s.field38 = 0 ∧ s.field3c = 0)
  validateField "Cl3::Section"
    "field_40 == 0 && field_44 == 0 && field_48 == 0 && field_4c == 0"
    (s.field40 = 0 ∧ s.field44 = 0 ∧ s.field48 = 0 ∧ s.field4c = 0)

end Section

namespace FileEntry

def validate (e : FileEntry) (blockSize : UInt32) : Except Error Unit := do
  validateField "Cl3::FileEntry" "name.is_valid()" (FixedString.isValid e.name.1 = true)
  validateField "Cl3::FileEntry" "data_offset <= block_size" (e.dataOffset ≤ blockSize)
  validateField "Cl3::FileEntry" "data_offset + data_size <= block_size"
    (e.dataOffset + e.dataSize ≤ blockSize)
  validateField "Cl3::FileEntry" "field_214 == 0 && field_218 == 0 && field_21c == 0"
    (e.field214 = 0 ∧ e.field218 = 0 ∧ e.field21c = 0)
  validateField "Cl3::FileEntry"
    "field_220 == 0 && field_224 == 0 && field_228 == 0 && field_22c == 0"
    (e.field220 = 0 ∧ e.field224 = 0 ∧ e.field228 = 0 ∧ e.field22c = 0)

end FileEntry

def LinkEntry.validate (e : LinkEntry) (i fileCount : UInt32) : Except Error Unit := do
  validateField "Cl3::LinkEntry" "field_00 == 0" (e.field00 = 0)
  validateField "Cl3::LinkEntry" "linked_file_id < file_count" (e.linkedFileId < fileCount)
  validateField "Cl3::LinkEntry" "link_id == i" (e.linkId = i)
  validateField "Cl3::LinkEntry" "field_0c == 0" (e.field0c = 0)
  validateField "Cl3::LinkEntry"
    "field_10 == 0 && field_14 == 0 && field_18 == 0 && field_1c == 0"
    (e.field10 = 0 ∧ e.field14 = 0 ∧ e.field18 = 0 ∧ e.field1c = 0)

/-- What the sections tell. Without a section of links their offset is left
uninitialized. -/
structure Sections where
  fileOffset : UInt32
  fileCount : UInt32
  fileSize : UInt32
  linkOffset : Option UInt32

def addSection (secs : Sections) (sec : Section) : Except Error Sections :=
  if FixedString.cStr sec.name = fileCollection then
    pure { secs with fileOffset := sec.dataOffset, fileCount := sec.count
                     fileSize := sec.dataSize }
  else if FixedString.cStr sec.name = fileLink then do
    validateField "Cl3::Section" "sec.data_size == link_count * sizeof(LinkEntry)"
      (sec.dataSize.toNat = sec.count.toNat * sizeofLinkEntry)
    pure { secs with linkOffset := some sec.dataOffset }
  else pure secs

def readSections (endian : Endian) : Nat → Source → Sections → Except Error Sections
  | 0, _, secs => pure secs
  | n + 1, src, secs => do
      let (sec, src) ← src.readGen Section
      let sec := toNative sec endian
      sec.validate src.size
      let secs ← addSection secs sec
      readSections endian n src secs

def readEntries (endian : Endian) (fileOffset fileSize : UInt32) :
    Nat → Source → Entries → Except Error Entries
  | 0, _, es => pure es
  | n + 1, src, es => do
      let (e, src) ← src.readGen FileEntry
      let e := toNative e endian
      e.validate fileSize
      let data ← src.sub (fileOffset + e.dataOffset).toNat e.dataSize.toNat
      readEntries endian fileOffset fileSize n src
        (es.emplaceBack (FixedString.cStr e.name) e.field200 (some data.bytes))

/-- The inner loop over the links `i, …, i + n - 1` of the file at place `k`,
whose first link is `lbase`. -/
def readLinks (src : Source) (linkOffset : Option UInt32) (fileCount lbase : UInt32) (k : Nat) :
    (n i : Nat) → Entries → Except Error Entries
  | 0, _, es => pure es
  | n + 1, i, es => do
      match linkOffset with
      | none => throw .undefinedBehaviour
      | some linkOffset =>
          let le ← src.preadGen LinkEntry (linkOffset.toNat + i * sizeofLinkEntry)
          le.validate (UInt32.ofNat i - lbase) fileCount
          match es.list[le.linkedFileId.toNat]? with
          | none => throw .undefinedBehaviour
          | some target =>
              readLinks src (some linkOffset) fileCount lbase k n (i + 1)
                (es.addLink k (some target.id))

/-- The second loop over the file entries, from the one at place `k` on. -/
def readAllLinks (endian : Endian) (linkOffset : Option UInt32) (fileCount : UInt32) :
    (n k : Nat) → Source → Entries → Except Error Entries
  | 0, _, _, es => pure es
  | n + 1, k, src, es => do
      let (e, src) ← src.readGen FileEntry
      let e := toNative e endian
      require (k < es.list.length) Error.undefinedBehaviour
      let lend := e.linkStart + e.linkCount
      let es ← readLinks src linkOffset fileCount e.linkStart k
        (lend.toNat - e.linkStart.toNat) e.linkStart.toNat es
      readAllLinks endian linkOffset fileCount n (k + 1) src es

/-- The files of the sections. -/
def readFiles (endian : Endian) (src : Source) (secs : Sections) : Except Error Entries := do
  let src' ← src.seek secs.fileOffset.toNat
  let es ← readEntries endian secs.fileOffset secs.fileSize secs.fileCount.toNat src' .empty
  readAllLinks endian secs.linkOffset secs.fileCount secs.fileCount.toNat 0 src' es

def parse (src : Source) : Except Error Cl3 := do
  src.checkSize sizeofHeader
  let hdr ← src.preadGen Header 0
  let endian : Endian := if hdr.endian = 0x4c then .little else .big
  let hdr := toNative hdr endian
  hdr.validate src.size
  let src' ← src.seek hdr.sectionsOffset.toNat
  let secs ← readSections endian hdr.sectionsCount.toNat src'
    { fileOffset := 0, fileCount := 0, fileSize := 0, linkOffset := none }
  let entries ← readFiles endian src secs
  -- the sizes are not set before the first `Fixup`
  pure { endian, field14 := hdr.field14, entries, dataSize := 0, linkCount := 0 }

end Cl3

end Neptools

import Neptools.FixedString
import Neptools.Source
import Neptools.Sink.Basic
import Neptools.Lib.List
import Mathlib.Data.List.Nodup

/-!
Archives: named files in order, each with links to files of the same archive.
Files are found by name, links are weak references to the file objects. The
contents of a file stand for what its `Dump` writes after its `Fixup`.
-/

namespace Neptools

open Lib

namespace Cl3

export FixedString (zeroTerminated)

structure Header where
  magic : ByteArr 3
  endian : UInt8
  field04 : UInt32
  field08 : UInt32
  sectionsCount : UInt32
  sectionsOffset : UInt32
  field14 : UInt32
  deriving DecidableEq

namespace Header

def equivFields : Header ≃ ByteArr 3 × UInt8 × UInt32 × UInt32 × UInt32 × UInt32 × UInt32 where
  toFun h := (h.magic, h.endian, h.field04, h.field08, h.sectionsCount, h.sectionsOffset,
    h.field14)
  invFun := fun (magic, endian, field04, field08, sectionsCount, sectionsOffset, field14) =>
    { magic, endian, field04, field08, sectionsCount, sectionsOffset, field14 }
  left_inv _ := rfl
  right_inv _ := rfl

instance : Pod Header := Pod.ofEquiv equivFields

def reverse (hdr : Header) : Header :=
  { hdr with
    field04 := endianReverse hdr.field04
    field08 := endianReverse hdr.field08
    sectionsCount := endianReverse hdr.sectionsCount
    sectionsOffset := endianReverse hdr.sectionsOffset
    field14 := endianReverse hdr.field14 }

instance : EndianReverse Header where
  endianReverse := reverse
  endianReverse_endianReverse hdr := by simp only [reverse, endianReverse_endianReverse]

end Header

structure Section where
  name : ByteArr 0x20
  count : UInt32
  dataSize : UInt32
  dataOffset : UInt32
  field2c : UInt32
  field30 : UInt32
  field34 : UInt32
  field38 : UInt32
  field3c : UInt32
  field40 : UInt32
  field44 : UInt32
  field48 : UInt32
  field4c : UInt32
  deriving DecidableEq

namespace Section

def equivFields : Section ≃ ByteArr 0x20 × UInt32 × UInt32 × UInt32 × UInt32 × UInt32 ×
    UInt32 × UInt32 × UInt32 × UInt32 × UInt32 × UInt32 × UInt32 where
  toFun s := (s.name, s.count, s.dataSize, s.dataOffset, s.field2c, s.field30, s.field34,
    s.field38, s.field3c, s.field40, s.field44, s.field48, s.field4c)
  invFun := fun (name, count, dataSize, dataOffset, field2c, field30, field34, field38,
      field3c, field40, field44, field48, field4c) =>
    { name, count, dataSize, dataOffset, field2c, field30, field34, field38, field3c,
      field40, field44, field48, field4c }
  left_inv _ := rfl
  right_inv _ := rfl

instance : Pod Section := Pod.ofEquiv equivFields

def reverse (sec : Section) : Section :=
  { sec with
    count := endianReverse sec.count
    dataSize := endianReverse sec.dataSize
    dataOffset := endianReverse sec.dataOffset
    field2c := endianReverse sec.field2c
    field30 := endianReverse sec.field30
    field34 := endianReverse sec.field34
    field38 := endianReverse sec.field38
    field3c := endianReverse sec.field3c
    field40 := endianReverse sec.field40
    field44 := endianReverse sec.field44
    field48 := endianReverse sec.field48
    field4c := endianReverse sec.field4c }

instance : EndianReverse Section where
  endianReverse := reverse
  endianReverse_endianReverse sec := by simp only [reverse, endianReverse_endianReverse]

/-- A section of the given name and place, zero in all other fields. -/
def ofData [FixedString] (name : Bytes) (count dataSize dataOffset : UInt32) : Section :=
  { name := FixedString.assign 0x20 name, count, dataSize, dataOffset, field2c := 0
    field30 := 0, field34 := 0, field38 := 0, field3c := 0, field40 := 0, field44 := 0
    field48 := 0, field4c := 0 }

end Section

structure FileEntry where
  name : ByteArr 0x200
  field200 : UInt32
  dataOffset : UInt32
  dataSize : UInt32
  linkStart : UInt32
  linkCount : UInt32
  field214 : UInt32
  field218 : UInt32
  field21c : UInt32
  field220 : UInt32
  field224 : UInt32
  field228 : UInt32
  field22c : UInt32
  deriving DecidableEq

namespace FileEntry

def equivFields : FileEntry ≃ ByteArr 0x200 × UInt32 × UInt32 × UInt32 × UInt32 × UInt32 ×
    UInt32 × UInt32 × UInt32 × UInt32 × UInt32 × UInt32 × UInt32 where
  toFun e := (e.name, e.field200, e.dataOffset, e.dataSize, e.linkStart, e.linkCount,
    e.field214, e.field218, e.field21c, e.field220, e.field224, e.field228, e.field22c)
  invFun := fun (name, field200, dataOffset, dataSize, linkStart, linkCount, field214,
      field218, field21c, field220, field224, field228, field22c) =>
    { name, field200, dataOffset, dataSize, linkStart, linkCount, field214, field218,
      field21c, field220, field224, field228, field22c }
  left_inv _ := rfl
  right_inv _ := rfl

instance : Pod FileEntry := Pod.ofEquiv equivFields

def reverse (entry : FileEntry) : FileEntry :=
  { entry with
    field200 := endianReverse entry.field200
    dataOffset := endianReverse entry.dataOffset
    dataSize := endianReverse entry.dataSize
    linkStart := endianReverse entry.linkStart
    linkCount := endianReverse entry.linkCount
    field214 := endianReverse entry.field214
    field218 := endianReverse entry.field218
    field21c := endianReverse entry.field21c
    field220 := endianReverse entry.field220
    field224 := endianReverse entry.field224
    field228 := endianReverse entry.field228
    field22c := endianReverse entry.field22c }

instance : EndianReverse FileEntry where
  endianReverse := reverse
  endianReverse_endianReverse entry := by simp only [reverse, endianReverse_endianReverse]

end FileEntry

structure LinkEntry where
  field00 : UInt32
  linkedFileId : UInt32
  linkId : UInt32
  field0c : UInt32
  field10 : UInt32
  field14 : UInt32
  field18 : UInt32
  field1c : UInt32
  deriving DecidableEq

namespace LinkEntry

def equivFields : LinkEntry ≃ UInt32 × UInt32 × UInt32 × UInt32 × UInt32 × UInt32 × UInt32 ×
    UInt32 where
  toFun e := (e.field00, e.linkedFileId, e.linkId, e.field0c, e.field10, e.field14,
    e.field18, e.field1c)
  invFun := fun (field00, linkedFileId, linkId, field0c, field10, field14, field18, field1c) =>
    { field00, linkedFileId, linkId, field0c, field10, field14, field18, field1c }
  left_inv _ := rfl
  right_inv _ := rfl

instance : Pod LinkEntry := Pod.ofEquiv equivFields

def reverse (entry : LinkEntry) : LinkEntry :=
  { field00 := endianReverse entry.field00
    linkedFileId := endianReverse entry.linkedFileId
    linkId := endianReverse entry.linkId
    field0c := endianReverse entry.field0c
    field10 := endianReverse entry.field10
    field14 := endianReverse entry.field14
    field18 := endianReverse entry.field18
    field1c := endianReverse entry.field1c }

instance : EndianReverse LinkEntry where
  endianReverse := reverse
  endianReverse_endianReverse entry := by simp only [reverse, endianReverse_endianReverse]

/-- Link `linkId` of a file. -/
def toFile (linkedFileId linkId : UInt32) : LinkEntry :=
  { field00 := 0, linkedFileId, linkId, field0c := 0, field10 := 0, field14 := 0, field18 := 0
    field1c := 0 }

end LinkEntry

/-- A file of an archive. `id` tells file objects apart; a link is the object
it refers to, or nothing when that object is gone. -/
structure Entry where
  id : Nat
  name : Bytes
  field200 : UInt32
  links : List (Option Nat)
  src : Option Bytes
  deriving DecidableEq

def Entry.contents (e : Entry) : Bytes := e.src.getD []

/-- `e.src ? e.src->GetSize() : 0` -/
def Entry.srcSize (e : Entry) : Nat :=
  match e.src with
  | some data => data.length
  | none => 0

theorem Entry.srcSize_eq (e : Entry) : e.srcSize = e.contents.length := by
  rw [srcSize, contents]
  cases e.src with
  | none => rfl
  | some data => rfl

/-- The ordered map of the files. -/
structure Entries where
  list : List Entry
  names_nodup : (list.map Entry.name).Nodup
  ids_nodup : (list.map Entry.id).Nodup

def Entries.empty : Entries :=
  { list := [], names_nodup := List.nodup_nil, ids_nodup := List.nodup_nil }

/-- The id of a new file object. -/
def fresh (es : List Entry) : Nat := es.foldr (fun e n => max (e.id + 1) n) 0

theorem lt_fresh {es : List Entry} {e : Entry} (h : e ∈ es) : e.id < fresh es := by
  induction es with
  | nil => cases h
  | cons e' es ih =>
      rw [fresh, List.foldr_cons, ← fresh]
      rcases List.mem_cons.mp h with rfl | h
      · omega
      · have := ih h
        omega

/-- A new file at the end, unless there is one of that name. -/
def Entries.emplaceBack (es : Entries) (name : Bytes) (field200 : UInt32) (src : Option Bytes) :
    Entries :=
  if h : name ∈ es.list.map Entry.name then es
  else
    { list := es.list ++ [{ id := fresh es.list, name, field200, links := [], src }]
      names_nodup := by
        rw [List.map_append, List.map_singleton]
        refine List.nodup_append.mpr ⟨es.names_nodup, List.nodup_singleton _, fun a ha b hb heq => ?_⟩
        rw [heq, List.mem_singleton.mp hb] at ha
        exact h ha
      ids_nodup := by
        rw [List.map_append, List.map_singleton]
        refine List.nodup_append.mpr ⟨es.ids_nodup, List.nodup_singleton _, fun a ha b hb heq => ?_⟩
        obtain ⟨e, he, rfl⟩ := List.mem_map.mp ha
        have := lt_fresh he
        rw [heq, List.mem_singleton.mp hb] at this
        exact Nat.lt_irrefl _ this }

def Entry.addLink (link : Option Nat) (e : Entry) : Entry :=
  { e with links := e.links ++ [link] }

/-- A link of the file at place `k`. -/
def Entries.addLink (es : Entries) (k : Nat) (link : Option Nat) : Entries :=
  { list := es.list.modify k (Entry.addLink link)
    names_nodup := by
      rw [map_modify_of_eq (h := Entry.addLink link) fun _ => rfl]
      exact es.names_nodup
    ids_nodup := by
      rw [map_modify_of_eq (h := Entry.addLink link) fun _ => rfl]
      exact es.ids_nodup }

end Cl3

open Cl3

structure Cl3 where
  endian : Endian
  field14 : UInt32
  entries : Entries
  dataSize : Nat
  linkCount : UInt32

namespace Cl3

/-- `(x + PAD) & ~PAD`, where `~PAD` has 32 bits. -/
def roundUp (x : Nat) : Nat := (x + 0x3f) % 2 ^ 32 / 0x40 * 0x40

def sizeofHeader : Nat := 0x18
def sizeofSection : Nat := 0x50
def sizeofFileEntry : Nat := 0x230
def sizeofLinkEntry : Nat := 0x20

/-- The loop of `Fixup`. -/
def fixupEntries (dataSize : Nat) (linkCount : UInt32) : List Entry → Nat × UInt32
  | [] => (dataSize, linkCount)
  | e :: es =>
      fixupEntries (roundUp (dataSize + e.srcSize)) (linkCount + UInt32.ofNat e.links.length) es

def fixup (c : Cl3) : Cl3 :=
  let r := fixupEntries 0 0 c.entries.list
  { c with dataSize := r.1, linkCount := r.2 }

def getSize (c : Cl3) : Nat :=
  let ret := roundUp sizeofHeader
  let ret := roundUp (ret + sizeofSection * 2)
  let ret := roundUp (ret + sizeofFileEntry * c.entries.list.length)
  ret + c.dataSize + sizeofLinkEntry * c.linkCount.toNat

/-- The place of the file a link refers to. -/
def indexOf (es : List Entry) (link : Option Nat) : UInt32 :=
  match link with
  | none => 0xffffffff
  | some id =>
      match es.findIdx? (·.id = id) with
      | none => 0xffffffff
      | some i => UInt32.ofNat i

def magic : ByteArr 3 := ⟨[0x43, 0x4c, 0x33], rfl⟩

/-- "FILE_COLLECTION" -/
def fileCollection : Bytes :=
  [0x46, 0x49, 0x4c, 0x45, 0x5f, 0x43, 0x4f, 0x4c, 0x4c, 0x45, 0x43, 0x54, 0x49, 0x4f, 0x4e]

/-- "FILE_LINK" -/
def fileLink : Bytes := [0x46, 0x49, 0x4c, 0x45, 0x5f, 0x4c, 0x49, 0x4e, 0x4b]

/-- What is missing to a multiple of `PAD_BYTES`. -/
def padding (size : Nat) : Nat := (0x40 - size % 0x40) % 0x40

/-- The record of a file, with the offset of its contents and the number of its
first link. -/
def Entry.fileEntry [FixedString] (e : Entry) (offset linkI : UInt32) : FileEntry :=
  { name := FixedString.assign 0x200 e.name, field200 := e.field200, dataOffset := offset
    dataSize := UInt32.ofNat e.srcSize, linkStart := linkI
    linkCount := UInt32.ofNat e.links.length, field214 := 0, field218 := 0, field21c := 0
    field220 := 0, field224 := 0, field228 := 0, field22c := 0 }

/-- The loop over the file entries. -/
def dumpEntries [FixedString] (endian : Endian) (offset linkI : UInt32) : List Entry → List Sink.Call
  | [] => []
  | e :: es =>
      let fe := e.fileEntry offset linkI
      .write (toBytes (fromNative fe endian)) ::
        dumpEntries endian (UInt32.ofNat (roundUp (offset.toNat + e.srcSize)))
          (linkI + UInt32.ofNat e.links.length) es

def dumpData : List Entry → List Sink.Call
  | [] => []
  | e :: es =>
      match e.src with
      | none => dumpData es
      | some data => .write data :: .pad (padding data.length) :: dumpData es

/-- The loop over the links of a file. -/
def dumpEntryLinks (endian : Endian) (all : List Entry) (i : UInt32) :
    List (Option Nat) → Except Error (List Sink.Call)
  | [] => pure []
  | l :: ls => do
      let linkedFileId := indexOf all l
      require (linkedFileId ≠ 0xffffffff) (Error.runtimeError "Invalid file link")
      let rest ← dumpEntryLinks endian all (i + 1) ls
      pure (.write (toBytes (fromNative (LinkEntry.toFile linkedFileId i) endian)) :: rest)

def dumpLinks (endian : Endian) (all : List Entry) : List Entry → Except Error (List Sink.Call)
  | [] => pure []
  | e :: es => do
      let calls ← dumpEntryLinks endian all 0 e.links
      let rest ← dumpLinks endian all es
      pure (calls ++ rest)

def dump [FixedString] (c : Cl3) : Except Error (List Sink.Call) := do
  let es := c.entries.list
  let sectionsOffset := roundUp sizeofHeader
  let filesOffset := roundUp (sectionsOffset + sizeofSection * 2)
  let dataOffset := roundUp (filesOffset + sizeofFileEntry * es.length)
  let linkOffset := dataOffset + c.dataSize
  let hdr : Header :=
    { magic, endian := if c.endian = .little then 0x4c else 0x42, field04 := 0, field08 := 3
      sectionsCount := 2, sectionsOffset := UInt32.ofNat sectionsOffset, field14 := c.field14 }
  let files := Section.ofData fileCollection (UInt32.ofNat es.length)
    (UInt32.ofNat (linkOffset - filesOffset)) (UInt32.ofNat filesOffset)
  let links := Section.ofData fileLink c.linkCount
    (UInt32.ofNat (c.linkCount.toNat * sizeofLinkEntry)) (UInt32.ofNat linkOffset)
  let linkCalls ← dumpLinks c.endian es es
  pure ([.write (toBytes (fromNative hdr c.endian)), .pad (sectionsOffset - sizeofHeader),
      .write (toBytes (fromNative files c.endian)),
      -- it is the header that gets reversed here, once more, not the section
      .write (toBytes links),
      .pad (padding (2 * sizeofSection))] ++
    dumpEntries c.endian (UInt32.ofNat (dataOffset - filesOffset)) 0 es ++
    [.pad (padding (es.length * sizeofFileEntry))] ++ dumpData es ++ linkCalls)

end Cl3

end Neptools

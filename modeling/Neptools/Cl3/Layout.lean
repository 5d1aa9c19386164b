import Neptools.Cl3.Basic

/-!
The bytes of a written archive: header, the two sections, the file entries, the
contents of the files and the links, with the place where each of them stands.
-/

namespace Neptools

open Lib

namespace Cl3

theorem toNat_ofNat_of_lt {n : Nat} (h : n < 2 ^ 32) : (UInt32.ofNat n).toNat = n :=
  UInt32.toNat_ofNat'.trans (Nat.mod_eq_of_lt h)

/-- `x` rounded up to a multiple of `PAD_BYTES`. -/
def up (x : Nat) : Nat := (x + 0x3f) / 0x40 * 0x40

theorem roundUp_eq {x : Nat} (h : up x < 2 ^ 32) : roundUp x = up x := by
  rw [roundUp, up] at *
  omega

theorem up_add {x : Nat} (y : Nat) (h : x % 0x40 = 0) : up (x + y) = x + up y := by
  rw [up, up]
  omega

theorem add_padding (x : Nat) : x + padding x = up x := by
  rw [padding, up]
  omega

theorem up_mod (x : Nat) : up x % 0x40 = 0 := by
  rw [up]
  omega

theorem le_up (x : Nat) : x ≤ up x := by
  rw [up]
  omega

/-- The contents of all files, and the number of all links. -/
def dataLength (es : List Entry) : Nat := (es.map fun e => up e.contents.length).sum
def linkTotal (es : List Entry) : Nat := (es.map fun e => e.links.length).sum

@[simp] theorem dataLength_cons (e : Entry) (es : List Entry) :
    dataLength (e :: es) = up e.contents.length + dataLength es := by
  rw [dataLength, List.map_cons, List.sum_cons, ← dataLength]

@[simp] theorem linkTotal_cons (e : Entry) (es : List Entry) :
    linkTotal (e :: es) = e.links.length + linkTotal es := by
  rw [linkTotal, List.map_cons, List.sum_cons, ← linkTotal]

def filesOffset : Nat := 0x100
def dataOffset (c : Cl3) : Nat := up (filesOffset + sizeofFileEntry * c.entries.list.length)
def linkOffset (c : Cl3) : Nat := dataOffset c + dataLength c.entries.list

/-- The size of the file, however large it is. -/
def totalSize (c : Cl3) : Nat :=
  linkOffset c + sizeofLinkEntry * linkTotal c.entries.list

theorem fixupEntries_eq {es : List Entry} {dataSize : Nat} (linkCount : Nat)
    (hmod : dataSize % 0x40 = 0) (hsize : dataSize + dataLength es < 2 ^ 32) :
    fixupEntries dataSize (UInt32.ofNat linkCount) es =
      (dataSize + dataLength es, UInt32.ofNat (linkCount + linkTotal es)) := by
  induction es generalizing dataSize linkCount with
  | nil => rfl
  | cons e es ih =>
      rw [dataLength_cons] at hsize
      have hup := up_add e.contents.length hmod
      have hnext : roundUp (dataSize + e.srcSize) = dataSize + up e.contents.length := by
        rw [e.srcSize_eq, roundUp_eq (by omega), hup]
      have hmod' : (dataSize + up e.contents.length) % 0x40 = 0 := by
        have := up_mod e.contents.length
        omega
      rw [fixupEntries, hnext, ← UInt32.ofNat_add, ih _ hmod' (by omega), dataLength_cons, linkTotal_cons,
        Nat.add_assoc, Nat.add_assoc]

theorem linkOffset_le (c : Cl3) : linkOffset c ≤ totalSize c := Nat.le_add_right _ _

theorem fixup_eq {c : Cl3} (hsize : totalSize c < 2 ^ 32) :
    c.fixup = { c with
      dataSize := dataLength c.entries.list
      linkCount := UInt32.ofNat (linkTotal c.entries.list) } := by
  have hle := linkOffset_le c
  rw [linkOffset] at hle
  have h := @fixupEntries_eq c.entries.list 0 0 rfl (by omega)
  rw [Nat.zero_add, Nat.zero_add] at h
  rw [fixup]
  exact congrArg (fun r : Nat × UInt32 => { c with dataSize := r.1, linkCount := r.2 }) h

/-! The bytes of each part. -/

def Entry.dataBytes (e : Entry) : Bytes := e.contents ++ zeros (padding e.contents.length)

theorem length_dataBytes (e : Entry) : e.dataBytes.length = up e.contents.length := by
  rw [Entry.dataBytes, List.length_append, length_zeros, add_padding]

theorem bytesOf_dumpData (es : List Entry) :
    Sink.bytesOf (dumpData es) = es.flatMap Entry.dataBytes := by
  induction es with
  | nil => rfl
  | cons e es ih =>
      rw [dumpData, List.flatMap_cons, Entry.dataBytes, Entry.contents]
      cases e.src with
      | none => exact ih
      | some data =>
          simp only [Sink.bytesOf_cons, Sink.Call.bytes_write, Sink.Call.bytes_pad, ih,
            Option.getD_some, List.append_assoc]

theorem length_flatMap_dataBytes (es : List Entry) :
    (es.flatMap Entry.dataBytes).length = dataLength es := by
  induction es with
  | nil => rfl
  | cons e es ih =>
      rw [List.flatMap_cons, List.length_append, ih, length_dataBytes, dataLength_cons]

/-- The records of all files, the first with the given offset and first link. -/
def fileEntries [FixedString] (offset linkI : Nat) : List Entry → List FileEntry
  | [] => []
  | e :: es =>
      e.fileEntry (UInt32.ofNat offset) (UInt32.ofNat linkI) ::
        fileEntries (offset + up e.contents.length) (linkI + e.links.length) es

def recordBytes {α : Type} [Pod α] [EndianReverse α] (endian : Endian) (records : List α) : Bytes :=
  records.flatMap fun r => toBytes (fromNative r endian)

theorem recordBytes_append {α : Type} [Pod α] [EndianReverse α] (endian : Endian)
    (records records' : List α) : recordBytes endian (records ++ records') =
      recordBytes endian records ++ recordBytes endian records' := List.flatMap_append

theorem length_recordBytes {α : Type} [Pod α] [EndianReverse α] (endian : Endian)
    (records : List α) :
    (recordBytes endian records).length = Pod.size α * records.length := by
  induction records with
  | nil => rfl
  | cons r rs ih =>
      rw [recordBytes, List.flatMap_cons, List.length_append, ← recordBytes, ih,
        Pod.length_toBytes, List.length_cons, Nat.mul_succ, Nat.add_comm]

theorem length_fileEntries [FixedString] (offset linkI : Nat) (es : List Entry) :
    (fileEntries offset linkI es).length = es.length := by
  induction es generalizing offset linkI with
  | nil => rfl
  | cons e es ih => rw [fileEntries, List.length_cons, ih, List.length_cons]

theorem bytesOf_dumpEntries [FixedString] (endian : Endian) {es : List Entry} {offset : Nat} (linkI : Nat)
    (hmod : offset % 0x40 = 0) (hsize : offset + dataLength es < 2 ^ 32) :
    Sink.bytesOf (dumpEntries endian (UInt32.ofNat offset) (UInt32.ofNat linkI) es) =
      recordBytes endian (fileEntries offset linkI es) := by
  induction es generalizing offset linkI with
  | nil => rfl
  | cons e es ih =>
      rw [dataLength_cons] at hsize
      have hup := up_add e.contents.length hmod
      have hnext : roundUp ((UInt32.ofNat offset).toNat + e.srcSize) =
          offset + up e.contents.length := by
        rw [toNat_ofNat_of_lt (by omega), e.srcSize_eq, roundUp_eq (by omega), hup]
      have hmod' : (offset + up e.contents.length) % 0x40 = 0 := by
        have := up_mod e.contents.length
        omega
      rw [dumpEntries, hnext, ← UInt32.ofNat_add, Sink.bytesOf_cons, ih _ hmod' (by omega)]
      rfl

/-- The records of the links of a file. -/
def linkEntriesOf (all : List Entry) (links : List (Option Nat)) : List LinkEntry :=
  links.mapIdx fun i l => LinkEntry.toFile (indexOf all l) (UInt32.ofNat i)

def linkEntries (all es : List Entry) : List LinkEntry :=
  es.flatMap fun e => linkEntriesOf all e.links

theorem length_linkEntries (all es : List Entry) :
    (linkEntries all es).length = linkTotal es := by
  induction es with
  | nil => rfl
  | cons e es ih =>
      rw [linkEntries, List.flatMap_cons, List.length_append, ← linkEntries, ih, linkEntriesOf,
        List.length_mapIdx, linkTotal_cons]

/-- All links are to files of the archive. -/
def OwnLinks (c : Cl3) : Prop :=
  ∀ e ∈ c.entries.list, ∀ l ∈ e.links, ∃ t ∈ c.entries.list, l = some t.id

instance (c : Cl3) : Decidable (OwnLinks c) :=
  inferInstanceAs (Decidable (∀ e ∈ c.entries.list, ∀ l ∈ e.links, ∃ t ∈ c.entries.list,
    l = some t.id))

/-- A link to a file of the archive has its place. -/
theorem indexOf_of_mem {es : List Entry} {t : Entry} (ht : t ∈ es) :
    ∃ i, i < es.length ∧ indexOf es (some t.id) = UInt32.ofNat i ∧
      (es[i]?).map Entry.id = some t.id := by
  have hsome : (es.findIdx? (·.id = t.id)).isSome = true := by
    rw [List.findIdx?_isSome, List.any_eq_true]
    exact ⟨t, ht, decide_eq_true rfl⟩
  obtain ⟨i, hi⟩ := Option.isSome_iff_exists.mp hsome
  obtain ⟨hlt, hid, -⟩ := List.findIdx?_eq_some_iff_getElem.mp hi
  refine ⟨i, hlt, ?_, ?_⟩
  · rw [indexOf, hi]
  · rw [List.getElem?_eq_getElem hlt, Option.map_some]
    exact congrArg some (of_decide_eq_true hid)

theorem indexOf_ne {es : List Entry} {t : Entry} (ht : t ∈ es) (hlen : es.length < 2 ^ 32 - 1) :
    indexOf es (some t.id) ≠ 0xffffffff := by
  obtain ⟨i, hi, hindex, -⟩ := indexOf_of_mem ht
  intro heq
  have hnat := congrArg UInt32.toNat (hindex.symm.trans heq)
  rw [toNat_ofNat_of_lt (by omega)] at hnat
  have : (0xffffffff : UInt32).toNat = 2 ^ 32 - 1 := rfl
  omega

theorem dumpEntryLinks_eq (endian : Endian) {all : List Entry} (hlen : all.length < 2 ^ 32 - 1)
    {links : List (Option Nat)} (hown : ∀ l ∈ links, ∃ t ∈ all, l = some t.id) (i : Nat) :
    ∃ calls, dumpEntryLinks endian all (UInt32.ofNat i) links = .ok calls ∧
      Sink.bytesOf calls = recordBytes endian
        (links.mapIdx fun k l => LinkEntry.toFile (indexOf all l) (UInt32.ofNat (i + k))) := by
  induction links generalizing i with
  | nil => exact ⟨[], rfl, rfl⟩
  | cons l ls ih =>
      obtain ⟨t, ht, rfl⟩ := hown l List.mem_cons_self
      obtain ⟨calls, hcalls, hbytes⟩ :=
        ih (fun l hl => hown l (List.mem_cons_of_mem _ hl)) (i + 1)
      have hone : UInt32.ofNat i + 1 = UInt32.ofNat (i + 1) := (UInt32.ofNat_add i 1).symm
      refine ⟨.write (toBytes (fromNative (LinkEntry.toFile (indexOf all (some t.id))
        (UInt32.ofNat i)) endian)) :: calls, ?_, ?_⟩
      · rw [dumpEntryLinks, hone]
        simp only [require_of (indexOf_ne ht hlen), ok_bind, hcalls]
        rfl
      · rw [Sink.bytesOf_cons, hbytes, List.mapIdx_cons]
        simp only [Nat.add_assoc, Nat.add_comm 1]
        rfl

theorem dumpLinks_eq (endian : Endian) {all es : List Entry} (hlen : all.length < 2 ^ 32 - 1)
    (hown : ∀ e ∈ es, ∀ l ∈ e.links, ∃ t ∈ all, l = some t.id) :
    ∃ calls, dumpLinks endian all es = .ok calls ∧
      Sink.bytesOf calls = recordBytes endian (linkEntries all es) := by
  induction es with
  | nil => exact ⟨[], rfl, rfl⟩
  | cons e es ih =>
      obtain ⟨calls, hcalls, hbytes⟩ :=
        dumpEntryLinks_eq endian hlen (hown e List.mem_cons_self) 0
      obtain ⟨rest, hrest, hrestBytes⟩ := ih fun e he => hown e (List.mem_cons_of_mem _ he)
      have hcalls : dumpEntryLinks endian all 0 e.links = .ok calls := hcalls
      refine ⟨calls ++ rest, ?_, ?_⟩
      · rw [dumpLinks, hcalls, ok_bind, hrest]
        rfl
      · have hsplit : linkEntries all (e :: es) = linkEntriesOf all e.links ++ linkEntries all es :=
          List.flatMap_cons
        rw [Sink.bytesOf_append, hbytes, hrestBytes, hsplit, recordBytes_append, linkEntriesOf]
        simp only [Nat.zero_add]

def header (c : Cl3) : Header :=
  { magic, endian := if c.endian = .little then 0x4c else 0x42, field04 := 0, field08 := 3
    sectionsCount := 2, sectionsOffset := 0x40, field14 := c.field14 }

def filesSection [FixedString] (c : Cl3) : Section :=
  Section.ofData fileCollection (UInt32.ofNat c.entries.list.length)
    (UInt32.ofNat (linkOffset c - filesOffset)) (UInt32.ofNat filesOffset)

def linksSection [FixedString] (c : Cl3) : Section :=
  Section.ofData fileLink (UInt32.ofNat (linkTotal c.entries.list))
    (UInt32.ofNat (sizeofLinkEntry * linkTotal c.entries.list)) (UInt32.ofNat (linkOffset c))

/-- Header and sections. -/
def headBytes [FixedString] (c : Cl3) : Bytes :=
  toBytes (fromNative (header c) c.endian) ++ zeros 0x28 ++
    toBytes (fromNative (filesSection c) c.endian) ++ toBytes (linksSection c) ++ zeros 0x20

def entriesBytes [FixedString] (c : Cl3) : Bytes :=
  recordBytes c.endian (fileEntries (dataOffset c - filesOffset) 0 c.entries.list)

def linkBytes (c : Cl3) : Bytes :=
  recordBytes c.endian (linkEntries c.entries.list c.entries.list)

def image [FixedString] (c : Cl3) : Bytes :=
  headBytes c ++ entriesBytes c ++ zeros (padding (c.entries.list.length * sizeofFileEntry)) ++
    c.entries.list.flatMap Entry.dataBytes ++ linkBytes c

theorem length_headBytes [FixedString] (c : Cl3) : (headBytes c).length = filesOffset := by
  simp only [headBytes, List.length_append, Pod.length_toBytes, length_zeros]
  rfl

theorem length_entriesBytes [FixedString] (c : Cl3) :
    (entriesBytes c).length = sizeofFileEntry * c.entries.list.length := by
  rw [entriesBytes, length_recordBytes, length_fileEntries]
  rfl

theorem length_linkBytes (c : Cl3) :
    (linkBytes c).length = sizeofLinkEntry * linkTotal c.entries.list := by
  rw [linkBytes, length_recordBytes, length_linkEntries]
  rfl

theorem dataOffset_eq (c : Cl3) : dataOffset c = filesOffset +
    sizeofFileEntry * c.entries.list.length + padding (c.entries.list.length * sizeofFileEntry) := by
  have h := add_padding (c.entries.list.length * sizeofFileEntry)
  rw [dataOffset, up_add _ (by decide), ← Nat.mul_comm c.entries.list.length, ← h, Nat.add_assoc]

theorem length_image [FixedString] (c : Cl3) : (image c).length = totalSize c := by
  simp only [image, List.length_append, length_headBytes, length_entriesBytes, length_zeros,
    length_flatMap_dataBytes, length_linkBytes, totalSize, linkOffset, dataOffset_eq]

theorem files_le (c : Cl3) : filesOffset ≤ dataOffset c := by
  rw [dataOffset_eq, Nat.add_assoc]
  exact Nat.le_add_right _ _

theorem length_lt {c : Cl3} (hsize : totalSize c < 2 ^ 32) :
    c.entries.list.length < 2 ^ 32 - 1 := by
  have h := dataOffset_eq c
  have hle := linkOffset_le c
  rw [linkOffset] at hle
  simp only [filesOffset, sizeofFileEntry] at h
  omega

theorem roundUp_dataOffset {c : Cl3} (hsize : totalSize c < 2 ^ 32) :
    roundUp (roundUp (roundUp sizeofHeader + sizeofSection * 2) +
      sizeofFileEntry * c.entries.list.length) = dataOffset c := by
  have hle : dataOffset c ≤ linkOffset c := Nat.le_add_right _ _
  exact @roundUp_eq (filesOffset + sizeofFileEntry * c.entries.list.length)
    (hle.trans_lt ((linkOffset_le c).trans_lt hsize))

/-- What `Dump_` writes after `Fixup`. -/
theorem dump_fixup [FixedString] {c : Cl3} (hown : OwnLinks c) (hsize : totalSize c < 2 ^ 32) :
    ∃ calls, dump c.fixup = .ok calls ∧ Sink.bytesOf calls = image c := by
  have hlinks : linkOffset c + sizeofLinkEntry * linkTotal c.entries.list < 2 ^ 32 := hsize
  have hdata : dataOffset c + dataLength c.entries.list = linkOffset c := rfl
  have hfiles := files_le c
  obtain ⟨linkCalls, hcalls, hbytes⟩ := dumpLinks_eq c.endian (length_lt hsize) hown
  have hround := roundUp_dataOffset hsize
  have hmod : (dataOffset c - filesOffset) % 0x40 = 0 := by
    have hup : dataOffset c % 0x40 = 0 := up_mod _
    rw [filesOffset] at *
    omega
  have hlt : dataOffset c - filesOffset + dataLength c.entries.list < 2 ^ 32 := by omega
  have hentries := bytesOf_dumpEntries c.endian 0 hmod hlt
  have htotal : (UInt32.ofNat (linkTotal c.entries.list)).toNat = linkTotal c.entries.list :=
    toNat_ofNat_of_lt (by rw [sizeofLinkEntry] at hlinks; omega)
  rw [fixup_eq hsize, dump]
  simp only [hround, hdata, hcalls, ok_bind, htotal, pure_eq_ok]
  refine ⟨_, rfl, ?_⟩
  simp only [Sink.bytesOf_append, hbytes, bytesOf_dumpData, Sink.bytesOf_cons,
    Sink.bytesOf_nil, Sink.Call.bytes_write, Sink.Call.bytes_pad, List.append_nil]
  have hentries : Sink.bytesOf (dumpEntries c.endian (UInt32.ofNat (dataOffset c -
      roundUp (roundUp sizeofHeader + sizeofSection * 2))) 0 c.entries.list) = entriesBytes c :=
    hentries
  rw [hentries, image, headBytes, linksSection, Nat.mul_comm sizeofLinkEntry]
  simp only [List.append_assoc]
  rfl

/-! Where the parts stand. -/

theorem standsAt_headBytes [FixedString] (c : Cl3) : StandsAt (headBytes c) 0 (image c) :=
  ((((StandsAt.last [] (headBytes c)).append_buf _).append_buf _).append_buf _).append_buf _

theorem standsAt_header [FixedString] (c : Cl3) :
    StandsAt (toBytes (fromNative (header c) c.endian)) 0 (image c) :=
  (standsAt_headBytes c).left.left.left.left

theorem standsAt_filesSection [FixedString] (c : Cl3) :
    StandsAt (toBytes (fromNative (filesSection c) c.endian)) 0x40 (image c) := by
  have h := (standsAt_headBytes c).left.left.right
  simp only [List.length_append, Pod.length_toBytes, length_zeros] at h
  exact h

theorem standsAt_linksSection [FixedString] (c : Cl3) :
    StandsAt (toBytes (linksSection c)) 0x90 (image c) := by
  have h := (standsAt_headBytes c).left.right
  simp only [List.length_append, Pod.length_toBytes, length_zeros] at h
  exact h

theorem standsAt_entriesBytes [FixedString] (c : Cl3) : StandsAt (entriesBytes c) filesOffset (image c) := by
  have h := StandsAt.last (headBytes c) (entriesBytes c)
  rw [length_headBytes] at h
  exact ((h.append_buf _).append_buf _).append_buf _

theorem standsAt_data [FixedString] (c : Cl3) :
    StandsAt (c.entries.list.flatMap Entry.dataBytes) (dataOffset c) (image c) := by
  have h := StandsAt.last (headBytes c ++ entriesBytes c ++
    zeros (padding (c.entries.list.length * sizeofFileEntry)))
    (c.entries.list.flatMap Entry.dataBytes)
  rw [List.length_append, List.length_append, length_headBytes, length_entriesBytes,
    length_zeros, ← dataOffset_eq] at h
  exact h.append_buf _

theorem standsAt_linkBytes [FixedString] (c : Cl3) : StandsAt (linkBytes c) (linkOffset c) (image c) := by
  have h := StandsAt.last (headBytes c ++ entriesBytes c ++
    zeros (padding (c.entries.list.length * sizeofFileEntry)) ++
    c.entries.list.flatMap Entry.dataBytes) (linkBytes c)
  rw [List.length_append, List.length_append, List.length_append, length_headBytes,
    length_entriesBytes, length_zeros, length_flatMap_dataBytes, ← dataOffset_eq] at h
  exact h

/-- Each record stands where its number says. -/
theorem standsAt_record {α : Type} [Pod α] [EndianReverse α] {endian : Endian}
    {records : List α} {pos : Nat} {buf : Bytes}
    (h : StandsAt (recordBytes endian records) pos buf) {i : Nat} {r : α}
    (hr : records[i]? = some r) :
    StandsAt (toBytes (fromNative r endian)) (pos + Pod.size α * i) buf :=
  h.flatMap_of_length (fun _ _ => Pod.length_toBytes _) hr

end Cl3

end Neptools

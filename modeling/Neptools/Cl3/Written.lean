import Mathlib.Algebra.BigOperators.Ring.List
import Mathlib.Algebra.Ring.Nat
import Neptools.Cl3.Layout

/-!
What the fields of a written archive say of its parts. `Fixup`, `GetSize` and the
running offsets of `Dump_` compute one layout, so the entries, the contents and
the links are where the header, the sections and the entries have them.
-/

namespace Neptools

open Lib

namespace Cl3

/-- The file entries that `Dump_` makes. -/
def records [FixedString] (c : Cl3) : List FileEntry :=
  fileEntries (dataOffset c - filesOffset) 0 c.entries.list

/-- `out` is laid out as the header, the sections and the entries say. The section
of the links stands there as it is, in the order of the machine. -/
structure LaidOut (c : Cl3) (hdr : Header) (files links : Section) (fes : List FileEntry)
    (out : Bytes) : Prop where
  hdr_at : StandsAt (toBytes (fromNative hdr c.endian)) 0 out
  files_at : StandsAt (toBytes (fromNative files c.endian)) hdr.sectionsOffset.toNat out
  links_at : StandsAt (toBytes links) (hdr.sectionsOffset.toNat + sizeofSection) out
  /-- The entries are a table at the start of their section. -/
  count : files.count.toNat = c.entries.list.length
  length : fes.length = c.entries.list.length
  fes_at : ∀ (i : Nat) (fe : FileEntry), fes[i]? = some fe →
    StandsAt (toBytes (fromNative fe c.endian)) (files.dataOffset.toNat + sizeofFileEntry * i) out
  /-- The contents are behind it, each at a multiple of `PAD_BYTES`. -/
  contents_at : ∀ (i : Nat) (e : Entry), c.entries.list[i]? = some e → ∃ fe, fes[i]? = some fe ∧
    fe.dataSize.toNat = e.contents.length ∧ fe.dataOffset.toNat % 0x40 = 0 ∧
    (files.dataOffset.toNat + fe.dataOffset.toNat) % 0x40 = 0 ∧
    StandsAt e.contents (files.dataOffset.toNat + fe.dataOffset.toNat) out
  within : ∀ fe ∈ fes, sizeofFileEntry * files.count.toNat ≤ fe.dataOffset.toNat ∧
    fe.dataOffset.toNat + fe.dataSize.toNat ≤ files.dataSize.toNat
  apart : fes.Pairwise fun a b => a.dataOffset.toNat + a.dataSize.toNat ≤ b.dataOffset.toNat
  /-- The links are a table from the end of the contents to the end of the file. -/
  links_start : files.dataOffset.toNat + files.dataSize.toNat = links.dataOffset.toNat
  links_size : links.dataSize.toNat = sizeofLinkEntry * links.count.toNat
  links_end : links.dataOffset.toNat + links.dataSize.toNat = out.length
  rows_at : ∀ (i : Nat) (e : Entry), c.entries.list[i]? = some e → ∃ fe, fes[i]? = some fe ∧
    fe.linkCount.toNat = e.links.length ∧ ∀ (k : Nat) (l : Option Nat), e.links[k]? = some l →
      StandsAt (toBytes (fromNative
          (LinkEntry.toFile (indexOf c.entries.list l) (UInt32.ofNat k)) c.endian))
        (links.dataOffset.toNat + sizeofLinkEntry * (fe.linkStart.toNat + k)) out
  /-- Each of its rows is one of exactly one entry. -/
  rows_apart : fes.Pairwise fun a b => a.linkStart.toNat + a.linkCount.toNat ≤ b.linkStart.toNat
  rows : ∀ row, row < links.count.toNat ↔
    ∃ fe ∈ fes, fe.linkStart.toNat ≤ row ∧ row < fe.linkStart.toNat + fe.linkCount.toNat

theorem dataLength_mod (es : List Entry) : dataLength es % 0x40 = 0 := by
  induction es with
  | nil => rfl
  | cons e es ih =>
      have hup := up_mod e.contents.length
      rw [dataLength_cons]
      omega

theorem getElem?_fileEntries [FixedString] (offset linkI : Nat) (es : List Entry) (i : Nat) :
    (fileEntries offset linkI es)[i]? = (es[i]?).map fun e =>
      e.fileEntry (UInt32.ofNat (offset + dataLength (es.take i)))
        (UInt32.ofNat (linkI + linkTotal (es.take i))) := by
  induction es generalizing offset linkI i with
  | nil => rfl
  | cons e es ih =>
      cases i with
      | zero => rfl
      | succ i => simp [fileEntries, ih, Nat.add_assoc]

section

variable [FixedString] {c : Cl3} (hsize : totalSize c < 2 ^ 32)

include hsize

/-- The fields of the entry of a file. -/
theorem record_spec {i : Nat} {e : Entry} (he : c.entries.list[i]? = some e) :
    ∃ fe, (records c)[i]? = some fe ∧
      fe.dataOffset.toNat = dataOffset c - filesOffset + dataLength (c.entries.list.take i) ∧
      fe.dataSize.toNat = e.contents.length ∧
      fe.linkStart.toNat = linkTotal (c.entries.list.take i) ∧
      fe.linkCount.toNat = e.links.length := by
  have hdata : dataLength (c.entries.list.take i) + up e.contents.length ≤
      dataLength c.entries.list := sum_take_add_le_sum he
  have hlinks : linkTotal (c.entries.list.take i) + e.links.length ≤
      linkTotal c.entries.list := sum_take_add_le_sum he
  have hup := le_up e.contents.length
  have hsrc := e.srcSize_eq
  have hfiles := files_le c
  rw [totalSize, linkOffset, sizeofLinkEntry] at hsize
  refine ⟨_, by rw [records, getElem?_fileEntries, he]; rfl, ?_, ?_, ?_, ?_⟩
  · exact toNat_ofNat_of_lt (by omega)
  · exact (toNat_ofNat_of_lt (by omega)).trans hsrc
  · rw [Nat.zero_add]
    exact toNat_ofNat_of_lt (by omega)
  · exact toNat_ofNat_of_lt (by omega)

/-- The entry of a file, and the file of an entry. -/
theorem exists_of_record {i : Nat} {fe : FileEntry} (hfe : (records c)[i]? = some fe) :
    ∃ e, c.entries.list[i]? = some e ∧
      fe.dataOffset.toNat = dataOffset c - filesOffset + dataLength (c.entries.list.take i) ∧
      fe.dataSize.toNat = e.contents.length ∧
      fe.linkStart.toNat = linkTotal (c.entries.list.take i) ∧
      fe.linkCount.toNat = e.links.length := by
  have hget := hfe
  rw [records, getElem?_fileEntries] at hget
  obtain ⟨e, he, -⟩ := Option.map_eq_some_iff.mp hget
  obtain ⟨fe', hfe', hspec⟩ := record_spec hsize he
  obtain rfl := Option.some.inj (hfe.symm.trans hfe')
  exact ⟨e, he, hspec⟩

/-- The entries are in the order of what they stand for. -/
theorem records_pairwise {start size : FileEntry → Nat} (f : Entry → Nat) (base : Nat)
    (hstart : ∀ (i : Nat) fe, (records c)[i]? = some fe →
      start fe = base + ((c.entries.list.take i).map f).sum)
    (hsize' : ∀ (i : Nat) fe e, (records c)[i]? = some fe → c.entries.list[i]? = some e →
      size fe ≤ f e) :
    (records c).Pairwise fun a b => start a + size a ≤ start b := by
  refine List.pairwise_iff_getElem.mpr fun i j hi hj hlt => ?_
  have hfi := List.getElem?_eq_getElem hi
  have hfj := List.getElem?_eq_getElem hj
  obtain ⟨e, he, -⟩ := exists_of_record hsize hfi
  have hle := @sum_take_add_le _ f _ _ _ _ he hlt
  have hsize := hsize' i _ e hfi he
  have hi := hstart i _ hfi
  have hj := hstart j _ hfj
  omega

theorem filesSection_spec :
    (filesSection c).count.toNat = c.entries.list.length ∧
      (filesSection c).dataOffset.toNat = filesOffset ∧
      (filesSection c).dataSize.toNat = linkOffset c - filesOffset := by
  have hlength := length_lt hsize
  have hle := linkOffset_le c
  exact ⟨toNat_ofNat_of_lt (by omega), rfl, toNat_ofNat_of_lt (by omega)⟩

theorem linksSection_spec :
    (linksSection c).count.toNat = linkTotal c.entries.list ∧
      (linksSection c).dataOffset.toNat = linkOffset c ∧
      (linksSection c).dataSize.toNat = sizeofLinkEntry * linkTotal c.entries.list := by
  rw [totalSize, sizeofLinkEntry] at hsize
  exact ⟨toNat_ofNat_of_lt (by omega), toNat_ofNat_of_lt (by omega),
    toNat_ofNat_of_lt (by rw [sizeofLinkEntry]; omega)⟩

theorem getSize_fixup : c.fixup.getSize = totalSize c := by
  have htotal := (linksSection_spec hsize).1
  rw [fixup_eq hsize]
  simp only [getSize, roundUp_dataOffset hsize]
  exact congrArg (dataOffset c + dataLength c.entries.list + sizeofLinkEntry * ·) htotal

end

/-- The contents of a file stand behind those of the files in front of it. -/
theorem standsAt_contents [FixedString] {c : Cl3} {i : Nat} {e : Entry} (he : c.entries.list[i]? = some e) :
    StandsAt e.contents (dataOffset c + dataLength (c.entries.list.take i)) (image c) := by
  have h := (standsAt_data c).flatMap he
  simp only [length_dataBytes] at h
  exact h.left

theorem standsAt_link [FixedString] {c : Cl3} {i k : Nat} {e : Entry} {l : Option Nat}
    (he : c.entries.list[i]? = some e) (hl : e.links[k]? = some l) :
    StandsAt (toBytes (fromNative
        (LinkEntry.toFile (indexOf c.entries.list l) (UInt32.ofNat k)) c.endian))
      (linkOffset c + sizeofLinkEntry * (linkTotal (c.entries.list.take i) + k)) (image c) := by
  have hbytes : linkBytes c = c.entries.list.flatMap fun e =>
      recordBytes c.endian (linkEntriesOf c.entries.list e.links) := List.flatMap_assoc
  have hrows := standsAt_linkBytes c
  rw [hbytes] at hrows
  have hlength : ∀ e : Entry, (recordBytes c.endian
      (linkEntriesOf c.entries.list e.links)).length = sizeofLinkEntry * e.links.length := by
    intro e
    rw [length_recordBytes, linkEntriesOf, List.length_mapIdx]
    rfl
  have hentry : (linkEntriesOf c.entries.list e.links)[k]? =
      some (LinkEntry.toFile (indexOf c.entries.list l) (UInt32.ofNat k)) := by
    simp [linkEntriesOf, hl]
  have hsum : ((c.entries.list.take i).map fun e => sizeofLinkEntry * e.links.length).sum =
      sizeofLinkEntry * linkTotal (c.entries.list.take i) := List.sum_map_mul_left _ _ _
  have hrow := standsAt_record (hrows.flatMap he) hentry
  simp only [hlength, hsum] at hrow
  rw [Nat.mul_add, ← Nat.add_assoc]
  exact hrow

/-- `Dump_` writes `GetSize()` bytes after `Fixup`, and all that it writes is where the
fields it computes say. -/
theorem dump_laidOut [FixedString] {c : Cl3} (hown : OwnLinks c) (hsize : totalSize c < 2 ^ 32) :
    ∃ calls, dump c.fixup = .ok calls ∧ (Sink.bytesOf calls).length = c.fixup.getSize ∧
      LaidOut c (header c) (filesSection c) (linksSection c) (records c)
        (Sink.bytesOf calls) := by
  obtain ⟨calls, hcalls, hbytes⟩ := dump_fixup hown hsize
  refine ⟨calls, hcalls, ?_, ?_⟩
  · rw [hbytes, length_image, getSize_fixup hsize]
  rw [hbytes]
  have hfiles := files_le c
  have hmod : dataOffset c % 0x40 = 0 := up_mod _
  obtain ⟨hcount, hoffset, hdata⟩ := filesSection_spec hsize
  obtain ⟨htotal, hlinks, hlinksSize⟩ := linksSection_spec hsize
  constructor
  case hdr_at => exact standsAt_header c
  case files_at => exact standsAt_filesSection c
  case links_at => exact standsAt_linksSection c
  case count => exact hcount
  case length => exact length_fileEntries _ _ _
  case fes_at =>
    intro i fe hfe
    rw [hoffset]
    exact standsAt_record (standsAt_entriesBytes c) hfe
  case contents_at =>
    intro i e he
    obtain ⟨fe, hfe, hstart, hlength, -⟩ := record_spec hsize he
    have hfront := dataLength_mod (c.entries.list.take i)
    have hplace : filesOffset + fe.dataOffset.toNat =
        dataOffset c + dataLength (c.entries.list.take i) := by omega
    refine ⟨fe, hfe, hlength, ?_, by omega, ?_⟩
    · rw [filesOffset] at *
      omega
    · rw [hoffset, hplace]
      exact standsAt_contents he
  case within =>
    intro fe hfe
    obtain ⟨i, hi⟩ := List.mem_iff_getElem?.mp hfe
    obtain ⟨e, he, hstart, hlength, -⟩ := exists_of_record hsize hi
    have hle : dataLength (c.entries.list.take i) + up e.contents.length ≤
        dataLength c.entries.list := sum_take_add_le_sum he
    have hup := le_up e.contents.length
    have htable := dataOffset_eq c
    rw [hcount, hdata, linkOffset]
    omega
  case apart =>
    refine records_pairwise hsize (fun e => up e.contents.length) (dataOffset c - filesOffset)
      (fun i fe hfe => ?_) fun i fe e hfe he => ?_
    · exact (exists_of_record hsize hfe).choose_spec.2.1
    · obtain ⟨fe', hfe', -, hlength, -⟩ := record_spec hsize he
      obtain rfl := Option.some.inj (hfe.symm.trans hfe')
      exact hlength.le.trans (le_up _)
  case links_start =>
    rw [hoffset, hdata, hlinks, linkOffset]
    omega
  case links_size => rw [hlinksSize, htotal]
  case links_end => rw [hlinks, hlinksSize, length_image, totalSize]
  case rows_at =>
    intro i e he
    obtain ⟨fe, hfe, -, -, hstart, hlength⟩ := record_spec hsize he
    refine ⟨fe, hfe, hlength, fun k l hl => ?_⟩
    rw [hlinks, hstart]
    exact standsAt_link he hl
  case rows_apart =>
    refine records_pairwise hsize (fun e => e.links.length) 0 (fun i fe hfe => ?_) fun i fe e hfe he => ?_
    · obtain ⟨e, -, -, -, hstart, -⟩ := exists_of_record hsize hfe
      rw [hstart, Nat.zero_add, linkTotal]
    · obtain ⟨fe', hfe', -, -, -, hlength⟩ := record_spec hsize he
      obtain rfl := Option.some.inj (hfe.symm.trans hfe')
      exact hlength.le
  case rows =>
    intro row
    rw [htotal]
    constructor
    · intro hrow
      obtain ⟨i, e, he, hle, hlt⟩ := exists_of_lt_sum hrow
      obtain ⟨fe, hfe, -, -, hstart, hlength⟩ := record_spec hsize he
      exact ⟨fe, List.mem_of_getElem? hfe, hstart ▸ hle, hstart ▸ hlength ▸ hlt⟩
    · rintro ⟨fe, hfe, -, hlt⟩
      obtain ⟨i, hi⟩ := List.mem_iff_getElem?.mp hfe
      obtain ⟨e, he, -, -, hstart, hlength⟩ := exists_of_record hsize hi
      have hle : linkTotal (c.entries.list.take i) + e.links.length ≤
          linkTotal c.entries.list := sum_take_add_le_sum he
      omega

/-- A file without contents, one of exactly `PAD_BYTES` and one of a byte, with links. -/
def threeFiles : Cl3 :=
  { endian := .big, field14 := 0, dataSize := 0, linkCount := 0
    entries :=
      { list := [{ id := 0, name := [0x61], field200 := 0, links := [some 2], src := none },
          { id := 1, name := [0x62], field200 := 0, links := [], src := some (zeros 0x40) },
          { id := 2, name := [0x63], field200 := 0, links := [some 0, some 2], src := some [7] }]
        names_nodup := by decide
        ids_nodup := by decide } }

theorem threeFiles_laidOut :
    ∃ calls, @dump zeroTerminated threeFiles.fixup = .ok calls ∧
      (Sink.bytesOf calls).length = threeFiles.fixup.getSize ∧
      LaidOut threeFiles (header threeFiles) (@filesSection zeroTerminated threeFiles)
        (@linksSection zeroTerminated threeFiles) (@records zeroTerminated threeFiles)
        (Sink.bytesOf calls) :=
  @dump_laidOut zeroTerminated _ (by decide) (by decide)

end Cl3

end Neptools

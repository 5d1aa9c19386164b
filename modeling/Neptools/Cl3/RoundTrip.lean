import Neptools.Cl3.Links

/-!
Reading back a written archive. All of it is read where it was written, except
that the section of the links is written in the order of bytes of the machine
and read in that of the archive, and the links the other way round.
-/

namespace Neptools

open Lib

namespace Cl3

/-- The name of the file a link refers to. -/
def nameAt (es : List Entry) (l : Option Nat) : Option Bytes :=
  (es[(indexOf es l).toNat]?).map Entry.name

/-- A file as it is seen from outside: links are the names they lead to. -/
def Entry.content (all : List Entry) (e : Entry) : Bytes × UInt32 × Bytes × List (Option Bytes) :=
  (e.name, e.field200, e.contents, e.links.map (nameAt all))

structure SameArchive (c' c : Cl3) : Prop where
  endian : c'.endian = c.endian
  field14 : c'.field14 = c.field14
  files : c'.entries.list.map (Entry.content c'.entries.list) =
    c.entries.list.map (Entry.content c.entries.list)

/-- The places of the files that the links of each file lead to. -/
def indexes (es : List Entry) : List (List Nat) :=
  es.map fun e => e.links.map fun l => (indexOf es l).toNat

theorem flatMap_recordsOf_indexes (all es : List Entry) :
    (es.map fun e => e.links.map fun l => (indexOf all l).toNat).flatMap recordsOf =
      linkEntries all es := by
  rw [List.flatMap_map]
  refine congrArg (fun f => es.flatMap f) (funext fun e => ?_)
  refine List.ext_getElem? fun i => ?_
  rw [recordsOf, linkEntriesOf, List.getElem?_mapIdx, List.getElem?_mapIdx, List.getElem?_map]
  cases e.links[i]? with
  | none => rfl
  | some l => simp only [Option.map_some, UInt32.ofNat_toNat]

theorem indexes_lt {c : Cl3} (hown : OwnLinks c) (hlen : c.entries.list.length < 2 ^ 32) :
    ∀ ids ∈ indexes c.entries.list, ∀ i ∈ ids, i < c.entries.list.length := by
  intro ids hids i hi
  obtain ⟨e, he, rfl⟩ := List.mem_map.mp hids
  obtain ⟨l, hl, rfl⟩ := List.mem_map.mp hi
  obtain ⟨t, ht, rfl⟩ := hown e he l hl
  obtain ⟨i, hi, hindex, -⟩ := indexOf_of_mem ht
  rw [hindex, toNat_ofNat_of_lt (by omega)]
  exact hi

/-- File objects that are numbered in order are at the place of their number. -/
theorem indexOf_sequential {es : Entries} (h : es.Sequential) {i : Nat}
    (hi : i < es.list.length) : indexOf es.list (some i) = UInt32.ofNat i := by
  have hid : es.list[i].id = i := getElem?_sequential h (List.getElem?_eq_getElem hi)
  obtain ⟨k, hk, hindex, hkid⟩ := indexOf_of_mem (List.getElem_mem hi)
  rw [hid] at hindex hkid
  rw [List.getElem?_eq_getElem hk, Option.map_some] at hkid
  have hk' : es.list[k].id = k := getElem?_sequential h (List.getElem?_eq_getElem hk)
  rw [hindex, ← hk', Option.some.inj hkid]

/-- What is read of the files, with the places their links lead to. -/
structure FilesRead (c : Cl3) (es : Entries) (idss : List (List Nat)) : Prop where
  sequential : es.Sequential
  lens : idss.map List.length = c.entries.list.map (fun e => e.links.length)
  get : ∀ m, es.list[m]? = (c.entries.list[m]?).map
    fun (e : Entry) => (e.parsed m).withLinks ((idss[m]?).getD [])

namespace FilesRead

variable {c : Cl3} {es : Entries} {idss : List (List Nat)} (h : FilesRead c es idss)

include h

theorem length : es.list.length = c.entries.list.length := by
  refine Nat.le_antisymm ?_ ?_
  · have hnone : c.entries.list[c.entries.list.length]? = none :=
      List.getElem?_eq_none (Nat.le_refl _)
    exact List.getElem?_eq_none_iff.mp (by rw [h.get, hnone, Option.map_none])
  · have hnone := List.getElem?_eq_none (Nat.le_refl es.list.length)
    rw [h.get] at hnone
    exact List.getElem?_eq_none_iff.mp (Option.map_eq_none_iff.mp hnone)

theorem nameAt_eq (hlen : c.entries.list.length < 2 ^ 32) {i : Nat}
    (hi : i < c.entries.list.length) :
    nameAt es.list (some i) = (c.entries.list[i]?).map Entry.name := by
  rw [nameAt, indexOf_sequential h.sequential (by rw [h.length]; exact hi),
    toNat_ofNat_of_lt (by omega), h.get, Option.map_map]
  rfl

theorem get_ids {m : Nat} {e : Entry} (he : c.entries.list[m]? = some e) :
    ∃ ids, idss[m]? = some ids := by
  have hm := congrArg (·[m]?) h.lens
  simp only [List.getElem?_map, he, Option.map_some] at hm
  obtain ⟨ids, hids, -⟩ := Option.map_eq_some_iff.mp hm
  exact ⟨ids, hids⟩

theorem get_content {m : Nat} {e : Entry} (he : c.entries.list[m]? = some e) {ids : List Nat}
    (hids : idss[m]? = some ids) :
    (es.list.map (Entry.content es.list))[m]? = some (e.name, e.field200, e.contents,
      ids.map fun i => nameAt es.list (some i)) := by
  rw [List.getElem?_map, h.get, he, hids, Option.map_some, Option.map_some, Option.getD_some,
    Entry.content, Entry.withLinks]
  simp only [Entry.parsed, List.nil_append, List.map_map]
  rfl

/-- The files are the ones written when their links lead to the same places. -/
theorem content_iff (hown : OwnLinks c) (hlen : c.entries.list.length < 2 ^ 32)
    (hids : ∀ ids ∈ idss, ∀ i ∈ ids, i < c.entries.list.length) :
    es.list.map (Entry.content es.list) = c.entries.list.map (Entry.content c.entries.list) ↔
      idss = indexes c.entries.list := by
  have hlt := indexes_lt hown hlen
  -- Names are unique, so a place is known by its name.
  have hinj : ∀ i, i < c.entries.list.length → ∀ k, (c.entries.list[i]?).map Entry.name =
      (c.entries.list[k]?).map Entry.name → i = k := fun i hi k heq => by
    rw [← List.getElem?_map, ← List.getElem?_map] at heq
    exact List.getElem?_inj (by rwa [List.length_map]) c.entries.names_nodup |>.mp heq
  constructor
  · intro heq
    refine List.ext_getElem? fun m => ?_
    cases he : c.entries.list[m]? with
    | none =>
        have hm := congrArg (·[m]?) h.lens
        simp only [List.getElem?_map, he, Option.map_none, Option.map_eq_none_iff] at hm
        rw [hm, indexes, List.getElem?_map, he, Option.map_none]
    | some e =>
        obtain ⟨ids, hm⟩ := h.get_ids he
        have hcontent := congrArg (·[m]?) heq
        simp only [h.get_content he hm, List.getElem?_map, he, Option.map_some, Entry.content,
          Option.some.injEq, Prod.mk.injEq, true_and] at hcontent
        have hmem := hids ids (List.mem_of_getElem? hm)
        have hnames : ids.map (fun i => (c.entries.list[i]?).map Entry.name) =
            (e.links.map fun l => (indexOf c.entries.list l).toNat).map
              (fun i => (c.entries.list[i]?).map Entry.name) := by
          rw [List.map_map]
          refine Eq.trans (List.map_congr_left fun i hi => ?_) hcontent
          exact (h.nameAt_eq hlen (hmem i hi)).symm
        rw [hm, indexes, List.getElem?_map, he, Option.map_some,
          map_inj_on (fun i hi k _ => hinj i (hmem i hi) k) hnames]
  · intro heq
    refine List.ext_getElem? fun m => ?_
    cases he : c.entries.list[m]? with
    | none =>
        rw [List.getElem?_map, List.getElem?_map, h.get, he]
        rfl
    | some e =>
        have hm : idss[m]? = some (e.links.map fun l => (indexOf c.entries.list l).toNat) := by
          rw [heq, indexes, List.getElem?_map, he, Option.map_some]
        have hmem := hlt _ (List.mem_of_getElem? (heq ▸ hm))
        rw [h.get_content he hm, List.getElem?_map, he, Option.map_some, Entry.content,
          List.map_map]
        refine congrArg (fun ls => some (e.name, e.field200, e.contents, ls))
          (List.map_congr_left fun l hl => ?_)
        exact h.nameAt_eq hlen (hmem _ (List.mem_map_of_mem hl))

end FilesRead

/-- What the written sections tell, with the offset of the links as it is read. -/
def sectionsRead (c : Cl3) (offset : UInt32) : Sections :=
  { fileOffset := UInt32.ofNat filesOffset
    fileCount := UInt32.ofNat c.entries.list.length
    fileSize := UInt32.ofNat (linkOffset c - filesOffset), linkOffset := some offset }

section

variable [FixedString] {c : Cl3} (hnamed : ∀ e ∈ c.entries.list, e.Named) (hown : OwnLinks c)
  (hsize : totalSize c < 2 ^ 32) {src : Source} (hsrc : src.bytes = image c)

include hnamed hsize hsrc

/-- The files of a written archive are read, before their links. -/
theorem readEntries_image :
    ∃ es, readEntries c.endian (UInt32.ofNat filesOffset)
        (UInt32.ofNat (linkOffset c - filesOffset)) c.entries.list.length (src.at_ filesOffset)
        .empty = .ok es ∧ es.Sequential ∧
      es.list = c.entries.list.mapIdx fun k (e : Entry) => e.parsed k := by
  have hentries := standsAt_entriesBytes c
  have hdata := standsAt_data c
  have hfiles := files_le c
  have hle := linkOffset_le c
  rw [← hsrc] at hentries hdata
  rw [← Nat.add_sub_cancel' hfiles] at hdata
  have hfit : dataOffset c - filesOffset + dataLength c.entries.list ≤
      linkOffset c - filesOffset := by
    rw [linkOffset]
    omega
  obtain ⟨es, hes, hseq, hlist⟩ := @readEntries_records _ _ _ _ _ (by rw [linkOffset] at *; omega)
    _ _ _ _ .empty hentries hdata hfit hnamed (by exact c.entries.names_nodup) rfl
  refine ⟨es, hes, hseq, hlist.trans ?_⟩
  simp only [Entries.empty, List.nil_append, List.length_nil, Nat.zero_add]

include hown

/-- The files are read as they were written exactly when the records of their
links stand where they are read. -/
theorem readFiles_iff (offset : UInt32) :
    (∃ es, readFiles c.endian src (sectionsRead c offset) = .ok es ∧
        es.list.map (Entry.content es.list) =
          c.entries.list.map (Entry.content c.entries.list)) ↔
      RecordsAt src.bytes offset.toNat 0 (linkEntries c.entries.list c.entries.list) := by
  have hentries := standsAt_entriesBytes c
  rw [← hsrc] at hentries
  have hlen := length_lt hsize
  have hlinks : 0 + linkTotal c.entries.list < 2 ^ 32 := by
    rw [totalSize, sizeofLinkEntry] at hsize
    omega
  have hcount : (UInt32.ofNat c.entries.list.length).toNat = c.entries.list.length :=
    toNat_ofNat_of_lt (by omega)
  obtain ⟨es₀, hes₀, hseq, hlist⟩ := readEntries_image hnamed hsize hsrc
  have hlen₀ : es₀.list.length = c.entries.list.length := by rw [hlist, List.length_mapIdx]
  have hseek : src.seek filesOffset = .ok (src.at_ filesOffset) := by
    have hle := hentries.le
    rw [Source.length_bytes] at hle
    exact Source.seek_of_le (by omega)
  have hread : readFiles c.endian src (sectionsRead c offset) =
      readAllLinks c.endian (some offset) (UInt32.ofNat c.entries.list.length)
        c.entries.list.length 0 (src.at_ filesOffset) es₀ := by
    have hoffset : (sectionsRead c offset).fileOffset.toNat = filesOffset :=
      toNat_ofNat_of_lt (by decide)
    have hcount' : (sectionsRead c offset).fileCount.toNat = c.entries.list.length := hcount
    rw [readFiles, hoffset, hseek, ok_bind, hcount']
    exact congrArg (· >>= _) hes₀
  have hfiles : ∀ idss : List (List Nat),
      idss.map List.length = c.entries.list.map (fun e => e.links.length) →
      FilesRead c (es₀.addAllLinks 0 idss) idss := fun idss hidss =>
    ⟨sequential_addAllLinks hseq 0 idss, hidss, fun m => by
      rw [getElem?_addAllLinks, hlist, List.getElem?_mapIdx, Option.map_map,
        if_neg (Nat.not_lt_zero m), Nat.sub_zero]
      rfl⟩
  constructor
  · rintro ⟨es, hes, hcontent⟩
    rw [hread] at hes
    obtain ⟨idss, hidss, rfl, hlt, hrecs⟩ := readAllLinks_ok hentries hlinks hseq hes
    rw [hlen₀] at hlt
    have hindexes := ((hfiles idss hidss).content_iff hown (by omega) hlt).mp hcontent
    rwa [hindexes, indexes, flatMap_recordsOf_indexes] at hrecs
  · intro hrecs
    have hlt := indexes_lt hown (by omega)
    have hidss : (indexes c.entries.list).map List.length =
        c.entries.list.map (fun e => e.links.length) := by
      rw [indexes, List.map_map]
      exact List.map_congr_left fun e _ => List.length_map _
    rw [← flatMap_recordsOf_indexes] at hrecs
    refine ⟨_, hread.trans (readAllLinks_of hentries hlinks hseq (by omega) hidss ?_ hrecs), ?_⟩
    · intro ids hids i hi
      rw [hlen₀, hcount]
      exact ⟨hlt ids hids i hi, hlt ids hids i hi⟩
    · exact ((hfiles _ hidss).content_iff hown (by omega) hlt).mpr rfl

end

/-! Header and sections. -/

theorem toNative_ofData [FixedString] (name : Bytes) (count dataSize dataOffset : UInt32) (endian : Endian) :
    toNative (Section.ofData name count dataSize dataOffset) endian =
      Section.ofData name (toNative count endian) (toNative dataSize endian)
        (toNative dataOffset endian) := by
  have hzero : endianReverse (0 : UInt32) = 0 := by decide
  cases endian with
  | little => rfl
  | big =>
      change Section.reverse _ = _
      simp only [Section.reverse, Section.ofData, hzero]
      rfl

theorem validate_header {c : Cl3} {fileSize : Nat} (h : filesOffset ≤ fileSize) :
    (header c).validate fileSize = .ok () := by
  set hdr := header c with hhdr
  have hmagic : hdr.magic = magic := rfl
  have hendian : hdr.endian = 0x4c ∨ hdr.endian = 0x42 := by
    cases he : c.endian with
    | little => exact .inl (if_pos he)
    | big => exact .inr (if_neg (he ▸ Endian.noConfusion))
  have h04 : hdr.field04 = 0 := rfl
  have h08 : hdr.field08 = 3 := rfl
  have hsections : hdr.sectionsOffset.toNat + hdr.sectionsCount.toNat * sizeofSection ≤
      fileSize := Nat.le_trans (by change 0x40 + 2 * 0x50 ≤ 0x100; omega) h
  simp only [Header.validate, validateField_of hmagic, validateField_of hendian,
    validateField_of h04, validateField_of h08, validateField_of hsections, ok_bind]

section

variable [FixedString]

theorem validate_ofData {name : Bytes} (hname : 0 ∉ name) (hlen : name.length < 0x20)
    {count dataSize dataOffset : UInt32} {fileSize : Nat} :
    (Section.ofData name count dataSize dataOffset).validate fileSize = .ok () ↔
      dataOffset.toNat ≤ fileSize ∧ (dataOffset + dataSize).toNat ≤ fileSize := by
  have hvalid : FixedString.isValid (FixedString.assign 0x20 name).1 = true :=
    FixedString.isValid_assign hlen hname
  simp only [Section.validate, validateField, bind_eq_ok, require_eq_ok, exists_const]
  simp only [Section.ofData, hvalid, true_and, and_true]

theorem addSection_files (secs : Sections) (count dataSize dataOffset : UInt32) :
    addSection secs (Section.ofData fileCollection count dataSize dataOffset) =
      .ok { secs with fileOffset := dataOffset, fileCount := count, fileSize := dataSize } := by
  have hname : FixedString.cStr (Section.ofData fileCollection count dataSize dataOffset).name =
      fileCollection := FixedString.cStr_assign (by decide) (by decide)
  rw [addSection, if_pos hname]
  rfl

theorem addSection_links {secs secs' : Sections} {count dataSize dataOffset : UInt32} :
    addSection secs (Section.ofData fileLink count dataSize dataOffset) = .ok secs' ↔
      dataSize.toNat = count.toNat * sizeofLinkEntry ∧
        secs' = { secs with linkOffset := some dataOffset } := by
  have hname : FixedString.cStr (Section.ofData fileLink count dataSize dataOffset).name =
      fileLink := FixedString.cStr_assign (by decide) (by decide)
  rw [addSection, if_neg (by rw [hname]; decide), if_pos hname]
  simp only [validateField, bind_eq_ok, require_eq_ok, exists_const, pure_eq_ok,
    Except.ok.injEq, eq_comm (b := secs')]
  rfl

end

/-- The section of the links passes its checks, with the given fields. -/
structure LinksPass (c : Cl3) (count dataSize dataOffset : UInt32) : Prop where
  offset_le : dataOffset.toNat ≤ totalSize c
  end_le : (dataOffset + dataSize).toNat ≤ totalSize c
  size_eq : dataSize.toNat = count.toNat * sizeofLinkEntry

section

variable [FixedString] {c : Cl3} (hsize : totalSize c < 2 ^ 32) {src : Source}
  (hsrc : src.bytes = image c)

include hsize hsrc

theorem readSections_image {count dataSize dataOffset : UInt32}
    (hfields : toNative (linksSection c) c.endian =
      Section.ofData fileLink count dataSize dataOffset) {secs : Sections} :
    readSections c.endian 2 (src.at_ 0x40)
        { fileOffset := 0, fileCount := 0, fileSize := 0, linkOffset := none } = .ok secs ↔
      LinksPass c count dataSize dataOffset ∧ secs = sectionsRead c dataOffset := by
  have hfiles := standsAt_filesSection c
  have hlinks := standsAt_linksSection c
  rw [← hsrc] at hfiles hlinks
  have hlen : src.size = totalSize c := by rw [← src.length_bytes, hsrc, length_image]
  have hle := linkOffset_le c
  have hoff : filesOffset ≤ linkOffset c := Nat.le_trans (files_le c) (Nat.le_add_right _ _)
  have hvalid : (filesSection c).validate src.size = .ok () := by
    refine (validate_ofData (by decide) (by decide)).mpr ⟨?_, ?_⟩
    · rw [toNat_ofNat_of_lt (by omega)]
      omega
    · rw [← UInt32.ofNat_add, toNat_ofNat_of_lt (by omega)]
      omega
  have hadd : addSection { fileOffset := 0, fileCount := 0, fileSize := 0, linkOffset := none }
      (filesSection c) = .ok { sectionsRead c 0 with linkOffset := none } := addSection_files ..
  have hnext : (src.at_ (0x40 + Pod.size Section)).readGen Section =
      .ok (linksSection c, src.at_ (0x90 + Pod.size Section)) :=
    Source.readGen_of_standsAt hlinks
  rw [readSections, Source.readGen_of_standsAt hfiles]
  simp only [ok_bind, toNative_fromNative, Source.size_at_, hvalid, hadd]
  rw [readSections, hnext]
  simp only [ok_bind, Source.size_at_, hfields, bind_eq_ok, exists_const,
    validate_ofData (by decide : 0 ∉ fileLink) (by decide), addSection_links, hlen]
  constructor
  · rintro ⟨⟨hoffset, hend⟩, secs', ⟨heq, rfl⟩, hsecs⟩
    cases hsecs
    exact ⟨⟨hoffset, hend, heq⟩, rfl⟩
  · rintro ⟨hpass, rfl⟩
    exact ⟨⟨hpass.offset_le, hpass.end_le⟩, _, ⟨hpass.size_eq, rfl⟩, rfl⟩

theorem parse_image {count dataSize dataOffset : UInt32}
    (hfields : toNative (linksSection c) c.endian =
      Section.ofData fileLink count dataSize dataOffset) {c' : Cl3} :
    parse src = .ok c' ↔ LinksPass c count dataSize dataOffset ∧
      ∃ es, readFiles c.endian src (sectionsRead c dataOffset) = .ok es ∧
        c' = { endian := c.endian, field14 := c.field14, entries := es, dataSize := 0
               linkCount := 0 } := by
  have hhdr := standsAt_header c
  rw [← hsrc] at hhdr
  have hlen : src.size = totalSize c := by rw [← src.length_bytes, hsrc, length_image]
  have hle := linkOffset_le c
  have hoff : filesOffset ≤ linkOffset c := Nat.le_trans (files_le c) (Nat.le_add_right _ _)
  have hroom : filesOffset ≤ src.size := by omega
  have hread := Source.preadGen_of_standsAt hhdr
  have hendian : (if (fromNative (header c) c.endian).endian = 0x4c then Endian.little
      else .big) = c.endian := by
    cases he : c.endian with
    | little =>
        change (if (header c).endian = 0x4c then Endian.little else .big) = .little
        rw [header, he]
        rfl
    | big =>
        change (if (header c).endian = 0x4c then Endian.little else .big) = .big
        rw [header, he]
        rfl
  have hcheck : src.checkSize sizeofHeader = .ok () :=
    Source.checkSize_of_le (Nat.le_trans (by decide : sizeofHeader ≤ filesOffset) hroom)
  have hseek : src.seek (header c).sectionsOffset.toNat = .ok (src.at_ 0x40) :=
    Source.seek_of_le (Nat.le_trans (by decide : 0x40 ≤ filesOffset) hroom)
  have hcount : (header c).sectionsCount.toNat = 2 := rfl
  rw [parse, hcheck, ok_bind, hread]
  simp only [ok_bind, hendian, toNative_fromNative, validate_header hroom, hseek, hcount]
  simp only [bind_eq_ok, readSections_image hsize hsrc hfields, pure_eq_ok, Except.ok.injEq]
  constructor
  · rintro ⟨secs, ⟨hpass, rfl⟩, es, hes, rfl⟩
    exact ⟨hpass, es, hes, rfl⟩
  · rintro ⟨hpass, es, hes, rfl⟩
    exact ⟨_, ⟨hpass, rfl⟩, es, hes, rfl⟩

end

/-- The section of the links, with the given fields, passes its checks, and the
links stand at its offset in the order of bytes of the machine. -/
def LinksStand [FixedString] (c : Cl3) (count dataSize dataOffset : UInt32) : Prop :=
  LinksPass c count dataSize dataOffset ∧
    RecordsAt (image c) dataOffset.toNat 0 (linkEntries c.entries.list c.entries.list)

theorem linksStand_little [FixedString] {c : Cl3} (h : c.endian = .little) (hsize : totalSize c < 2 ^ 32) :
    LinksStand c (UInt32.ofNat (linkTotal c.entries.list))
      (UInt32.ofNat (sizeofLinkEntry * linkTotal c.entries.list))
      (UInt32.ofNat (linkOffset c)) := by
  have hle := linkOffset_le c
  have hlinks := standsAt_linkBytes c
  rw [linkBytes, h] at hlinks
  have hoffset : (UInt32.ofNat (linkOffset c)).toNat = linkOffset c :=
    toNat_ofNat_of_lt (by omega)
  rw [totalSize, sizeofLinkEntry] at hsize
  refine ⟨⟨?_, ?_, ?_⟩, ?_⟩
  · rw [hoffset]
    exact hle
  · rw [← UInt32.ofNat_add, toNat_ofNat_of_lt (by rw [sizeofLinkEntry]; omega)]
    exact Nat.le_refl _
  · rw [toNat_ofNat_of_lt (by rw [sizeofLinkEntry]; omega), toNat_ofNat_of_lt (by omega),
      Nat.mul_comm]
  · intro i le hget
    have hrecord := standsAt_record hlinks hget
    rw [hoffset, Nat.zero_add, Nat.mul_comm]
    exact hrecord

section

variable [FixedString]

/-- The bytes written are read as the archive they were written from. -/
def RoundTrips (c : Cl3) : Prop :=
  ∃ calls c', dump c.fixup = .ok calls ∧ parse (.fromMemory (Sink.bytesOf calls)) = .ok c' ∧
    SameArchive c' c

theorem roundTrips_iff_linksStand {c : Cl3} (hnamed : ∀ e ∈ c.entries.list, e.Named)
    (hown : OwnLinks c) (hsize : totalSize c < 2 ^ 32) {count dataSize dataOffset : UInt32}
    (hfields : toNative (linksSection c) c.endian =
      Section.ofData fileLink count dataSize dataOffset) :
    RoundTrips c ↔ LinksStand c count dataSize dataOffset := by
  obtain ⟨calls, hcalls, hbytes⟩ := dump_fixup hown hsize
  have hsrc : (Source.fromMemory (Sink.bytesOf calls)).bytes = image c := by
    rw [Source.bytes_fromMemory, hbytes]
  have hparse := @parse_image _ c hsize _ hsrc _ _ _ hfields
  have hfiles := readFiles_iff hnamed hown hsize hsrc dataOffset
  rw [hsrc] at hfiles
  constructor
  · rintro ⟨calls', c', hcalls', hc', hsame⟩
    cases hcalls.symm.trans hcalls'
    obtain ⟨hpass, es, hes, rfl⟩ := hparse.mp hc'
    exact ⟨hpass, hfiles.mp ⟨es, hes, hsame.files⟩⟩
  · rintro ⟨hpass, hrecords⟩
    obtain ⟨es, hes, hcontent⟩ := hfiles.mpr hrecords
    exact ⟨calls, _, hcalls, hparse.mpr ⟨hpass, es, hes, rfl⟩, ⟨rfl, rfl, hcontent⟩⟩

/-- Little-endian archives are read back; big-endian ones only by chance, when
the reversed fields of the section of the links lead to links in the order of
bytes of the machine. -/
theorem roundTrips_iff (c : Cl3) (hnamed : ∀ e ∈ c.entries.list, e.Named) (hown : OwnLinks c)
    (hsize : totalSize c < 2 ^ 32) :
    RoundTrips c ↔ c.endian = .little ∨
      LinksStand c (endianReverse (UInt32.ofNat (linkTotal c.entries.list)))
        (endianReverse (UInt32.ofNat (sizeofLinkEntry * linkTotal c.entries.list)))
        (endianReverse (UInt32.ofNat (linkOffset c))) := by
  have hfields := toNative_ofData fileLink (UInt32.ofNat (linkTotal c.entries.list))
    (UInt32.ofNat (sizeofLinkEntry * linkTotal c.entries.list)) (UInt32.ofNat (linkOffset c))
    c.endian
  rw [roundTrips_iff_linksStand hnamed hown hsize hfields]
  cases h : c.endian with
  | little => exact ⟨fun _ => .inl rfl, fun _ => linksStand_little h hsize⟩
  | big => exact ⟨.inr, fun h => h.resolve_left Endian.noConfusion⟩

end

/-- Two files: the first, "a", with a link to the second, the second, "b", with
links to both and without contents. -/
def twoFiles (endian : Endian) : Cl3 :=
  { endian, field14 := 7, dataSize := 0, linkCount := 0
    entries :=
      { list :=
          [{ id := 0, name := [0x61], field200 := 1, links := [some 1], src := some [1, 2, 3] },
            { id := 1, name := [0x62], field200 := 2, links := [some 0, some 1], src := none }]
        names_nodup := by decide
        ids_nodup := by decide } }

theorem twoFiles_named (endian : Endian) : ∀ e ∈ (twoFiles endian).entries.list, e.Named := by
  cases endian <;> decide

theorem twoFiles_ownLinks (endian : Endian) : OwnLinks (twoFiles endian) := by
  cases endian <;> decide

theorem twoFiles_roundTrips_iff : @RoundTrips zeroTerminated (twoFiles .little) ↔
    (twoFiles .little).endian = .little ∨ @LinksStand zeroTerminated (twoFiles .little) 0x03000000
      0x60000000 0xc0050000 :=
  @roundTrips_iff zeroTerminated (twoFiles .little) (twoFiles_named .little)
    (twoFiles_ownLinks .little) (by decide)

/-- As a big-endian archive they are written with the offset of the links in the
order of bytes of the machine, and refused. -/
theorem twoFiles_not_roundTrips : ¬ ∀ [FixedString] (c : Cl3),
    (∀ e ∈ c.entries.list, e.Named) → OwnLinks c → totalSize c < 2 ^ 32 → RoundTrips c := by
  intro h
  have hround := @h zeroTerminated (twoFiles .big) (twoFiles_named .big) (twoFiles_ownLinks .big)
    (by decide)
  have hfields := @toNative_ofData zeroTerminated fileLink 3 0x60 0x5c0 .big
  have hstand := (@roundTrips_iff_linksStand zeroTerminated _ (twoFiles_named .big)
    (twoFiles_ownLinks .big) (by decide) _ _ _ hfields).mp hround
  exact absurd hstand.1.offset_le (by decide)

end Cl3

end Neptools

import Neptools.Cl3.Accesses

/-!
Where `Parse_` reads. The sections are within the source once the header is
valid. The counts of the sections are not compared with their sizes, ends are
computed in 32 bits, and files of one name are put in once but counted twice.
-/

namespace Neptools

open Lib

namespace Cl3

def sectionAt (e : Endian) (src : Source) (pos : Nat) : Section :=
  toNative (Pod.ofBytes (slice src.bytes pos sizeofSection)) e

def sectionsAt (e : Endian) (src : Source) (pos : Nat) : Nat → List Section
  | 0 => []
  | n + 1 => sectionAt e src pos :: sectionsAt e src (pos + sizeofSection) n

/-- Of the sections of one name the last one counts. -/
def lastNamed [FixedString] (name : Bytes) : List Section → Option Section
  | [] => none
  | sec :: secs =>
      (lastNamed name secs).or (if FixedString.cStr sec.name = name then some sec else none)

def Sections.update (secs : Sections) (files links : Option Section) : Sections :=
  { fileOffset := (files.map (·.dataOffset)).getD secs.fileOffset
    fileCount := (files.map (·.count)).getD secs.fileCount
    fileSize := (files.map (·.dataSize)).getD secs.fileSize
    linkOffset := (links.map (·.dataOffset)).or secs.linkOffset }

theorem Sections.update_update (secs : Sections) (files links files' links' : Option Section) :
    (secs.update files links).update files' links' =
      secs.update (files'.or files) (links'.or links) := by
  cases files' <;> cases links' <;> rfl

theorem not_overran_header (h : Header) (fileSize : Nat) :
    ¬ Overran Error.Thrown (h.validate fileSize) := by
  rw [Header.validate]
  repeat refine not_overran_bind not_overran_validateField fun _ _ => ?_
  exact not_overran_validateField

theorem validate_room {hdr : Header} {fileSize : Nat} (h : hdr.validate fileSize = .ok ()) :
    hdr.sectionsOffset.toNat + hdr.sectionsCount.toNat * sizeofSection ≤ fileSize := by
  obtain ⟨_, -, h⟩ := bind_eq_ok.mp h
  obtain ⟨_, -, h⟩ := bind_eq_ok.mp h
  obtain ⟨_, -, h⟩ := bind_eq_ok.mp h
  obtain ⟨_, -, h⟩ := bind_eq_ok.mp h
  exact require_eq_ok.mp h

theorem not_overran_addSection [FixedString] (secs : Sections) (sec : Section) :
    ¬ Overran Error.Thrown (addSection secs sec) := by
  rw [addSection]
  split
  · exact not_overran_ok _
  · split
    · exact not_overran_bind not_overran_validateField fun _ _ => not_overran_ok _
    · exact not_overran_ok _

theorem addSection_spec [FixedString] {sec : Section} {secs' : Sections} (h : addSection secs sec = .ok secs') :
    secs' = secs.update (if FixedString.cStr sec.name = fileCollection then some sec else none)
      (if FixedString.cStr sec.name = fileLink then some sec else none) := by
  rw [addSection] at h
  split at h
  · rename_i hname
    have hne : FixedString.cStr sec.name ≠ fileLink := by
      rw [hname]
      decide
    cases h
    rw [if_pos hname, if_neg hne]
    rfl
  · rename_i hname
    rw [if_neg hname]
    split at h
    · rename_i hlink
      obtain ⟨_, -, h⟩ := bind_eq_ok.mp h
      cases h
      rw [if_pos hlink]
      rfl
    · rename_i hlink
      cases h
      rw [if_neg hlink]
      rfl

theorem byteOrder_toNative (hdr : Header) (e : Endian) :
    (toNative hdr e).byteOrder = hdr.byteOrder := by
  cases e <;> rfl

def allSections (hdr : Header) (src : Source) : List Section :=
  sectionsAt hdr.byteOrder src hdr.sectionsOffset.toNat hdr.sectionsCount.toNat

/-- All records lie where they should, in numbers that do not wrap. -/
structure InRange [FixedString] (hdr : Header) (secs : Sections) (src : Source) : Prop where
  sections : ∀ i < hdr.sectionsCount.toNat,
    hdr.sectionsOffset.toNat + (i + 1) * sizeofSection ≤ src.size
  files : ∀ i < secs.fileCount.toNat,
    (i + 1) * sizeofFileEntry ≤ secs.fileSize.toNat ∧
      secs.fileOffset.toNat + (i + 1) * sizeofFileEntry ≤ src.size
  contents : ∀ i < secs.fileCount.toNat,
    let entry := entryAt hdr.byteOrder src (secs.fileOffset.toNat + i * sizeofFileEntry)
    secs.fileOffset.toNat + entry.dataOffset.toNat + entry.dataSize.toNat ≤ src.size
  entries : ∀ i < secs.fileCount.toNat, i < entryCount hdr.byteOrder src secs
  links : ∀ i < secs.fileCount.toNat,
    let entry := entryAt hdr.byteOrder src (secs.fileOffset.toNat + i * sizeofFileEntry)
    ∀ j, entry.linkStart.toNat ≤ j → j < entry.linkEnd.toNat →
      ∃ sec, lastNamed fileLink (allSections hdr src) = some sec ∧
        (j + 1) * sizeofLinkEntry ≤ sec.dataSize.toNat ∧
        sec.dataOffset.toNat + (j + 1) * sizeofLinkEntry ≤ src.size ∧
        (linkAt src (sec.dataOffset.toNat + j * sizeofLinkEntry)).linkedFileId.toNat <
          entryCount hdr.byteOrder src secs

/-- The counts fit the sections and the sections the source, the names are
different, and the contents and the links of each file end where they should. -/
structure Fits [FixedString] (hdr : Header) (secs : Sections) (src : Source) : Prop where
  room : secs.fileCount.toNat * sizeofFileEntry ≤ secs.fileSize.toNat
  filesEnd : secs.fileOffset.toNat + secs.fileCount.toNat * sizeofFileEntry ≤ src.size
  distinct : (fileNames hdr.byteOrder src secs.fileOffset.toNat secs.fileCount.toNat).Nodup
  contents : ∀ i < secs.fileCount.toNat,
    let entry := entryAt hdr.byteOrder src (secs.fileOffset.toNat + i * sizeofFileEntry)
    secs.fileOffset.toNat + entry.dataOffset.toNat + entry.dataSize.toNat ≤ src.size
  links : ∀ i < secs.fileCount.toNat,
    let entry := entryAt hdr.byteOrder src (secs.fileOffset.toNat + i * sizeofFileEntry)
    entry.linkStart < entry.linkEnd →
      ∃ sec, lastNamed fileLink (allSections hdr src) = some sec ∧
        entry.linkEnd.toNat * sizeofLinkEntry ≤ sec.dataSize.toNat ∧
        sec.dataOffset.toNat + entry.linkEnd.toNat * sizeofLinkEntry ≤ src.size

theorem entryCount_of_nodup [FixedString] {e : Endian}
    (h : (fileNames e src secs.fileOffset.toNat secs.fileCount.toNat).Nodup) :
    entryCount e src secs = secs.fileCount.toNat := by
  rw [entryCount, List.dedup_eq_self.mpr h, length_fileNames]

theorem InRange.fits [FixedString] (h : InRange hdr secs src) (hoffset : secs.fileOffset.toNat ≤ src.size) :
    Fits hdr secs src := by
  have hlast : secs.fileCount.toNat ≠ 0 →
      secs.fileCount.toNat * sizeofFileEntry ≤ secs.fileSize.toNat ∧
        secs.fileOffset.toNat + secs.fileCount.toNat * sizeofFileEntry ≤ src.size := by
    intro hne
    have hfile := h.files (secs.fileCount.toNat - 1) (by omega)
    rwa [Nat.sub_add_cancel (by omega)] at hfile
  refine ⟨?_, ?_, ?_, h.contents, ?_⟩
  · by_cases hzero : secs.fileCount.toNat = 0
    · rw [hzero, Nat.zero_mul]
      exact Nat.zero_le _
    · exact (hlast hzero).1
  · by_cases hzero : secs.fileCount.toNat = 0
    · rw [hzero, Nat.zero_mul]
      exact hoffset
    · exact (hlast hzero).2
  · rw [← List.dedup_eq_self]
    refine (List.dedup_sublist _).eq_of_length_le ?_
    rw [length_fileNames]
    by_cases hzero : secs.fileCount.toNat = 0
    · rw [hzero]
      exact Nat.zero_le _
    · have := h.entries (secs.fileCount.toNat - 1) (by omega)
      rw [entryCount] at this
      omega
  · intro i hi entry hlt
    have hlt := UInt32.lt_iff_toNat_lt.mp hlt
    obtain ⟨sec, hsec, hsize, hplace, -⟩ := h.links i hi (entry.linkEnd.toNat - 1)
      (Nat.le_sub_one_of_lt hlt) (Nat.sub_one_lt (by omega))
    rw [Nat.sub_add_cancel (by omega)] at hsize hplace
    exact ⟨sec, hsec, hsize, hplace⟩

section

variable [FixedString]

theorem not_overran_section (sec : Section) (fileSize : Nat) :
    ¬ Overran Error.Thrown (sec.validate fileSize) := by
  rw [Section.validate]
  repeat refine not_overran_bind not_overran_validateField fun _ _ => ?_
  exact not_overran_validateField

theorem not_overran_readSections {e : Endian} {src : Source} {n pos : Nat}
    (h : pos + n * sizeofSection ≤ src.size)
    (secs : Sections) : ¬ Overran Error.Thrown (readSections e n (src.at_ pos) secs) := by
  induction n generalizing pos secs with
  | zero => exact not_overran_ok _
  | succ n ih =>
      rw [Nat.succ_mul] at h
      have hsec : pos + Pod.size Section ≤ src.size := by
        change pos + sizeofSection ≤ _
        omega
      rw [readSections, Source.readGen_of_le hsec, ok_bind]
      refine not_overran_bind (not_overran_section _ _) fun _ _ => ?_
      refine not_overran_bind (not_overran_addSection _ _) fun secs' _ => ih ?_ secs'
      change pos + sizeofSection + n * sizeofSection ≤ _
      omega

/-- What the sections tell is told by the last ones of their names, and the
files start in the source. -/
theorem readSections_spec {e : Endian} {src : Source} {secs secs' : Sections} {n pos : Nat}
    (hroom : pos + n * sizeofSection ≤ src.size)
    (h : readSections e n (src.at_ pos) secs = .ok secs')
    (hoffset : secs.fileOffset.toNat ≤ src.size) :
    secs' = secs.update (lastNamed fileCollection (sectionsAt e src pos n))
        (lastNamed fileLink (sectionsAt e src pos n)) ∧
      secs'.fileOffset.toNat ≤ src.size := by
  induction n generalizing pos secs with
  | zero =>
      cases h
      exact ⟨rfl, hoffset⟩
  | succ n ih =>
      rw [Nat.succ_mul] at hroom
      have hsec : pos + Pod.size Section ≤ src.size := by
        change pos + sizeofSection ≤ _
        omega
      rw [readSections, Source.readGen_of_le hsec, ok_bind] at h
      obtain ⟨_, hvalid, h⟩ := bind_eq_ok.mp h
      obtain ⟨secs₁, hadd, h⟩ := bind_eq_ok.mp h
      have hadd := addSection_spec hadd
      have hnext : secs₁.fileOffset.toNat ≤ src.size := by
        obtain ⟨_, -, hvalid⟩ := bind_eq_ok.mp hvalid
        obtain ⟨_, hle, -⟩ := bind_eq_ok.mp hvalid
        rw [hadd, Sections.update]
        split
        · exact require_eq_ok.mp hle
        · exact hoffset
      have hroom' : pos + Pod.size Section + n * sizeofSection ≤ src.size := by
        change pos + sizeofSection + n * sizeofSection ≤ _
        omega
      obtain ⟨hupdate, hle⟩ := ih hroom' h hnext
      refine ⟨?_, hle⟩
      rw [hupdate, hadd, Sections.update_update]
      rfl

/-- The part of `Parse_` up to the loops over the files. -/
def parseSections (src : Source) : Except Error (Header × Sections) := do
  src.checkSize sizeofHeader
  let hdr ← src.preadGen Header 0
  let endian := hdr.byteOrder
  let hdr := toNative hdr endian
  hdr.validate src.size
  let src' ← src.seek hdr.sectionsOffset.toNat
  let secs ← readSections endian hdr.sectionsCount.toNat src'
    { fileOffset := 0, fileCount := 0, fileSize := 0, linkOffset := none }
  pure (hdr, secs)

theorem parse_eq_bind (src : Source) :
    parse src = parseSections src >>= fun r =>
      readFiles r.1.byteOrder src r.2 >>= fun entries =>
      .ok { endian := r.1.byteOrder, field14 := r.1.field14, entries, dataSize := 0
            linkCount := 0 } := by
  rw [parse, parseSections]
  simp only [bind_assoc, pure_eq_ok, ok_bind, byteOrder_toNative]
  rfl

theorem not_overran_parseSections (data : Bytes) :
    ¬ Overran Error.Thrown (parseSections (.fromMemory data)) := by
  by_cases hsize : sizeofHeader ≤ data.length
  · have hheader : 0 + Pod.size Header ≤ (Source.fromMemory data).size := by
      rw [Nat.zero_add]
      exact hsize
    rw [parseSections, Source.checkSize_of_le hsize, ok_bind, Source.preadGen_of_le hheader,
      ok_bind]
    refine not_overran_bind (not_overran_header _ _) fun _ hvalid => ?_
    have hroom := validate_room hvalid
    rw [Source.seek_of_le (by omega), ok_bind]
    exact not_overran_bind (not_overran_readSections hroom _) fun _ _ => not_overran_ok _
  · have hshort : ¬ sizeofHeader ≤ (Source.fromMemory data).getOrigSize := hsize
    rw [parseSections, Source.checkSize, require_not hshort, error_bind]
    exact fun hover => overran_error.mp hover ⟨_, rfl⟩

theorem parseSections_spec {src : Source} {hdr : Header} {secs : Sections}
    (h : parseSections src = .ok (hdr, secs)) :
    hdr.sectionsOffset.toNat + hdr.sectionsCount.toNat * sizeofSection ≤ src.size ∧
      secs.fileOffset.toNat ≤ src.size ∧
      secs.linkOffset = (lastNamed fileLink (allSections hdr src)).map (·.dataOffset) := by
  obtain ⟨_, -, h⟩ := bind_eq_ok.mp h
  obtain ⟨hdr', -, h⟩ := bind_eq_ok.mp h
  obtain ⟨_, hvalid, h⟩ := bind_eq_ok.mp h
  obtain ⟨src', hseek, h⟩ := bind_eq_ok.mp h
  obtain ⟨secs', hsecs, h⟩ := bind_eq_ok.mp h
  cases h
  obtain ⟨-, rfl⟩ := Source.seek_spec hseek
  have hroom := validate_room hvalid
  obtain ⟨hupdate, hle⟩ := readSections_spec hroom hsecs (Nat.zero_le _)
  refine ⟨hroom, hle, ?_⟩
  rw [hupdate, allSections, byteOrder_toNative]
  exact Option.or_none

theorem Fits.not_outside (h : Fits hdr secs src)
    (hlinks : secs.linkOffset = (lastNamed fileLink (allSections hdr src)).map (·.dataOffset)) :
    ∀ a ∈ accesses hdr.byteOrder src secs, ¬ Outside hdr.byteOrder src secs a := by
  have hcount := entryCount_of_nodup h.distinct
  have hend := h.filesEnd
  have hplace : ∀ i < secs.fileCount.toNat,
      secs.fileOffset.toNat + i * sizeofFileEntry + sizeofFileEntry ≤ src.size := by
    intro i hi
    have := Nat.mul_le_mul_right sizeofFileEntry (Nat.succ_le_of_lt hi)
    rw [Nat.succ_mul] at this
    omega
  intro a ha hout
  rcases List.mem_append.mp ha with ha | ha
  · obtain ⟨i, hi, rfl⟩ := mem_fileAccesses.mp ha
    rcases hout with hout | ⟨-, hout⟩
    · exact Nat.not_le_of_lt hout (hplace i hi)
    · have hcontents := h.contents i hi
      rw [UInt32.toNat_add] at hout
      have := Nat.mod_le (secs.fileOffset.toNat + (entryAt hdr.byteOrder src
        (secs.fileOffset.toNat + i * sizeofFileEntry)).dataOffset.toNat) (2 ^ 32)
      omega
  · obtain ⟨i, hi, rfl | ha⟩ := mem_ownerAccesses.mp ha
    · rcases hout with hout | hout
      · exact Nat.not_le_of_lt hout (hplace i hi)
      · rw [hcount] at hout
        omega
    · obtain ⟨j, hj, hlt, rfl⟩ := mem_linkAccesses.mp ha
      obtain ⟨sec, hsec, -, hroom⟩ := h.links i hi (UInt32.lt_iff_toNat_lt.mpr (by omega))
      rw [hlinks, hsec, Option.map_some, Option.map_some] at hout
      rcases hout with hout | ⟨hvalid, hout⟩
      · have hle : j + 1 ≤ (entryAt hdr.byteOrder src
            (secs.fileOffset.toNat + i * sizeofFileEntry)).linkEnd.toNat := by omega
        have := Nat.mul_le_mul_right sizeofLinkEntry hle
        rw [Nat.succ_mul] at this
        omega
      · rw [hcount] at hout
        obtain ⟨_, -, hvalid⟩ := bind_eq_ok.mp hvalid
        obtain ⟨_, hid, -⟩ := bind_eq_ok.mp hvalid
        exact Nat.not_le_of_lt (UInt32.lt_iff_toNat_lt.mp (require_eq_ok.mp hid)) hout

/-- What fits and is not refused is in range. -/
theorem Fits.inRange (h : Fits hdr secs src)
    (hsections : hdr.sectionsOffset.toNat + hdr.sectionsCount.toNat * sizeofSection ≤ src.size)
    (hlinks : secs.linkOffset = (lastNamed fileLink (allSections hdr src)).map (·.dataOffset))
    (hok : ∀ a ∈ accesses hdr.byteOrder src secs, ¬ Refused hdr.byteOrder src secs a) :
    InRange hdr secs src := by
  have hin := h.not_outside hlinks
  have hroom := h.room
  have hend := h.filesEnd
  refine ⟨fun i hi => ?_, fun i hi => ?_, h.contents, fun i hi => ?_, fun i hi => ?_⟩
  · have : (i + 1) * sizeofSection ≤ _ := Nat.mul_le_mul_right _ (Nat.succ_le_of_lt hi)
    omega
  · have : (i + 1) * sizeofFileEntry ≤ _ := Nat.mul_le_mul_right _ (Nat.succ_le_of_lt hi)
    omega
  · rw [entryCount_of_nodup h.distinct]
    exact hi
  · intro entry j hj hlt
    obtain ⟨sec, hsec, hsize, hplace⟩ := h.links i hi
      (UInt32.lt_iff_toNat_lt.mpr (Nat.lt_of_le_of_lt hj hlt))
    have hmul : (j + 1) * sizeofLinkEntry ≤ entry.linkEnd.toNat * sizeofLinkEntry :=
      Nat.mul_le_mul_right _ (Nat.succ_le_of_lt hlt)
    have hmem : Access.link (some (sec.dataOffset.toNat + j * sizeofLinkEntry))
        (UInt32.ofNat j - entry.linkStart) ∈ accesses hdr.byteOrder src secs := by
      refine List.mem_append_right _ (mem_ownerAccesses.mpr ⟨i, hi, Or.inr ?_⟩)
      refine mem_linkAccesses.mpr ⟨j, hj, ?_, ?_⟩
      · rw [Nat.add_sub_cancel' (Nat.le_of_lt (Nat.lt_of_le_of_lt hj hlt))]
        exact hlt
      · rw [hlinks, hsec]
        rfl
    have hle : sec.dataOffset.toNat + j * sizeofLinkEntry + sizeofLinkEntry ≤ src.size := by
      rw [Nat.add_assoc, ← Nat.succ_mul]
      exact Nat.le_trans (Nat.add_le_add_left hmul _) hplace
    have hvalid : (linkAt src (sec.dataOffset.toNat + j * sizeofLinkEntry)).validate
        (UInt32.ofNat j - entry.linkStart) secs.fileCount = .ok () := by
      by_contra hne
      exact hok _ hmem ⟨hle, hne⟩
    refine ⟨sec, hsec, Nat.le_trans hmul hsize,
      Nat.le_trans (Nat.add_le_add_left hmul _) hplace, ?_⟩
    exact Nat.lt_of_not_le fun hid => hin _ hmem (Or.inr ⟨hvalid, hid⟩)

/-- The file is refused by an exception, or all records lie where they should. -/
def ReadSafely (data : Bytes) : Prop :=
  (∃ e, parse (.fromMemory data) = .error e ∧ e.Thrown) ∨
    ∃ hdr secs, parseSections (.fromMemory data) = .ok (hdr, secs) ∧
      InRange hdr secs (.fromMemory data)

/-- The file is refused by a check when the loops over the files refuse a record. -/
theorem thrown_iff {src : Source} {hdr : Header} {secs : Sections}
    (h : parseSections src = .ok (hdr, secs)) :
    (∃ e, parse src = .error e ∧ e.Thrown) ↔
      Refuses (Outside hdr.byteOrder src secs) (Refused hdr.byteOrder src secs)
        (accesses hdr.byteOrder src secs) := by
  obtain ⟨-, hoffset, -⟩ := parseSections_spec h
  rw [← (accesses_readFiles hoffset).refuses_iff, parse_eq_bind, h, ok_bind]
  cases readFiles hdr.byteOrder src secs with
  | ok es => exact iff_of_false (fun ⟨_, h, _⟩ => nomatch h) fun ⟨_, h, _⟩ => nomatch h
  | error e =>
      rw [error_bind]
      constructor
      · rintro ⟨_, ⟨⟩, hthrown⟩
        exact ⟨e, rfl, hthrown⟩
      · rintro ⟨_, ⟨⟩, hthrown⟩
        exact ⟨e, rfl, hthrown⟩

/-- A file is read safely exactly when its counts, contents and links fit, and
its names are different, or else a check refuses a record before any record,
content or index that the code computes leaves the source or the entries. -/
theorem thrown_or_inRange_iff (data : Bytes) :
    ReadSafely data ↔ ∀ hdr secs, parseSections (.fromMemory data) = .ok (hdr, secs) →
      Fits hdr secs (.fromMemory data) ∨
        ∃ before a after,
          accesses hdr.byteOrder (.fromMemory data) secs = before ++ a :: after ∧
          Refused hdr.byteOrder (.fromMemory data) secs a ∧
          ¬ Outside hdr.byteOrder (.fromMemory data) secs a ∧
          ∀ b ∈ before, ¬ Outside hdr.byteOrder (.fromMemory data) secs b := by
  simp only [← refuses_iff]
  cases hsecs : parseSections (.fromMemory data) with
  | error e =>
      refine iff_of_true (Or.inl ⟨e, ?_, ?_⟩) fun _ _ h => nomatch h
      · rw [parse_eq_bind, hsecs, error_bind]
      · by_contra hnot
        exact not_overran_parseSections data ⟨e, hsecs, hnot⟩
  | ok r =>
      obtain ⟨hdr, secs⟩ := r
      obtain ⟨hsections, hoffset, hlinks⟩ := parseSections_spec hsecs
      rw [ReadSafely, thrown_iff hsecs]
      constructor
      · rintro (hrefuses | ⟨hdr', secs', h, hrange⟩) hdr'' secs'' h''
        · cases h''
          exact Or.inr hrefuses
        · cases hsecs.symm.trans h
          cases h''
          exact Or.inl (hrange.fits hoffset)
      · intro h
        obtain hfits | hrefuses := h hdr secs rfl
        · rw [or_iff_not_imp_left]
          intro hnone
          refine ⟨hdr, secs, hsecs, hfits.inRange hsections hlinks fun a ha href => hnone ?_⟩
          obtain ⟨before, after, hsplit⟩ := List.append_of_mem ha
          have hin := hfits.not_outside hlinks
          refine refuses_iff.mpr ⟨before, a, after, hsplit, href, hin a ha, fun b hb => hin b ?_⟩
          rw [hsplit]
          exact List.mem_append_left _ hb
        · exact Or.inl hrefuses

end

/-- An archive that counts one file but has no room for its entry. -/
def noRoom : Bytes :=
  toBytes { magic, endian := 0x4c, field04 := 0, field08 := 3, sectionsCount := 1
            sectionsOffset := 0x18, field14 := 0 : Header } ++
    toBytes (@Section.ofData zeroTerminated fileCollection 1 0 0x68)

/-- The entry is read behind the end of the file. -/
theorem noRoom_not_readSafely : ¬ ∀ [FixedString] (data : Bytes), ReadSafely data := by
  intro h
  have hparse : @parse zeroTerminated (.fromMemory noRoom) =
      .error (.sourceOverflow "Source overflow") := rfl
  obtain ⟨e, herr, hthrown⟩ | ⟨hdr, secs, hsecs, hrange⟩ := @h zeroTerminated noRoom
  · cases hparse.symm.trans herr
    exact not_thrown_overflow _ hthrown
  · have hok : @parseSections zeroTerminated (.fromMemory noRoom) = .ok
        ({ magic, endian := 0x4c, field04 := 0, field08 := 3, sectionsCount := 1
           sectionsOffset := 0x18, field14 := 0 },
          { fileOffset := 0x68, fileCount := 1, fileSize := 0, linkOffset := none }) := rfl
    cases hok.symm.trans hsecs
    have hfiles := @InRange.files zeroTerminated _ _ _ hrange 0 (by decide)
    exact absurd hfiles.2 (by decide)

end Cl3

end Neptools

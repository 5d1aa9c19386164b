import Mathlib.Data.List.Dedup
import Neptools.Cl3.Parse

/-!
The reads of the loops over the files. The records of files and links are
listed as they are read, and the loops come to their end exactly when no record
leaves the source or the entries and none is refused.
-/

namespace Neptools

open Lib

namespace Cl3

/-- The byte order that the header names. -/
def Header.byteOrder (h : Header) : Endian := if h.endian = 0x4c then .little else .big

def entryAt (e : Endian) (src : Source) (pos : Nat) : FileEntry :=
  toNative (Pod.ofBytes (slice src.bytes pos sizeofFileEntry)) e

def linkAt (src : Source) (pos : Nat) : LinkEntry :=
  Pod.ofBytes (slice src.bytes pos sizeofLinkEntry)

/-- The names of the files as they are read. -/
def fileNames [FixedString] (e : Endian) (src : Source) (pos : Nat) : Nat → List Bytes
  | 0 => []
  | n + 1 =>
      FixedString.cStr (entryAt e src pos).name ::
        fileNames e src (pos + sizeofFileEntry) n

/-- The number of the entries that are put in: files of one name make one. -/
def entryCount [FixedString] (e : Endian) (src : Source) (secs : Sections) : Nat :=
  (fileNames e src secs.fileOffset.toNat secs.fileCount.toNat).dedup.length

/-- The end of the links of a file, in 32 bits. -/
def FileEntry.linkEnd (entry : FileEntry) : UInt32 := entry.linkStart + entry.linkCount

/-- A file entry is read, with its contents; it is read again, for the links of
entry `k`; or link `linkId` of a file is read, somewhere when there is no section
of links. -/
inductive Access
  | file (pos : Nat)
  | owner (pos k : Nat)
  | link (pos : Option Nat) (linkId : UInt32)

def fileAccesses (pos : Nat) : Nat → List Access
  | 0 => []
  | n + 1 => .file pos :: fileAccesses (pos + sizeofFileEntry) n

def linkAccesses (linkOffset : Option UInt32) (lbase : UInt32) : Nat → Nat → List Access
  | 0, _ => []
  | n + 1, i =>
      .link (linkOffset.map fun offset => offset.toNat + i * sizeofLinkEntry)
          (UInt32.ofNat i - lbase) ::
        linkAccesses linkOffset lbase n (i + 1)

def ownerAccesses (e : Endian) (src : Source) (linkOffset : Option UInt32) :
    Nat → Nat → Nat → List Access
  | 0, _, _ => []
  | n + 1, k, pos =>
      let entry := entryAt e src pos
      .owner pos k ::
        (linkAccesses linkOffset entry.linkStart (entry.linkEnd.toNat - entry.linkStart.toNat)
          entry.linkStart.toNat ++
        ownerAccesses e src linkOffset n (k + 1) (pos + sizeofFileEntry))

def accesses (e : Endian) (src : Source) (secs : Sections) : List Access :=
  fileAccesses secs.fileOffset.toNat secs.fileCount.toNat ++
    ownerAccesses e src secs.linkOffset secs.fileCount.toNat 0 secs.fileOffset.toNat

theorem length_fileNames [FixedString] (e : Endian) (src : Source) (pos n : Nat) :
    (fileNames e src pos n).length = n := by
  induction n generalizing pos with
  | zero => rfl
  | succ n ih => rw [fileNames, List.length_cons, ih]

theorem mem_fileAccesses {pos n : Nat} {a : Access} :
    a ∈ fileAccesses pos n ↔ ∃ i < n, a = .file (pos + i * sizeofFileEntry) := by
  induction n generalizing pos with
  | zero => exact iff_of_false List.not_mem_nil fun ⟨_, h, _⟩ => Nat.not_lt_zero _ h
  | succ n ih =>
      rw [fileAccesses, List.mem_cons, ih]
      constructor
      · rintro (rfl | ⟨i, hi, rfl⟩)
        · exact ⟨0, Nat.succ_pos n, by rw [Nat.zero_mul, Nat.add_zero]⟩
        · exact ⟨i + 1, Nat.succ_lt_succ hi, by rw [Nat.succ_mul]; congr 1; omega⟩
      · rintro ⟨i, hi, rfl⟩
        cases i with
        | zero => exact Or.inl (by rw [Nat.zero_mul, Nat.add_zero])
        | succ i =>
            exact Or.inr ⟨i, Nat.lt_of_succ_lt_succ hi, by rw [Nat.succ_mul]; congr 1; omega⟩

theorem mem_linkAccesses {linkOffset : Option UInt32} {lbase : UInt32} {n i : Nat} {a : Access} :
    a ∈ linkAccesses linkOffset lbase n i ↔ ∃ j, i ≤ j ∧ j < i + n ∧
      a = .link (linkOffset.map fun offset => offset.toNat + j * sizeofLinkEntry)
        (UInt32.ofNat j - lbase) := by
  induction n generalizing i with
  | zero => exact iff_of_false List.not_mem_nil fun ⟨_, h, h', _⟩ => absurd h (Nat.not_le_of_lt h')
  | succ n ih =>
      rw [linkAccesses, List.mem_cons, ih]
      constructor
      · rintro (rfl | ⟨j, hj, hlt, rfl⟩)
        · exact ⟨i, Nat.le_refl i, by omega, rfl⟩
        · exact ⟨j, by omega, by omega, rfl⟩
      · rintro ⟨j, hj, hlt, rfl⟩
        by_cases heq : j = i
        · subst heq
          exact Or.inl rfl
        · exact Or.inr ⟨j, by omega, by omega, rfl⟩

theorem mem_ownerAccesses {e : Endian} {src : Source} {linkOffset : Option UInt32} {n k pos : Nat}
    {a : Access} :
    a ∈ ownerAccesses e src linkOffset n k pos ↔ ∃ i < n,
      let entry := entryAt e src (pos + i * sizeofFileEntry)
      a = .owner (pos + i * sizeofFileEntry) (k + i) ∨
      a ∈ linkAccesses linkOffset entry.linkStart (entry.linkEnd.toNat - entry.linkStart.toNat)
        entry.linkStart.toNat := by
  induction n generalizing k pos with
  | zero => exact iff_of_false List.not_mem_nil fun ⟨_, h, _⟩ => Nat.not_lt_zero _ h
  | succ n ih =>
      have hshift : ∀ i, pos + sizeofFileEntry + i * sizeofFileEntry =
          pos + (i + 1) * sizeofFileEntry := fun i => by rw [Nat.succ_mul]; omega
      simp only [ownerAccesses, List.mem_cons, List.mem_append, ih, hshift]
      constructor
      · rintro (rfl | hlink | ⟨i, hi, h⟩)
        · exact ⟨0, Nat.succ_pos n, Or.inl (by rw [Nat.zero_mul]; rfl)⟩
        · exact ⟨0, Nat.succ_pos n, Or.inr (by rw [Nat.zero_mul]; exact hlink)⟩
        · refine ⟨i + 1, Nat.succ_lt_succ hi, ?_⟩
          rwa [Nat.add_assoc k, Nat.add_comm 1 i] at h
      · rintro ⟨i, hi, h⟩
        cases i with
        | zero =>
            rw [Nat.zero_mul] at h
            exact h.imp_right Or.inl
        | succ i =>
            refine Or.inr (Or.inr ⟨i, Nat.lt_of_succ_lt_succ hi, ?_⟩)
            rwa [Nat.add_assoc k, Nat.add_comm 1 i]

theorem not_overran_linkEntry (entry : LinkEntry) (i fileCount : UInt32) :
    ¬ Overran Error.Thrown (entry.validate i fileCount) := by
  rw [LinkEntry.validate]
  repeat refine not_overran_bind not_overran_validateField fun _ _ => ?_
  exact not_overran_validateField

section

variable {e : Endian} {src : Source}

/-- One round of the loop over the links. -/
def readLink (src : Source) (linkOffset : Option UInt32) (fileCount lbase : UInt32) (i : Nat)
    (es : Entries) : Except Error Entry :=
  match linkOffset with
  | none => throw .undefinedBehaviour
  | some linkOffset => do
      let le ← src.preadGen LinkEntry (linkOffset.toNat + i * sizeofLinkEntry)
      le.validate (UInt32.ofNat i - lbase) fileCount
      match es.list[le.linkedFileId.toNat]? with
      | none => throw .undefinedBehaviour
      | some target => pure target

theorem readLinks_succ (linkOffset : Option UInt32) (fileCount lbase : UInt32) (k n i : Nat)
    (es : Entries) :
    readLinks src linkOffset fileCount lbase k (n + 1) i es =
      readLink src linkOffset fileCount lbase i es >>= fun target =>
        readLinks src linkOffset fileCount lbase k n (i + 1) (es.addLink k (some target.id)) := by
  rw [readLinks.eq_def, readLink.eq_def]
  cases linkOffset with
  | none => rfl
  | some linkOffset =>
      simp only [bind_assoc]
      refine congrArg (_ >>= ·) (funext fun le => congrArg (_ >>= ·) (funext fun _ => ?_))
      cases es.list[le.linkedFileId.toNat]? <;> rfl

theorem length_addLink (es : Entries) (k : Nat) (link : Option Nat) :
    (es.addLink k link).list.length = es.list.length :=
  List.length_modify _ _ _

theorem length_readLinks {linkOffset : Option UInt32} {fileCount lbase : UInt32} {k n i : Nat}
    {es es' : Entries} (h : readLinks src linkOffset fileCount lbase k n i es = .ok es') :
    es'.list.length = es.list.length := by
  induction n generalizing i es with
  | zero =>
      cases h
      rfl
  | succ n ih =>
      rw [readLinks_succ] at h
      obtain ⟨target, -, h⟩ := bind_eq_ok.mp h
      rw [ih h, length_addLink]

/-- One round of the second loop, up to the links. -/
def readOwner (e : Endian) (k : Nat) (es : Entries) (src : Source) :
    Except Error (FileEntry × Source) := do
  let (entry, src) ← src.readGen FileEntry
  require (k < es.list.length) Error.undefinedBehaviour
  pure (toNative entry e, src)

theorem readAllLinks_succ (linkOffset : Option UInt32) (fileCount : UInt32) (n k : Nat)
    (es : Entries) :
    readAllLinks e linkOffset fileCount (n + 1) k src es =
      readOwner e k es src >>= fun r =>
        readLinks r.2 linkOffset fileCount r.1.linkStart k
          (r.1.linkEnd.toNat - r.1.linkStart.toNat) r.1.linkStart.toNat es >>= fun es =>
        readAllLinks e linkOffset fileCount n (k + 1) r.2 es := by
  rw [readAllLinks, readOwner]
  simp only [bind_assoc, pure_eq_ok, ok_bind]
  rfl

theorem readOwner_spec {k pos : Nat} {es : Entries} {entry : FileEntry} {src' : Source}
    (h : readOwner e k es (src.at_ pos) = .ok (entry, src')) :
    entry = entryAt e src pos ∧ src' = src.at_ (pos + sizeofFileEntry) := by
  obtain ⟨⟨entry', src₁⟩, hread, h⟩ := bind_eq_ok.mp h
  obtain ⟨_, -, h⟩ := bind_eq_ok.mp h
  cases h
  have hle : pos + Pod.size FileEntry ≤ src.size := by
    by_contra hgt
    rw [Source.readGen_of_gt (Nat.lt_of_not_le hgt)] at hread
    cases hread
  rw [Source.readGen_of_le hle] at hread
  cases hread
  exact ⟨rfl, rfl⟩

end

variable [FixedString]

/-- The access leaves the source or the entries, in the numbers that the code
computes with. -/
def Outside (e : Endian) (src : Source) (secs : Sections) : Access → Prop
  | .file pos =>
      src.size < pos + sizeofFileEntry ∨
      (entryAt e src pos).validate secs.fileSize = .ok () ∧
        src.size < (secs.fileOffset + (entryAt e src pos).dataOffset).toNat +
          (entryAt e src pos).dataSize.toNat
  | .owner pos k => src.size < pos + sizeofFileEntry ∨ entryCount e src secs ≤ k
  | .link none _ => True
  | .link (some pos) linkId =>
      src.size < pos + sizeofLinkEntry ∨
      (linkAt src pos).validate linkId secs.fileCount = .ok () ∧
        entryCount e src secs ≤ (linkAt src pos).linkedFileId.toNat

/-- The record is within the source and refused. -/
def Refused (e : Endian) (src : Source) (secs : Sections) : Access → Prop
  | .file pos =>
      pos + sizeofFileEntry ≤ src.size ∧ (entryAt e src pos).validate secs.fileSize ≠ .ok ()
  | .owner _ _ => False
  | .link none _ => False
  | .link (some pos) linkId =>
      pos + sizeofLinkEntry ≤ src.size ∧
        (linkAt src pos).validate linkId secs.fileCount ≠ .ok ()

theorem not_overran_fileEntry (entry : FileEntry) (blockSize : UInt32) :
    ¬ Overran Error.Thrown (entry.validate blockSize) := by
  rw [FileEntry.validate]
  repeat refine not_overran_bind not_overran_validateField fun _ _ => ?_
  exact not_overran_validateField

section

variable {e : Endian} {src : Source} {secs : Sections}

/-- What a check that only throws does to an access. -/
theorem accesses_check {β : Type} {a : Access} {check : Except Error Unit}
    {f : Unit → Except Error β} (hcheck : ¬ Overran Error.Thrown check)
    (hbad : check ≠ .ok () → ¬ Outside e src secs a)
    (href : check ≠ .ok () → Refused e src secs a)
    (hf : check = .ok () →
      Accesses Error.Thrown (Outside e src secs) (Refused e src secs) [a] (f ())) :
    Accesses Error.Thrown (Outside e src secs) (Refused e src secs) [a] (check >>= f) := by
  cases hx : check with
  | ok u =>
      rw [ok_bind]
      exact hf hx
  | error err =>
      have hne : check ≠ .ok () := by
        rw [hx]
        exact fun h => nomatch h
      rw [error_bind]
      refine Accesses.single_refused (hbad hne) (href hne) ?_
      by_contra hnot
      exact hcheck ⟨err, hx, hnot⟩

/-- One round of the first loop, up to the new entry. -/
def readEntry (e : Endian) (secs : Sections) (src : Source) :
    Except Error (FileEntry × Bytes × Source) := do
  let (entry, src) ← src.readGen FileEntry
  let entry := toNative entry e
  entry.validate secs.fileSize
  let data ← src.sub (secs.fileOffset + entry.dataOffset).toNat entry.dataSize.toNat
  pure (entry, data.bytes, src)

theorem readEntries_succ (n : Nat) (src : Source) (es : Entries) :
    readEntries e secs.fileOffset secs.fileSize (n + 1) src es =
      readEntry e secs src >>= fun r =>
        readEntries e secs.fileOffset secs.fileSize n r.2.2
          (es.emplaceBack (FixedString.cStr r.1.name) r.1.field200 (some r.2.1)) := by
  rw [readEntries, readEntry]
  simp only [bind_assoc, pure_eq_ok, ok_bind]

theorem readEntry_of_le {pos : Nat} (h : pos + sizeofFileEntry ≤ src.size) :
    readEntry e secs (src.at_ pos) =
      (entryAt e src pos).validate secs.fileSize >>= fun _ =>
        (src.at_ (pos + sizeofFileEntry)).sub
          (secs.fileOffset + (entryAt e src pos).dataOffset).toNat
          (entryAt e src pos).dataSize.toNat >>= fun data =>
        .ok (entryAt e src pos, data.bytes, src.at_ (pos + sizeofFileEntry)) := by
  rw [readEntry, Source.readGen_of_le h, ok_bind]
  rfl

theorem accesses_readEntry (pos : Nat) :
    Accesses Error.Thrown (Outside e src secs) (Refused e src secs) [.file pos]
      (readEntry e secs (src.at_ pos)) := by
  by_cases h : pos + sizeofFileEntry ≤ src.size
  · rw [readEntry_of_le h]
    refine accesses_check (not_overran_fileEntry _ _) ?_ (fun hne => ⟨h, hne⟩) fun hvalid => ?_
    · exact fun hne hout => hout.elim (Nat.not_lt_of_le h) fun hwin => hne hwin.1
    · by_cases hwin : (secs.fileOffset + (entryAt e src pos).dataOffset).toNat +
          (entryAt e src pos).dataSize.toNat ≤ src.size
      · obtain ⟨data, hdata, -⟩ := Source.sub_of_le (s := src.at_ (pos + sizeofFileEntry)) hwin
        rw [hdata, ok_bind]
        refine Accesses.single_ok ?_ fun href => href.2 hvalid
        exact fun hout => hout.elim (Nat.not_lt_of_le h) fun hbad => Nat.not_lt_of_le hwin hbad.2
      · have hout : (src.at_ (pos + sizeofFileEntry)).size < _ := Nat.lt_of_not_le hwin
        rw [Source.sub_of_gt hout, error_bind]
        exact Accesses.single_bad (Or.inr ⟨hvalid, hout⟩) (not_thrown_overflow _)
  · have hout : src.size < pos + Pod.size FileEntry := Nat.lt_of_not_le h
    rw [readEntry, Source.readGen_of_gt hout, error_bind]
    exact Accesses.single_bad (Or.inl hout) (not_thrown_overflow _)

theorem readEntry_spec {pos : Nat} {entry : FileEntry} {data : Bytes} {src' : Source}
    (h : readEntry e secs (src.at_ pos) = .ok (entry, data, src')) :
    pos + sizeofFileEntry ≤ src.size ∧ entry = entryAt e src pos ∧
      src' = src.at_ (pos + sizeofFileEntry) := by
  have hle : pos + sizeofFileEntry ≤ src.size := by
    by_contra hgt
    have hout : src.size < pos + Pod.size FileEntry := Nat.lt_of_not_le hgt
    rw [readEntry, Source.readGen_of_gt hout, error_bind] at h
    cases h
  rw [readEntry_of_le hle] at h
  obtain ⟨_, -, h⟩ := bind_eq_ok.mp h
  obtain ⟨_, -, h⟩ := bind_eq_ok.mp h
  cases h
  exact ⟨hle, rfl, rfl⟩

theorem accesses_readEntries (n pos : Nat) (es : Entries) :
    Accesses Error.Thrown (Outside e src secs) (Refused e src secs) (fileAccesses pos n)
      (readEntries e secs.fileOffset secs.fileSize n (src.at_ pos) es) := by
  induction n generalizing pos es with
  | zero => exact Accesses.nil _
  | succ n ih =>
      rw [readEntries_succ]
      refine Accesses.bind (accesses_readEntry pos) fun r hr => ?_
      obtain ⟨entry, data, src'⟩ := r
      obtain ⟨-, rfl, rfl⟩ := readEntry_spec hr
      exact ih _ _

/-- The names in the map are those that were read. -/
theorem readEntries_names {n pos : Nat} {es es' : Entries}
    (h : readEntries e secs.fileOffset secs.fileSize n (src.at_ pos) es = .ok es') (name : Bytes) :
    name ∈ es'.list.map Entry.name ↔
      name ∈ es.list.map Entry.name ∨ name ∈ fileNames e src pos n := by
  induction n generalizing pos es with
  | zero =>
      cases h
      exact (or_iff_left (List.not_mem_nil)).symm
  | succ n ih =>
      rw [readEntries_succ] at h
      obtain ⟨⟨entry, data, src'⟩, hr, h⟩ := bind_eq_ok.mp h
      obtain ⟨-, rfl, rfl⟩ := readEntry_spec hr
      rw [ih h, fileNames, List.mem_cons, ← or_assoc]
      refine or_congr_left ?_
      rw [Entries.emplaceBack]
      split
      · rename_i hmem
        refine (or_iff_left_of_imp ?_).symm
        rintro rfl
        exact hmem
      · rw [List.map_append, List.mem_append, List.map_singleton, List.mem_singleton]

theorem length_readEntries {es : Entries}
    (h : readEntries e secs.fileOffset secs.fileSize secs.fileCount.toNat
      (src.at_ secs.fileOffset.toNat) .empty = .ok es) :
    es.list.length = entryCount e src secs := by
  rw [← List.length_map (f := Entry.name), entryCount]
  refine List.Perm.length_eq ((List.perm_ext_iff_of_nodup es.names_nodup (List.nodup_dedup _)).mpr
    fun name => ?_)
  rw [readEntries_names h, List.mem_dedup]
  exact or_iff_right List.not_mem_nil

theorem accesses_readLink {es : Entries} (hlen : es.list.length = entryCount e src secs)
    (i pos : Nat) (lbase : UInt32) :
    Accesses Error.Thrown (Outside e src secs) (Refused e src secs)
      [.link (secs.linkOffset.map fun offset => offset.toNat + i * sizeofLinkEntry)
        (UInt32.ofNat i - lbase)]
      (readLink (src.at_ pos) secs.linkOffset secs.fileCount lbase i es) := by
  cases secs.linkOffset with
  | none => exact Accesses.single_bad trivial not_thrown_undefined
  | some linkOffset =>
      rw [Option.map_some, readLink]
      by_cases h : linkOffset.toNat + i * sizeofLinkEntry + sizeofLinkEntry ≤ src.size
      · have h' : _ + Pod.size LinkEntry ≤ (src.at_ pos).size := h
        rw [Source.preadGen_of_le h', ok_bind]
        refine accesses_check (not_overran_linkEntry _ _ _) (fun hne => ?_) (fun hne => ⟨h, hne⟩)
          fun hvalid => ?_
        · exact fun hbad => hbad.elim (Nat.not_lt_of_le h) fun hid => hne hid.1
        · split
          · rename_i hget
            rw [List.getElem?_eq_none_iff, hlen] at hget
            exact Accesses.single_bad (Or.inr ⟨hvalid, hget⟩) not_thrown_undefined
          · rename_i target hget
            obtain ⟨hlt, -⟩ := List.getElem?_eq_some_iff.mp hget
            rw [hlen] at hlt
            refine Accesses.single_ok (fun hbad => ?_) fun href => href.2 hvalid
            exact hbad.elim (Nat.not_lt_of_le h) fun hid => Nat.not_le_of_lt hlt hid.2
      · have hout : (src.at_ pos).size < _ + Pod.size LinkEntry := Nat.lt_of_not_le h
        rw [Source.preadGen_of_gt hout, error_bind]
        exact Accesses.single_bad (Or.inl hout) (not_thrown_overflow _)

theorem accesses_readLinks {es : Entries} (hlen : es.list.length = entryCount e src secs)
    (lbase : UInt32) (k n i pos : Nat) :
    Accesses Error.Thrown (Outside e src secs) (Refused e src secs)
      (linkAccesses secs.linkOffset lbase n i)
      (readLinks (src.at_ pos) secs.linkOffset secs.fileCount lbase k n i es) := by
  induction n generalizing i es with
  | zero => exact Accesses.nil _
  | succ n ih =>
      rw [readLinks_succ]
      refine Accesses.bind (accesses_readLink hlen i pos lbase) fun target _ => ih ?_ _
      rw [length_addLink, hlen]

theorem accesses_readOwner {es : Entries} (hlen : es.list.length = entryCount e src secs)
    (k pos : Nat) :
    Accesses Error.Thrown (Outside e src secs) (Refused e src secs) [.owner pos k]
      (readOwner e k es (src.at_ pos)) := by
  by_cases h : pos + sizeofFileEntry ≤ src.size
  · have h' : pos + Pod.size FileEntry ≤ src.size := h
    rw [readOwner, Source.readGen_of_le h', ok_bind]
    by_cases hk : k < es.list.length
    · simp only [require_of hk, ok_bind]
      refine Accesses.single_ok (fun hbad => ?_) id
      rw [hlen] at hk
      exact hbad.elim (Nat.not_lt_of_le h) (Nat.not_le_of_lt hk)
    · simp only [require_not hk, error_bind]
      rw [hlen] at hk
      exact Accesses.single_bad (Or.inr (Nat.le_of_not_lt hk)) not_thrown_undefined
  · have hout : src.size < pos + Pod.size FileEntry := Nat.lt_of_not_le h
    rw [readOwner, Source.readGen_of_gt hout, error_bind]
    exact Accesses.single_bad (Or.inl hout) (not_thrown_overflow _)

theorem accesses_readAllLinks {es : Entries} (hlen : es.list.length = entryCount e src secs)
    (n k pos : Nat) :
    Accesses Error.Thrown (Outside e src secs) (Refused e src secs)
      (ownerAccesses e src secs.linkOffset n k pos)
      (readAllLinks e secs.linkOffset secs.fileCount n k (src.at_ pos) es) := by
  induction n generalizing k pos es with
  | zero => exact Accesses.nil _
  | succ n ih =>
      rw [readAllLinks_succ]
      refine Accesses.bind (accesses_readOwner hlen k pos) fun r hr => ?_
      obtain ⟨entry, src'⟩ := r
      obtain ⟨rfl, rfl⟩ := readOwner_spec hr
      refine Accesses.bind (accesses_readLinks hlen _ k _ _ _) fun es' hes' => ih ?_ _ _
      rw [length_readLinks hes', hlen]

/-- The files are read by the accesses listed for them. -/
theorem accesses_readFiles (hoffset : secs.fileOffset.toNat ≤ src.size) :
    Accesses Error.Thrown (Outside e src secs) (Refused e src secs) (accesses e src secs)
      (readFiles e src secs) := by
  rw [readFiles, Source.seek_of_le hoffset, ok_bind]
  refine Accesses.bind (accesses_readEntries _ _ _) fun es hes => ?_
  exact accesses_readAllLinks (length_readEntries hes) _ _ _

end

end Cl3

end Neptools

import Neptools.Cl3.Layout
import Neptools.Cl3.Parse

/-!
Reading back the files of an archive: new file objects, numbered in order, with
the names and contents of the files that were written and without links.
-/

namespace Neptools

open Lib

namespace Cl3

/-- The file object that is read for a file, the `k`-th of its archive. -/
def Entry.parsed (k : Nat) (e : Entry) : Entry :=
  { id := k, name := e.name, field200 := e.field200, links := [], src := some e.contents }

/-- Names that fit. -/
def Entry.Named (e : Entry) : Prop := 0 ∉ e.name ∧ e.name.length < 0x200

instance (e : Entry) : Decidable e.Named := inferInstanceAs (Decidable (_ ∧ _))

/-- The file objects are numbered in order. -/
def Entries.Sequential (es : Entries) : Prop :=
  es.list.map Entry.id = List.range es.list.length

theorem foldr_range (n a : Nat) :
    (List.range n).foldr (fun i m => max (i + 1) m) a = max n a := by
  induction n generalizing a with
  | zero => rw [List.range_zero, List.foldr_nil, Nat.zero_max]
  | succ n ih =>
      rw [List.range_succ, List.foldr_append, List.foldr_cons, List.foldr_nil, ih]
      omega

theorem fresh_eq {es : Entries} (h : es.Sequential) : fresh es.list = es.list.length := by
  have hmap : fresh es.list = (es.list.map Entry.id).foldr (fun i n => max (i + 1) n) 0 := by
    rw [List.foldr_map]
    rfl
  rw [hmap, h, foldr_range, Nat.max_zero]

theorem emplaceBack_list {es : Entries} (h : es.Sequential) {name : Bytes} (field200 : UInt32)
    (src : Option Bytes) (hname : name ∉ es.list.map Entry.name) :
    (es.emplaceBack name field200 src).list =
      es.list ++ [{ id := es.list.length, name, field200, links := [], src }] := by
  rw [Entries.emplaceBack, dif_neg hname]
  exact congrArg (fun i => es.list ++ [{ id := i, name, field200, links := [], src }])
    (fresh_eq h)

theorem sequential_emplaceBack {es : Entries} (h : es.Sequential) {name : Bytes}
    (field200 : UInt32) (src : Option Bytes) (hname : name ∉ es.list.map Entry.name) :
    (es.emplaceBack name field200 src).Sequential := by
  rw [Entries.Sequential, emplaceBack_list h field200 src hname, List.map_append, h,
    List.length_append, List.length_singleton, List.range_succ]
  rfl

section Files

variable [FixedString]

theorem validate_fileEntry {e : Entry} (hname : e.Named) {off fileSize : Nat} (linkI : UInt32)
    (hfit : off + e.contents.length ≤ fileSize) (hsize : fileSize < 2 ^ 32) :
    (e.fileEntry (UInt32.ofNat off) linkI).validate (UInt32.ofNat fileSize) = .ok () := by
  set fe := e.fileEntry (UInt32.ofNat off) linkI with hfe
  have hvalid : FixedString.isValid fe.name.1 = true :=
    FixedString.isValid_assign hname.2 hname.1
  have hoff : fe.dataOffset ≤ UInt32.ofNat fileSize := by
    change UInt32.ofNat off ≤ UInt32.ofNat fileSize
    rw [UInt32.le_iff_toNat_le, toNat_ofNat_of_lt (by omega), toNat_ofNat_of_lt (by omega)]
    omega
  have hend : fe.dataOffset + fe.dataSize ≤ UInt32.ofNat fileSize := by
    change UInt32.ofNat off + UInt32.ofNat e.srcSize ≤ UInt32.ofNat fileSize
    rw [← UInt32.ofNat_add, UInt32.le_iff_toNat_le, e.srcSize_eq,
      toNat_ofNat_of_lt (by omega), toNat_ofNat_of_lt (by omega)]
    omega
  have hzero : fe.field214 = 0 ∧ fe.field218 = 0 ∧ fe.field21c = 0 := ⟨rfl, rfl, rfl⟩
  have hzero' : fe.field220 = 0 ∧ fe.field224 = 0 ∧ fe.field228 = 0 ∧ fe.field22c = 0 :=
    ⟨rfl, rfl, rfl, rfl⟩
  rw [FileEntry.validate]
  simp only [validateField_of hvalid, validateField_of hoff, validateField_of hend,
    validateField_of hzero, validateField_of hzero', ok_bind]

/-- The files are read from their records, in order. -/
theorem readEntries_records {endian : Endian} {src : Source} {fileOffset fileSize : Nat}
    (hsize : fileOffset + fileSize < 2 ^ 32) {xs : List Entry} :
    ∀ {off linkI pos : Nat} {es : Entries},
      StandsAt (recordBytes endian (fileEntries off linkI xs)) pos src.bytes →
      StandsAt (xs.flatMap Entry.dataBytes) (fileOffset + off) src.bytes →
      off + dataLength xs ≤ fileSize → (∀ x ∈ xs, x.Named) →
      ((es.list ++ xs).map Entry.name).Nodup → es.Sequential →
      ∃ es', readEntries endian (UInt32.ofNat fileOffset) (UInt32.ofNat fileSize) xs.length
          (src.at_ pos) es = .ok es' ∧ es'.Sequential ∧
        es'.list = es.list ++ xs.mapIdx fun k x => x.parsed (es.list.length + k) := by
  induction xs with
  | nil =>
      intro off linkI pos es _ _ _ _ _ hseq
      exact ⟨es, rfl, hseq, (List.append_nil _).symm⟩
  | cons x xs ih =>
      intro off linkI pos es hrec hdata hfit hnamed hnodup hseq
      have hname := hnamed x List.mem_cons_self
      rw [dataLength_cons] at hfit
      have hup := le_up x.contents.length
      have hsplit : recordBytes endian (fileEntries off linkI (x :: xs)) =
          toBytes (fromNative (x.fileEntry (UInt32.ofNat off) (UInt32.ofNat linkI)) endian) ++
            recordBytes endian (fileEntries (off + up x.contents.length)
              (linkI + x.links.length) xs) := List.flatMap_cons
      rw [hsplit] at hrec
      rw [List.flatMap_cons] at hdata
      have hread := Source.readGen_of_standsAt (s := src) hrec.left
      have hvalid := validate_fileEntry hname (UInt32.ofNat linkI)
        (by omega : off + x.contents.length ≤ fileSize) (by omega)
      obtain ⟨data, hsub, hbytes⟩ :=
        Source.sub_of_standsAt (s := src.at_ (pos + Pod.size FileEntry)) hdata.left.left
      have hoff : (UInt32.ofNat fileOffset + UInt32.ofNat off).toNat = fileOffset + off := by
        rw [← UInt32.ofNat_add, toNat_ofNat_of_lt (by omega)]
      have hlen : (UInt32.ofNat x.srcSize).toNat = x.contents.length := by
        rw [x.srcSize_eq, toNat_ofNat_of_lt (by omega)]
      have hmem : x.name ∉ es.list.map Entry.name := by
        rw [List.map_append, List.nodup_append] at hnodup
        intro hmem
        exact hnodup.2.2 _ hmem _ List.mem_cons_self rfl
      have hlist := emplaceBack_list hseq x.field200 (some x.contents) hmem
      have hrec' := hrec.right
      have hdata' := hdata.right
      rw [Pod.length_toBytes] at hrec'
      rw [length_dataBytes, Nat.add_assoc] at hdata'
      obtain ⟨es', hes', hseq', hlist'⟩ := @ih _ _ _ (es.emplaceBack x.name x.field200
        (some x.contents)) hrec' hdata' (by omega)
        (fun y hy => hnamed y (List.mem_cons_of_mem _ hy)) (by
          rw [hlist, List.map_append, List.map_append]
          rw [List.map_append, List.map_cons] at hnodup
          simpa using hnodup)
        (sequential_emplaceBack hseq x.field200 (some x.contents) hmem)
      refine ⟨es', ?_, hseq', ?_⟩
      · rw [List.length_cons, readEntries, hread]
        simp only [ok_bind, toNative_fromNative, hvalid]
        have hdst : (UInt32.ofNat fileOffset + (x.fileEntry (UInt32.ofNat off)
            (UInt32.ofNat linkI)).dataOffset).toNat = fileOffset + off := hoff
        have hdlen : (x.fileEntry (UInt32.ofNat off) (UInt32.ofNat linkI)).dataSize.toNat =
            x.contents.length := hlen
        have hcstr : FixedString.cStr (x.fileEntry (UInt32.ofNat off)
            (UInt32.ofNat linkI)).name = x.name := FixedString.cStr_assign hname.2 hname.1
        rw [hdst, hdlen, hsub, ok_bind, hbytes, hcstr]
        exact hes'
      · have hlen' : (es.emplaceBack x.name x.field200 (some x.contents)).list.length =
            es.list.length + 1 := by rw [hlist, List.length_append, List.length_singleton]
        rw [hlist', hlen', hlist, List.mapIdx_cons, List.append_assoc]
        simp only [Nat.add_assoc, Nat.add_comm 1]
        rfl

end Files

end Cl3

end Neptools

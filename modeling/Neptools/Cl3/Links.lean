import Neptools.Cl3.Files

/-!
Reading the links. A link is read when its record stands, in the order of bytes
of the machine, where the section of the links says, whatever is written there.
-/

namespace Neptools

open Lib

namespace Cl3

/-- More links of the file at place `k`. -/
def Entries.addLinks (es : Entries) (k : Nat) (ids : List Nat) : Entries :=
  ids.foldl (fun es id => es.addLink k (some id)) es

/-- Links of the files from place `k` on. -/
def Entries.addAllLinks (es : Entries) (k : Nat) : List (List Nat) → Entries
  | [] => es
  | ids :: idss => (es.addLinks k ids).addAllLinks (k + 1) idss

/-- The file with more links. -/
def Entry.withLinks (ids : List Nat) (e : Entry) : Entry :=
  { e with links := e.links ++ ids.map some }

theorem Entry.withLinks_nil (e : Entry) : e.withLinks [] = e := by
  rw [withLinks, List.map_nil, List.append_nil]

theorem addLinks_list (es : Entries) (k : Nat) (ids : List Nat) :
    (es.addLinks k ids).list = es.list.modify k (Entry.withLinks ids) := by
  induction ids generalizing es with
  | nil =>
      have hid : Entry.withLinks [] = id := funext Entry.withLinks_nil
      rw [hid, List.modify_id]
      rfl
  | cons id ids ih =>
      have hcomp : Entry.withLinks ids ∘ Entry.addLink (some id) = Entry.withLinks (id :: ids) := by
        funext e
        simp only [Function.comp_apply, Entry.withLinks, Entry.addLink, List.map_cons,
          List.append_assoc, List.singleton_append]
      rw [Entries.addLinks, List.foldl_cons, ← Entries.addLinks, ih, Entries.addLink,
        List.modify_modify_eq, hcomp]

theorem length_addLinks (es : Entries) (k : Nat) (ids : List Nat) :
    (es.addLinks k ids).list.length = es.list.length := by
  rw [addLinks_list, List.length_modify]

theorem sequential_addLinks {es : Entries} (h : es.Sequential) (k : Nat) (ids : List Nat) :
    (es.addLinks k ids).Sequential := by
  rw [Entries.Sequential, length_addLinks, addLinks_list,
    map_modify_of_eq (h := Entry.withLinks ids) fun _ => rfl]
  exact h

theorem getElem?_addAllLinks (es : Entries) (k : Nat) (idss : List (List Nat)) (m : Nat) :
    (es.addAllLinks k idss).list[m]? = (es.list[m]?).map
      (Entry.withLinks (if m < k then [] else (idss[m - k]?).getD [])) := by
  induction idss generalizing es k with
  | nil =>
      have hid : ∀ b : Bool, Entry.withLinks [] = id := fun _ => funext Entry.withLinks_nil
      simp only [Entries.addAllLinks, List.getElem?_nil, Option.getD_none, ite_self, hid true,
        Option.map_id_fun, id]
  | cons ids idss ih =>
      rw [Entries.addAllLinks, ih, addLinks_list, List.getElem?_modify]
      cases es.list[m]? with
      | none => rfl
      | some e =>
          rcases Nat.lt_trichotomy m k with hlt | rfl | hgt
          · rw [if_pos (by omega), if_pos hlt]
            simp only [if_neg (Nat.ne_of_gt hlt), Option.map_eq_map, Option.map_some]
          · rw [if_pos (Nat.lt_succ_self m), if_neg (Nat.lt_irrefl m), Nat.sub_self,
              List.getElem?_cons_zero]
            simp only [if_true, Option.map_eq_map, Option.map_some, Entry.withLinks_nil,
              Option.getD_some]
          · obtain ⟨d, rfl⟩ : ∃ d, m = k + 1 + d := ⟨m - (k + 1), by omega⟩
            rw [if_neg (by omega), if_neg (by omega), Nat.add_sub_cancel_left,
              show k + 1 + d - k = d + 1 by omega, List.getElem?_cons_succ]
            simp only [if_neg (Nat.ne_of_lt hgt), Option.map_eq_map, Option.map_some]

theorem sequential_addAllLinks {es : Entries} (h : es.Sequential) (k : Nat)
    (idss : List (List Nat)) : (es.addAllLinks k idss).Sequential := by
  induction idss generalizing es k with
  | nil => exact h
  | cons ids idss ih => exact ih (sequential_addLinks h k ids) (k + 1)

theorem getElem?_sequential {es : Entries} (h : es.Sequential) {i : Nat} {e : Entry}
    (he : es.list[i]? = some e) : e.id = i := by
  have hids := congrArg (·[i]?) h
  simp only [List.getElem?_map, he, Option.map_some] at hids
  have hlt := (List.getElem?_eq_some_iff.mp he).1
  rw [List.getElem?_range hlt] at hids
  exact Option.some.inj hids

/-! The links of one file. -/

theorem validate_linkEntry {le : LinkEntry} {i fileCount : UInt32} :
    le.validate i fileCount = .ok () ↔
      le = LinkEntry.toFile le.linkedFileId i ∧ le.linkedFileId < fileCount := by
  constructor
  · intro h
    simp only [LinkEntry.validate, validateField, bind_eq_ok, require_eq_ok, exists_const] at h
    obtain ⟨h00, hlt, hid, h0c, h10, h14, h18, h1c⟩ := h
    refine ⟨?_, hlt⟩
    cases le
    simp only at h00 hid h0c h10 h14 h18 h1c
    subst h00 hid h0c h10 h14 h18 h1c
    rfl
  · rintro ⟨heq, hlt⟩
    generalize le.linkedFileId = id at heq hlt
    subst heq
    set le := LinkEntry.toFile id i with hle
    have h00 : le.field00 = 0 := rfl
    have hlt : le.linkedFileId < fileCount := hlt
    have hid : le.linkId = i := rfl
    have h0c : le.field0c = 0 := rfl
    have hrest : le.field10 = 0 ∧ le.field14 = 0 ∧ le.field18 = 0 ∧ le.field1c = 0 :=
      ⟨rfl, rfl, rfl, rfl⟩
    simp only [LinkEntry.validate, validateField_of h00, validateField_of hlt,
      validateField_of hid, validateField_of h0c, validateField_of hrest, ok_bind]

/-- The record of link `t` to the file at place `id` stands in `buf`. The first
record of the file that has the link is record `start`. -/
def RecordAt (buf : Bytes) (linkOffset start t id : Nat) : Prop :=
  StandsAt (toBytes (LinkEntry.toFile (UInt32.ofNat id) (UInt32.ofNat t)))
    (linkOffset + (start + t) * sizeofLinkEntry) buf

theorem ofNat_add_sub (a b : Nat) : UInt32.ofNat (a + b) - UInt32.ofNat a = UInt32.ofNat b := by
  rw [Nat.add_comm, UInt32.ofNat_add, UInt32.add_sub_cancel]

/-- Links that are read have their records where they are read. -/
theorem readLinks_ok {src : Source} {linkOffset fileCount : UInt32} {start k n t₀ : Nat}
    {es es' : Entries} (h : readLinks src (some linkOffset) fileCount (UInt32.ofNat start) k n
      (start + t₀) es = .ok es') (hseq : es.Sequential) :
    ∃ ids, ids.length = n ∧ es' = es.addLinks k ids ∧
      ∀ t id, ids[t]? = some id →
        id < es.list.length ∧ RecordAt src.bytes linkOffset.toNat start (t₀ + t) id := by
  induction n generalizing t₀ es with
  | zero =>
      cases h
      exact ⟨[], rfl, rfl, fun t id hid => nomatch hid⟩
  | succ n ih =>
      rw [readLinks] at h
      simp only [ofNat_add_sub] at h
      obtain ⟨le, hread, h⟩ := bind_eq_ok.mp h
      obtain ⟨_, hvalid, h⟩ := bind_eq_ok.mp h
      obtain ⟨hle, -⟩ := validate_linkEntry.mp hvalid
      split at h
      · cases h
      · rename_i target htarget
        have hid := getElem?_sequential hseq htarget
        have hlt := (List.getElem?_eq_some_iff.mp htarget).1
        have hseq' : (es.addLink k (some target.id)).Sequential :=
          sequential_addLinks hseq k [target.id]
        have hlen : (es.addLink k (some target.id)).list.length = es.list.length :=
          List.length_modify _ _ _
        obtain ⟨ids, hids, hes', hrec⟩ := @ih (t₀ + 1) _ h hseq'
        refine ⟨target.id :: ids, by rw [List.length_cons, hids], hes', ?_⟩
        intro t id ht
        cases t with
        | zero =>
            cases ht
            refine ⟨hid ▸ hlt, ?_⟩
            rw [RecordAt, hid, UInt32.ofNat_toNat, Nat.add_zero, ← hle]
            exact Source.standsAt_of_preadGen hread
        | succ t =>
            obtain ⟨hlt', hrec'⟩ := hrec t id ht
            rw [hlen] at hlt'
            rw [show t₀ + (t + 1) = t₀ + 1 + t by omega]
            exact ⟨hlt', hrec'⟩

/-- Links whose records stand where they are read are read. -/
theorem readLinks_of {src : Source} {linkOffset fileCount : UInt32} {start k t₀ : Nat}
    {ids : List Nat} {es : Entries} (hseq : es.Sequential)
    (h : ∀ t id, ids[t]? = some id → id < es.list.length ∧ id < fileCount.toNat ∧
      RecordAt src.bytes linkOffset.toNat start (t₀ + t) id) :
    readLinks src (some linkOffset) fileCount (UInt32.ofNat start) k ids.length (start + t₀) es =
      .ok (es.addLinks k ids) := by
  induction ids generalizing t₀ es with
  | nil => rfl
  | cons id ids ih =>
      obtain ⟨hlt, hcount, hrec⟩ := h 0 id rfl
      have hcount32 := fileCount.toNat_lt
      have hnat : (UInt32.ofNat id).toNat = id := toNat_ofNat_of_lt (by omega)
      have hread := Source.preadGen_of_standsAt hrec
      have hvalid : (LinkEntry.toFile (UInt32.ofNat id) (UInt32.ofNat t₀)).validate
          (UInt32.ofNat t₀) fileCount = .ok () := by
        refine validate_linkEntry.mpr ⟨rfl, ?_⟩
        change UInt32.ofNat id < fileCount
        rw [UInt32.lt_iff_toNat_lt, hnat]
        exact hcount
      have htarget : es.list[(LinkEntry.toFile (UInt32.ofNat id)
          (UInt32.ofNat t₀)).linkedFileId.toNat]? = some es.list[id] := by
        change es.list[(UInt32.ofNat id).toNat]? = _
        rw [hnat]
        exact List.getElem?_eq_getElem hlt
      have hid : es.list[id].id = id :=
        getElem?_sequential hseq (List.getElem?_eq_getElem hlt)
      rw [Nat.add_zero] at hread
      rw [List.length_cons, readLinks, hread]
      simp only [ok_bind, ofNat_add_sub, hvalid, htarget, hid]
      have hlen : (es.addLink k (some id)).list.length = es.list.length :=
        List.length_modify _ _ _
      refine @ih (t₀ + 1) _ (sequential_addLinks hseq k [id]) fun t id' ht => ?_
      obtain ⟨hlt', hcount', hrec'⟩ := h (t + 1) id' ht
      rw [hlen, show t₀ + 1 + t = t₀ + (t + 1) by omega]
      exact ⟨hlt', hcount', hrec'⟩

/-! The links of all files. -/

def recordsOf (ids : List Nat) : List LinkEntry :=
  ids.mapIdx fun t id => LinkEntry.toFile (UInt32.ofNat id) (UInt32.ofNat t)

/-- The records stand one behind the other, the first as record `start`. -/
def RecordsAt (buf : Bytes) (linkOffset start : Nat) (records : List LinkEntry) : Prop :=
  ∀ i le, records[i]? = some le →
    StandsAt (toBytes le) (linkOffset + (start + i) * sizeofLinkEntry) buf

theorem recordsAt_append {buf : Bytes} {linkOffset start : Nat} {rs rs' : List LinkEntry} :
    RecordsAt buf linkOffset start (rs ++ rs') ↔
      RecordsAt buf linkOffset start rs ∧ RecordsAt buf linkOffset (start + rs.length) rs' := by
  rw [RecordsAt, forall_getElem?_append]
  simp only [RecordsAt, Nat.add_assoc]

theorem recordsAt_recordsOf {buf : Bytes} {linkOffset start : Nat} {ids : List Nat} :
    RecordsAt buf linkOffset start (recordsOf ids) ↔
      ∀ t id, ids[t]? = some id → RecordAt buf linkOffset start t id := by
  constructor
  · intro h t id ht
    refine h t _ ?_
    rw [recordsOf, List.getElem?_mapIdx, ht]
    rfl
  · intro h t le ht
    rw [recordsOf, List.getElem?_mapIdx] at ht
    obtain ⟨id, hid, rfl⟩ := Option.map_eq_some_iff.mp ht
    exact h t id hid

theorem length_recordsOf (ids : List Nat) : (recordsOf ids).length = ids.length :=
  List.length_mapIdx

/-- The range of record numbers in a file entry. -/
theorem fileEntry_links [FixedString] {e : Entry} (off : UInt32) {start : Nat}
    (hlt : start + e.links.length < 2 ^ 32) :
    ((e.fileEntry off (UInt32.ofNat start)).linkStart +
        (e.fileEntry off (UInt32.ofNat start)).linkCount).toNat -
      (e.fileEntry off (UInt32.ofNat start)).linkStart.toNat = e.links.length := by
  change (UInt32.ofNat start + UInt32.ofNat e.links.length).toNat - (UInt32.ofNat start).toNat = _
  rw [← UInt32.ofNat_add, toNat_ofNat_of_lt hlt, toNat_ofNat_of_lt (by omega),
    Nat.add_sub_cancel_left]

theorem readAllLinks_ok [FixedString] {endian : Endian} {src : Source} {linkOffset fileCount : UInt32}
    {xs : List Entry} : ∀ {off start pos k : Nat} {es es' : Entries},
      StandsAt (recordBytes endian (fileEntries off start xs)) pos src.bytes →
      start + linkTotal xs < 2 ^ 32 → es.Sequential →
      readAllLinks endian (some linkOffset) fileCount xs.length k (src.at_ pos) es = .ok es' →
      ∃ idss : List (List Nat), idss.map List.length = xs.map (fun x => x.links.length) ∧
        es' = es.addAllLinks k idss ∧ (∀ ids ∈ idss, ∀ id ∈ ids, id < es.list.length) ∧
        RecordsAt src.bytes linkOffset.toNat start (idss.flatMap recordsOf) := by
  induction xs with
  | nil =>
      intro off start pos k es es' _ _ _ h
      cases h
      exact ⟨[], rfl, rfl, (fun _ h => nomatch h), fun _ _ h => nomatch h⟩
  | cons x xs ih =>
      intro off start pos k es es' hrec hlt hseq h
      rw [linkTotal_cons] at hlt
      have hsplit : recordBytes endian (fileEntries off start (x :: xs)) =
          toBytes (fromNative (x.fileEntry (UInt32.ofNat off) (UInt32.ofNat start)) endian) ++
            recordBytes endian (fileEntries (off + up x.contents.length)
              (start + x.links.length) xs) := List.flatMap_cons
      rw [hsplit] at hrec
      have hread := Source.readGen_of_standsAt (s := src) hrec.left
      have hrec' := hrec.right
      rw [Pod.length_toBytes] at hrec'
      rw [List.length_cons, readAllLinks, hread] at h
      simp only [ok_bind, toNative_fromNative, fileEntry_links _ (by omega : start +
        x.links.length < 2 ^ 32)] at h
      obtain ⟨_, -, h⟩ := bind_eq_ok.mp h
      obtain ⟨es₁, hlinks, h⟩ := bind_eq_ok.mp h
      have hstart : (x.fileEntry (UInt32.ofNat off) (UInt32.ofNat start)).linkStart.toNat =
          start + 0 := toNat_ofNat_of_lt (by omega)
      rw [hstart] at hlinks
      obtain ⟨ids, hids, rfl, hrecs⟩ := readLinks_ok hlinks hseq
      obtain ⟨idss, hidss, rfl, hall, hrest⟩ :=
        ih hrec' (by omega) (sequential_addLinks hseq k ids) h
      rw [length_addLinks] at hall
      refine ⟨ids :: idss, ?_, rfl, ?_, ?_⟩
      · rw [List.map_cons, List.map_cons, hids, hidss]
      · intro ids' hids' id hid
        rcases List.mem_cons.mp hids' with rfl | hids'
        · obtain ⟨t, ht⟩ := List.mem_iff_getElem?.mp hid
          exact (hrecs t id ht).1
        · exact hall ids' hids' id hid
      · rw [List.flatMap_cons, recordsAt_append, length_recordsOf, hids]
        refine ⟨recordsAt_recordsOf.mpr fun t id ht => ?_, hrest⟩
        have hrecord := (hrecs t id ht).2
        rwa [Nat.zero_add] at hrecord

theorem readAllLinks_of [FixedString] {endian : Endian} {src : Source} {linkOffset fileCount : UInt32}
    {xs : List Entry} : ∀ {off start pos k : Nat} {es : Entries} {idss : List (List Nat)},
      StandsAt (recordBytes endian (fileEntries off start xs)) pos src.bytes →
      start + linkTotal xs < 2 ^ 32 → es.Sequential → k + xs.length ≤ es.list.length →
      idss.map List.length = xs.map (fun x => x.links.length) →
      (∀ ids ∈ idss, ∀ id ∈ ids, id < es.list.length ∧ id < fileCount.toNat) →
      RecordsAt src.bytes linkOffset.toNat start (idss.flatMap recordsOf) →
      readAllLinks endian (some linkOffset) fileCount xs.length k (src.at_ pos) es =
        .ok (es.addAllLinks k idss) := by
  induction xs with
  | nil =>
      intro off start pos k es idss _ _ _ _ hlens _ _
      cases List.map_eq_nil_iff.mp hlens
      rfl
  | cons x xs ih =>
      intro off start pos k es idss hrec hlt hseq hk hlens hall hrecs
      obtain ⟨ids, idss, rfl⟩ : ∃ ids idss', idss = ids :: idss' := by
        cases idss with
        | nil => cases hlens
        | cons ids idss => exact ⟨ids, idss, rfl⟩
      rw [linkTotal_cons] at hlt
      rw [List.length_cons] at hk
      rw [List.map_cons, List.map_cons] at hlens
      injection hlens with hlen hlens
      rw [List.flatMap_cons, recordsAt_append, length_recordsOf, hlen] at hrecs
      have hsplit : recordBytes endian (fileEntries off start (x :: xs)) =
          toBytes (fromNative (x.fileEntry (UInt32.ofNat off) (UInt32.ofNat start)) endian) ++
            recordBytes endian (fileEntries (off + up x.contents.length)
              (start + x.links.length) xs) := List.flatMap_cons
      rw [hsplit] at hrec
      have hread := Source.readGen_of_standsAt (s := src) hrec.left
      have hrec' := hrec.right
      rw [Pod.length_toBytes] at hrec'
      have hlinks : readLinks (src.at_ (pos + Pod.size FileEntry)) (some linkOffset) fileCount
          (UInt32.ofNat start) k ids.length (start + 0) es = .ok (es.addLinks k ids) :=
        readLinks_of hseq fun t id ht => by
          have hid := hall ids List.mem_cons_self id (List.mem_of_getElem? ht)
          have hrecord := recordsAt_recordsOf.mp hrecs.1 t id ht
          rw [Nat.zero_add]
          exact ⟨hid.1, hid.2, hrecord⟩
      have hstart : (x.fileEntry (UInt32.ofNat off) (UInt32.ofNat start)).linkStart.toNat =
          start + 0 := toNat_ofNat_of_lt (by omega)
      have hrange := fileEntry_links (UInt32.ofNat off) (by omega : start + x.links.length < 2 ^ 32)
      rw [List.length_cons, readAllLinks, hread]
      simp only [ok_bind, toNative_fromNative, require_of (by omega : k < es.list.length)]
      rw [hrange, hstart, ← hlen]
      refine (congrArg (· >>= _) hlinks).trans ?_
      rw [ok_bind]
      refine ih hrec' (by omega) (sequential_addLinks hseq k ids) ?_ hlens ?_ hrecs.2
      · rw [length_addLinks]
        omega
      · intro ids' hids' id hid
        rw [length_addLinks]
        exact hall ids' (List.mem_cons_of_mem _ hids') id hid

end Cl3

end Neptools

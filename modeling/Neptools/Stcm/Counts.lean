import Neptools.Stcm.Expansions

/-!
The header of an STCM file does not hold the places and the numbers of the tables;
it counts them when it is written. After a file was read, the numbers are those
that were read, but for a table of expansions that is there and has none.
-/

namespace Neptools

open Lib

namespace Context

/-- The first header that is split off is the only one. -/
theorem Consistent.splitCreate_header {ctx ctx' : Context} (h : ctx.Consistent)
    (hflat : ctx.Flat)
    (hnone : ∀ it ∈ ctx.children.nodes, it.body.isHeader = false) {id pos : Nat} {body : Body}
    (hheader : body.isHeader = true) (hsplit : ctx.splitCreate id pos body = .ok ctx') :
    ctx'.Consistent ∧ (∀ b, b.isHeader = true → (ctx'.HasBody b ↔ b = body)) ∧
      ctx.view.Extends False ctx'.view := by
  obtain ⟨k, r, src, p, -, hbody, hk, -, -, -, hp⟩ := h.splitCreate_ok hsplit
  refine ⟨h.splitCreate_of_flat hflat hsplit, fun b hb => ?_,
    (hp.extends h.create hk hbody (h.freshList_create body)).weaken⟩
  constructor
  · rintro ⟨it, hit, rfl⟩
    rw [hp.children, mem_plug] at hit
    rcases hit with hit | hit
    · have hit' : it ∈ ctx.children.nodes := by
        rw [hk, mem_plug]
        exact .inl hit
      exact absurd ((hnone it hit').symm.trans hb) Bool.false_ne_true
    · rcases Parts.mem_items hit with rfl | hit | ⟨-, src', hraw⟩
      · rfl
      · cases hit
      · rw [hraw] at hb
        cases hb
  · rintro rfl
    exact ⟨_, Forest.mem_nodes.mpr ⟨_, hp.mem_new⟩, rfl⟩

end Context

namespace Stcm

open Context

namespace HeaderItem

/-- The labels of the header are at the places that were read. -/
structure Places (ctx : Context) (h : HeaderItem) (hdr : Header) : Prop where
  msg : h.msg = hdr.msg
  field28 : h.field28 = hdr.field28
  exportSec : ctx.toFilePos h.exportSec = .ok hdr.exportOffset.toNat
  collectionLink : ctx.toFilePos h.collectionLink = .ok hdr.collectionLinkOffset.toNat
  noExpansion : h.expansion = none ↔ hdr.expansionOffset = 0
  expansion : ∀ l, h.expansion = some l → ctx.toFilePos l = .ok hdr.expansionOffset.toNat

theorem Places.keep {ctx ctx' : Context} {h : HeaderItem} {hdr : Header} (hp : Places ctx h hdr)
    (hkeep : ∀ l pos, ctx.toFilePos l = .ok pos → ctx'.toFilePos l = .ok pos) :
    Places ctx' h hdr where
  msg := hp.msg
  field28 := hp.field28
  exportSec := hkeep _ _ hp.exportSec
  collectionLink := hkeep _ _ hp.collectionLink
  noExpansion := hp.noExpansion
  expansion l hl := hkeep _ _ (hp.expansion l hl)

theorem parseExpansion_ok {ctx : Context} {offset : UInt32} {y : Context × Option LabelPtr}
    (h : parseExpansion ctx offset = .ok y) :
    ctx.Relabels y.1 ∧ (y.2 = none ↔ offset = 0) ∧
      ∀ l, y.2 = some l → y.1.toFilePos l = .ok offset.toNat := by
  rw [parseExpansion] at h
  split at h
  · rename_i hoffset
    obtain ⟨⟨ctx', l⟩, hlabel, h⟩ := bind_eq_ok.mp h
    cases h
    refine ⟨relabels_createLabelFallbackAt hlabel, iff_of_false nofun hoffset, fun l' hl' => ?_⟩
    cases hl'
    exact Consistent.createLabelFallbackAt_toFilePos hlabel
  · rename_i hoffset
    cases h
    exact ⟨.refl ctx, iff_of_true rfl (Decidable.not_not.mp hoffset), nofun⟩

theorem parse_ok [FixedString] {ctx : Context} {hdr : Header} {y : Context × HeaderItem}
    (h : parse ctx hdr = .ok y) :
    ctx.Relabels y.1 ∧ hdr.Valid ctx.getSize ∧ Places y.1 y.2 hdr := by
  obtain ⟨_, hvalid, h⟩ := bind_eq_ok.mp h
  obtain ⟨⟨ctx₁, exportSec⟩, hexports, h⟩ := bind_eq_ok.mp h
  obtain ⟨⟨ctx₂, collectionLink⟩, hlinks, h⟩ := bind_eq_ok.mp h
  obtain ⟨⟨ctx₃, expansion⟩, hexpansion, h⟩ := bind_eq_ok.mp h
  cases h
  have h₁ := relabels_createLabelFallbackAt hexports
  have h₂ := relabels_createLabelFallbackAt hlinks
  obtain ⟨h₃, hnone, hsome⟩ := parseExpansion_ok hexpansion
  refine ⟨h₁.trans (h₂.trans h₃), Header.validate_eq_ok.mp hvalid, rfl, rfl, ?_, ?_, hnone, hsome⟩
  · exact ((h₂.trans h₃).extends False).toFilePos _ _
      (Consistent.createLabelFallbackAt_toFilePos hexports)
  · exact (h₃.extends False).toFilePos _ _ (Consistent.createLabelFallbackAt_toFilePos hlinks)

/-- The number of the expansions that is written. -/
def Header.writtenExpansions (hdr : Header) : UInt32 :=
  if hdr.expansionOffset ≠ 0 ∧ hdr.expansionCount = 0 then 1 else hdr.expansionCount

/-- The places and the numbers of the tables. -/
structure Header.SameTables (out hdr : Header) : Prop where
  exportOffset : out.exportOffset = hdr.exportOffset
  exportCount : out.exportCount = hdr.exportCount
  collectionLinkOffset : out.collectionLinkOffset = hdr.collectionLinkOffset
  expansionOffset : out.expansionOffset = hdr.expansionOffset
  expansionCount : out.expansionCount = hdr.expansionCount

theorem length_msg : (zeros 0x1a).length = 0x1a := length_zeros _

/-- A header without exports. -/
def Header.ofExpansions (exportOffset expansionOffset expansionCount : UInt32) : Header :=
  { magic := HeaderItem.magic, endian := 0x4c, msg := ⟨zeros 0x1a, length_msg⟩, exportOffset
    exportCount := 0, field28 := 0, collectionLinkOffset := 0x3c, field30 := 0, expansionOffset
    expansionCount }

/-- What the header writes, once all tables are there. -/
theorem dump_of_places [FixedString] {ctx : Context} {h : HeaderItem} {hdr : Header} {size : Nat}
    (hp : Places ctx h hdr) (hvalid : hdr.Valid size)
    (hexports : ctx.exportCount h.exportSec = .ok hdr.exportCount.toNat)
    (hexpansion : ∀ l, h.expansion = some l →
      ctx.expansionCount l = .ok (max 1 hdr.expansionCount.toNat)) :
    h.dump ctx.view =
      .ok [.write (toBytes { hdr with expansionCount := hdr.writtenExpansions })] := by
  obtain ⟨offset, count, hdumped, hoffset, hcount⟩ : ∃ offset count,
      dumpExpansion ctx.view h.expansion = .ok (offset, count) ∧
        UInt32.ofNat offset = hdr.expansionOffset ∧
          UInt32.ofNat count = hdr.writtenExpansions := by
    cases hnone : h.expansion with
    | none =>
        have hzero := hp.noExpansion.mp hnone
        refine ⟨0, 0, rfl, hzero.symm, ?_⟩
        rw [Header.writtenExpansions, if_neg fun hnot => hnot.1 hzero]
        exact (hvalid.expansionCount.resolve_right fun hnot => hnot hzero).symm
    | some l =>
        have hpos : hdr.expansionOffset ≠ 0 := fun hzero => by
          rw [hp.noExpansion.mpr hzero] at hnone
          cases hnone
        refine ⟨_, _, bind_eq_ok.mpr ⟨_, hp.expansion l hnone,
          bind_eq_ok.mpr ⟨_, hexpansion l hnone, rfl⟩⟩, UInt32.ofNat_toNat, ?_⟩
        rw [Header.writtenExpansions]
        split
        · rename_i hzero
          rw [hzero.2]
          rfl
        · rename_i hnot
          have hne : hdr.expansionCount.toNat ≠ 0 := fun heq =>
            hnot ⟨hpos, UInt32.toNat_inj.mp heq⟩
          rw [Nat.max_eq_right (by omega), UInt32.ofNat_toNat]
  have hout : ({ magic := HeaderItem.magic, endian := 0x4c, msg := h.msg
                 exportOffset := UInt32.ofNat hdr.exportOffset.toNat
                 exportCount := UInt32.ofNat hdr.exportCount.toNat, field28 := h.field28
                 collectionLinkOffset := UInt32.ofNat hdr.collectionLinkOffset.toNat, field30 := 0
                 expansionOffset := UInt32.ofNat offset
                 expansionCount := UInt32.ofNat count } : Header) =
      { hdr with expansionCount := hdr.writtenExpansions } := by
    rw [hoffset, hcount, hp.msg, hp.field28, ← hvalid.magic, ← hvalid.endian, ← hvalid.field30,
      UInt32.ofNat_toNat, UInt32.ofNat_toNat, UInt32.ofNat_toNat]
  rw [dump, show ctx.view.toFilePos h.exportSec = _ from hp.exportSec, ok_bind,
    show ctx.view.exportCount h.exportSec = _ from hexports, ok_bind,
    show ctx.view.toFilePos h.collectionLink = _ from hp.collectionLink, ok_bind, hdumped, ok_bind]
  exact congrArg (fun out : Header => Except.ok [Sink.Call.write (toBytes out)]) hout

/-- All that the header counts was read. -/
structure TablesRead (ctx : Context) (h : HeaderItem) (hdr : Header) : Prop where
  consistent : ctx.Consistent
  only : ∀ b : Body, b.isHeader = true → (ctx.HasBody b ↔ b = .header h)
  places : Places ctx h hdr
  exports : ctx.exportCount h.exportSec = .ok hdr.exportCount.toNat
  expansions : ∀ l, h.expansion = some l →
    ∃ e, ctx.SealedAt l e .expansions (max 1 hdr.expansionCount.toNat)

theorem expansionCount_of_sealed {ctx : Context} {l : LabelPtr} {e n : Nat}
    (h : ctx.SealedAt l e .expansions n) : ctx.expansionCount l = .ok n := by
  obtain ⟨it, cs, -, hbody, htarget, rfl, -⟩ := h
  have htarget0 : ctx.target0 l = .ok (it, cs) := target0_eq_ok.mpr htarget
  rw [expansionCount, htarget0, ok_bind]
  simp only [hbody, pure_eq_ok]

theorem lt_of_sealed {ctx : Context} (hctx : ctx.Consistent) {l : LabelPtr} {e n : Nat} {b : Body}
    (h : ctx.SealedAt l e b n) : e < ctx.nextId := by
  obtain ⟨it, cs, rfl, -, htarget, -, -⟩ := h
  exact hctx.numbered it (hctx.mem_labels htarget).1

/-- What is read behind the tables leaves them. -/
theorem TablesRead.edits {ctx ctx' : Context} {h : HeaderItem} {hdr : Header}
    (ht : TablesRead ctx h hdr) (hedits : Edits (ctx.nextId ≤ ·) Body.Lasting ctx ctx') :
    TablesRead ctx' h hdr := by
  have hkeeps := hedits.keeps ht.consistent
  refine ⟨hkeeps.consistent, fun b hb => (hkeeps.header b hb).trans (ht.only b hb),
    ht.places.keep hkeeps.answers.toFilePos, hkeeps.answers.exportCount _ _ ht.exports, fun l hl => ?_⟩
  obtain ⟨e, hsealed⟩ := ht.expansions l hl
  have hlt := lt_of_sealed ht.consistent hsealed
  exact ⟨e, (hedits.sealedAt ht.consistent rfl (Nat.not_le_of_lt hlt) hsealed).2⟩

/-- The tables of a file that has no header yet. -/
theorem insert_tablesRead [FixedString] {ctx : Context} (hctx : ctx.Consistent)
    (hflat : ctx.Flat)
    (hnone : ∀ it ∈ ctx.children.nodes, it.body.isHeader = false) {ptr : ItemPointer}
    {y : Context × List ExportsItem.EntryType} (hinsert : insert ctx ptr = .ok y) :
    ∃ hdr h, ctx.getRecord Header ptr = .ok hdr ∧ hdr.Valid ctx.getSize ∧
      TablesRead y.1 h hdr := by
  obtain ⟨hdr, hrecord, hinsert⟩ := bind_eq_ok.mp hinsert
  obtain ⟨⟨ctx₁, h⟩, hparse, hinsert⟩ := bind_eq_ok.mp hinsert
  obtain ⟨ctx₂, hsplit, hinsert⟩ := bind_eq_ok.mp hinsert
  obtain ⟨linkPtr, -, hinsert⟩ := bind_eq_ok.mp hinsert
  obtain ⟨ctx₃, hlinks, hinsert⟩ := bind_eq_ok.mp hinsert
  obtain ⟨ctx₄, hexpansions, hinsert⟩ := bind_eq_ok.mp hinsert
  obtain ⟨exportPtr, hexportPtr, hinsert⟩ := bind_eq_ok.mp hinsert
  obtain ⟨src, -, hinsert⟩ := bind_eq_ok.mp hinsert
  obtain ⟨⟨ctx₅, entries⟩, hentries, hinsert⟩ := bind_eq_ok.mp hinsert
  obtain ⟨ctx₆, hexports, hinsert⟩ := bind_eq_ok.mp hinsert
  cases hinsert
  obtain ⟨h₁, hvalid, hplaces₁⟩ := parse_ok hparse
  -- the labels do not change what the items are
  have hbodies : ∀ it ∈ ctx₁.children.nodes, ∃ it' ∈ ctx.children.nodes, it'.body = it.body := by
    intro it hit
    obtain ⟨it', hit', heq⟩ := exists_of_plain h₁.plain.symm hit
    exact ⟨it', hit', body_of_plain heq⟩
  obtain ⟨hctx₂, honly₂, hview₂⟩ := (h₁.consistent hctx).splitCreate_header
    (fun it hit => by
      obtain ⟨it', hit', heq⟩ := hbodies it hit
      exact heq ▸ hflat it' hit')
    (fun it hit => by
      obtain ⟨it', hit', heq⟩ := hbodies it hit
      exact heq ▸ hnone it' hit') rfl hsplit
  have hkeeps₃ := (CollectionLinkHeaderItem.edits_createAndInsert hctx₂ hlinks).keeps hctx₂
  obtain ⟨hkeeps₄, hsealed₄⟩ : ctx₃.Keeps ctx₄ ∧ ∀ l, h.expansion = some l →
      ∃ e, ctx₄.SealedAt l e .expansions (max 1 hdr.expansionCount.toNat) := by
    cases hexpansion : h.expansion with
    | none =>
        rw [hexpansion] at hexpansions
        cases hexpansions
        exact ⟨.refl hkeeps₃.consistent, nofun⟩
    | some l =>
        rw [hexpansion] at hexpansions
        obtain ⟨expansionPtr, hptr, hcreate⟩ := bind_eq_ok.mp hexpansions
        obtain ⟨hkeeps, hsealed⟩ := ExpansionsItem.createAndInsert_sealed hkeeps₃.consistent
          (getPtr_eq_ok.mp hptr) hcreate
        refine ⟨hkeeps, fun l' hl' => ?_⟩
        cases hl'
        exact ⟨_, hsealed⟩
  obtain ⟨h₅, hlength⟩ := ExportsItem.relabels_parse hentries
  have hctx₅ := h₅.consistent hkeeps₄.consistent
  have hlookup := h₅.kept _ _ (getPtr_eq_ok.mp hexportPtr)
  obtain ⟨n, htarget, -, hbody⟩ := hctx₅.splitCreate_takes hlookup rfl hexports
  have hedits : Edits (fun _ => False) Body.Lasting ctx₄ ctx₆ :=
    (Edits.single (.relabel h₅)).trans (.single (.split hexports (.inl rfl) rfl rfl))
  have hkeeps₆ := hedits.keeps hkeeps₄.consistent
  have hkeeps := hkeeps₃.trans (hkeeps₄.trans hkeeps₆)
  refine ⟨hdr, h, hrecord, hvalid, hkeeps₆.consistent,
    fun b hb => (hkeeps.header b hb).trans (honly₂ b hb), ?_, ?_, fun l hl => ?_⟩
  · exact (hplaces₁.keep hview₂.toFilePos).keep hkeeps.answers.toFilePos
  · change ctx₆.exportCount h.exportSec = _
    have htarget0 : ctx₆.target0 h.exportSec = .ok (n, .nil) := target0_eq_ok.mpr htarget
    rw [exportCount, htarget0, ok_bind]
    simp only [hbody, pure_eq_ok]
    exact congrArg Except.ok hlength
  · obtain ⟨e, hsealed⟩ := hsealed₄ l hl
    exact ⟨e, (hedits.sealedAt hkeeps₄.consistent rfl not_false hsealed).2⟩

end HeaderItem

namespace File

open HeaderItem

/-- The end of the file is split off first. -/
theorem root_split {src : Source} {ctx : Context}
    (h : (Context.root src).splitCreate 0 src.size .eof = .ok ctx) :
    ctx.Consistent ∧ ∀ it ∈ ctx.children.nodes,
      it.body = .eof ∨ ∃ src', it.body = .raw src' ∧ src'.bytes = src.bytes := by
  refine ⟨((Consistent.root src).splitCreate_keeps rfl h).consistent, fun it hit => ?_⟩
  obtain ⟨k, r, src', p, -, hbody, hk, -, -, -, hp⟩ := (Consistent.root src).splitCreate_ok h
  have hroot : ∀ a ∈ (Context.root src).children.nodes, a.body = .raw src := fun a ha => by
    rw [List.mem_singleton.mp ha]
  have hsrc : src' = src := by
    have hr : r ∈ (Context.root src).children.nodes := by
      rw [hk, mem_plug]
      exact .inr List.mem_cons_self
    exact Body.raw.inj (hbody.symm.trans (hroot r hr))
  subst hsrc
  rw [hp.children, mem_plug] at hit
  rcases hit with hit | hit
  · refine .inr ⟨src', hroot it ?_, rfl⟩
    rw [hk, mem_plug]
    exact .inl hit
  · have hback : p.backItems (Context.nextId (Context.root src') + 1) r src'.size src'.size 0 =
        .nil := by
      rw [Parts.backItems, if_pos (by omega)]
    have hend : (Item.mk (Context.root src').nextId 0 [] .eof).getSize .nil = 0 := rfl
    rw [Parts.items, hend, hback, Forest.nodes_append, List.mem_append, Parts.frontItems] at hit
    rcases hit with hit | hit
    · split at hit
      · cases hit
      · rw [List.mem_singleton.mp hit]
        refine .inr ⟨p.front, rfl, ?_⟩
        rw [hp.frontBytes, Lib.slice, List.drop_zero, ← Source.length_bytes, List.take_length]
    · rw [List.mem_singleton.mp hit]
      exact .inl rfl

/-- A file that is accepted has one header, and what this writes is known. -/
theorem Parses.header [FixedString] {factories : List DataFactory} {src : Source} {ctx : Context}
    (h : Parses factories src ctx) :
    ∃ hdr hd, src.preadGen Header 0 = .ok hdr ∧
      (∀ b : Body, b.isHeader = true → (ctx.HasBody b ↔ b = .header hd)) ∧
        hd.dump ctx.view =
          .ok [.write (toBytes { hdr with expansionCount := hdr.writtenExpansions })] := by
  obtain ⟨w, n, hstart, hsteps⟩ := h
  obtain ⟨ctx₀, hsplit, hstart⟩ := bind_eq_ok.mp hstart
  obtain ⟨⟨ctx₁, entries⟩, hinsert, hstart⟩ := bind_eq_ok.mp hstart
  cases hstart
  obtain ⟨hctx₀, hbodies⟩ := root_split hsplit
  have hkinds : ∀ it ∈ ctx₀.children.nodes,
      it.body.hasChildren = false ∧ it.body.isHeader = false := by
    intro it hit
    rcases hbodies it hit with heq | ⟨src', heq, -⟩
    · rw [heq]
      exact ⟨rfl, rfl⟩
    · rw [heq]
      exact ⟨rfl, rfl⟩
  obtain ⟨hdr, hd, hrecord, hvalid, htables⟩ := insert_tablesRead hctx₀
    (fun it hit => (hkinds it hit).1) (fun it hit => (hkinds it hit).2) hinsert
  refine ⟨hdr, hd, ?_, ?_⟩
  · obtain ⟨⟨it, children, src'⟩, hraw, hrecord⟩ := bind_eq_ok.mp hrecord
    obtain ⟨_, -, hrecord⟩ := bind_eq_ok.mp hrecord
    obtain ⟨_, -, hrecord⟩ := bind_eq_ok.mp hrecord
    obtain ⟨-, -, hbody, k, hk, -⟩ := hctx₀.registers.raw_hole hraw
    have hit : it ∈ ctx₀.children.nodes := by
      rw [hk, mem_plug]
      exact .inr List.mem_cons_self
    rcases hbodies it hit with heq | ⟨src'', heq, hbytes⟩
    · cases hbody.symm.trans heq
    · cases hbody.symm.trans heq
      exact Source.preadGen_of_standsAt (hbytes ▸ Source.standsAt_of_preadGen hrecord)
  · have hread : TablesRead ctx hd hdr :=
      run_preserves (I := fun w : Walk => TablesRead w.ctx hd hdr) _
        (fun w _ w' hw hstep => hw.edits (Walk.edits_step hw.consistent hstep)) htables hsteps
    refine ⟨hread.only, dump_of_places hread.places hvalid hread.exports fun l hl => ?_⟩
    obtain ⟨e, hsealed⟩ := hread.expansions l hl
    exact expansionCount_of_sealed hsealed

/-- The header of the file writes the places and the numbers that were read. -/
def KeepsTables (ctx : Context) (hdr : Header) : Prop :=
  ∃ (hd : HeaderItem) (out : Header),
    (∀ b : Body, b.isHeader = true → (ctx.HasBody b ↔ b = .header hd)) ∧
    hd.dump ctx.view = .ok [.write (toBytes out)] ∧ out.SameTables hdr

/-- The bytes tell what record was written. -/
theorem eq_of_dump {x : Except Error (List Sink.Call)} {out out' : Header}
    (h : x = .ok [.write (toBytes out)]) (h' : x = .ok [.write (toBytes out')]) : out = out' := by
  have hbytes := h.symm.trans h'
  simp only [Except.ok.injEq, List.cons.injEq, Sink.Call.write.injEq, and_true] at hbytes
  have hout := congrArg (Pod.ofBytes (α := Header)) hbytes
  rwa [Pod.ofBytes_toBytes, Pod.ofBytes_toBytes] at hout

/-- Only the number of expansions may change: none become one, if they have a place. -/
theorem keepsTables_iff [FixedString] {factories : List DataFactory} {src : Source}
    {ctx : Context} (h : Parses factories src ctx) {hdr : Header}
    (hhdr : src.preadGen Header 0 = .ok hdr) :
    KeepsTables ctx hdr ↔ hdr.expansionOffset = 0 ∨ hdr.expansionCount ≠ 0 := by
  obtain ⟨hdr', hd, hhdr', honly, hdump⟩ := h.header
  cases hhdr.symm.trans hhdr'
  have hcount : hdr.writtenExpansions = hdr.expansionCount ↔
      hdr.expansionOffset = 0 ∨ hdr.expansionCount ≠ 0 := by
    rw [Header.writtenExpansions]
    split
    · rename_i hempty
      rw [hempty.2]
      exact iff_of_false (by decide) fun hor => hor.elim hempty.1 fun hne => hne rfl
    · rename_i hnot
      exact iff_of_true rfl (Decidable.or_iff_not_not_and_not.mpr fun hand =>
        hnot ⟨hand.1, Decidable.not_not.mp hand.2⟩)
  rw [← hcount]
  constructor
  · rintro ⟨hd', out, honly', hdump', hsame⟩
    obtain rfl : hd' = hd :=
      Body.header.inj ((honly _ rfl).mp ((honly' _ rfl).mpr rfl))
    rw [← hsame.expansionCount, eq_of_dump hdump' hdump]
  · intro heq
    exact ⟨hd, _, honly, hdump, rfl, rfl, rfl, rfl, heq⟩

/-- A file with a header, the links and `tail`. -/
def withTables (hdr : Header) (links : UInt32) (tail : Bytes) : Source :=
  .fromMemory (toBytes hdr ++ (toBytes (CollectionLinkHeaderItem.Header.ofData links 0) ++ tail))

theorem length_pad : (zeros 0x40).length = 0x40 := length_zeros _

/-- An expansion called "a". -/
def oneExpansion : Source :=
  withTables (.ofExpansions 206 124 1) 208
    (toBytes ({ index := 0, name := 204, ptr := 0, pad := ⟨zeros 0x40, length_pad⟩ } :
      ExpansionItem.Header) ++ [0x61, 0, 0, 0])

/-- The expansions are at 126, but there are none. -/
def noExpansions : Source := withTables (.ofExpansions 124 126 0) 128 (zeros 4)

theorem preadGen_withTables (hdr : Header) (links : UInt32) (tail : Bytes) :
    (withTables hdr links tail).preadGen Header 0 = .ok hdr := by
  refine Source.preadGen_of_standsAt ?_
  rw [withTables, Source.bytes_fromMemory]
  exact ⟨[], _, rfl, rfl⟩

theorem oneExpansion_keepsTables_iff : ∃ ctx,
    @Parses FixedString.zeroTerminated [] oneExpansion ctx ∧
      (KeepsTables ctx (.ofExpansions 206 124 1) ↔
        (Header.ofExpansions 206 124 1).expansionOffset = 0 ∨
          (Header.ofExpansions 206 124 1).expansionCount ≠ 0) := by
  have hstart : (@start FixedString.zeroTerminated oneExpansion).toOption.map Walk.todo =
      some [] := by
    decide +kernel
  obtain ⟨⟨ctx, _⟩, hstart, rfl⟩ := exists_ok_of_toOption hstart
  have hparses : @Parses FixedString.zeroTerminated [] oneExpansion ctx := ⟨_, 0, hstart, rfl⟩
  exact ⟨ctx, hparses,
    @keepsTables_iff FixedString.zeroTerminated _ _ _ hparses _ (preadGen_withTables _ _ _)⟩

/-- One expansion is written for none. -/
theorem noExpansions_not_keepsTables :
    ¬ ∀ [FixedString] (factories : List DataFactory) (src : Source) (ctx : Context) (hdr : Header),
      Parses factories src ctx → src.preadGen Header 0 = .ok hdr → KeepsTables ctx hdr := by
  intro hall
  have hstart : (@start FixedString.zeroTerminated noExpansions).toOption.map Walk.todo =
      some [] := by
    decide +kernel
  obtain ⟨⟨ctx, _⟩, hstart, rfl⟩ := exists_ok_of_toOption hstart
  have hparses : @Parses FixedString.zeroTerminated [] noExpansions ctx := ⟨_, 0, hstart, rfl⟩
  have hhdr := preadGen_withTables (.ofExpansions 124 126 0) 128 (zeros 4)
  obtain ⟨hd, out, honly, hdump, hsame⟩ := @hall FixedString.zeroTerminated [] _ ctx _ hparses hhdr
  obtain ⟨hdr', hd', hhdr', honly', hdump'⟩ := @Parses.header FixedString.zeroTerminated _ _ _ hparses
  cases hhdr.symm.trans hhdr'
  obtain rfl : hd = hd' := Body.header.inj ((honly' _ rfl).mp ((honly _ rfl).mpr rfl))
  have hout := hsame.expansionCount
  rw [eq_of_dump hdump hdump'] at hout
  exact absurd hout (by decide)

end File

end Stcm

end Neptools

import Neptools.Stcm.Names

/-!
The table of the links is split off at the place that was looked up before the names were
read. This is its place in the file if and only if the names leave it alone.
-/

namespace Neptools

open Lib

namespace Context

variable {ctx : Context}

theorem getSourceOf_spec {ptr : ItemPointer} {len : Nat} {w : Source}
    (h : ctx.getSourceOf ptr len = .ok w) : ∃ src, ctx.bodyOf ptr.item = some (.raw src) ∧
      ptr.offset + len ≤ src.size ∧ w = w.at_ 0 ∧
        w.bytes = Lib.slice src.bytes ptr.offset len := by
  obtain ⟨⟨it, children, src⟩, hraw, h⟩ := bind_eq_ok.mp h
  obtain ⟨_, -, h⟩ := bind_eq_ok.mp h
  obtain ⟨_, hle, h⟩ := bind_eq_ok.mp h
  have hle := require_eq_ok.mp hle
  obtain ⟨w', hw', hbytes⟩ := Source.sub_of_le hle
  cases hw'.symm.trans h
  obtain ⟨_, -, h⟩ := bind_eq_ok.mp h
  cases h
  exact ⟨src, bodyOf_of_getRaw hraw, hle, rfl, hbytes⟩

theorem exists_getSourceOf {ptr : ItemPointer} {len : Nat} {src : Source}
    (hbody : ctx.bodyOf ptr.item = some (.raw src)) (hle : ptr.offset + len ≤ src.size) :
    ∃ w, ctx.getSourceOf ptr len = .ok w := by
  obtain ⟨it, children, hraw⟩ := getRaw_of_bodyOf hbody
  obtain ⟨w, hw, -⟩ := Source.sub_of_le hle
  refine ⟨w, ?_⟩
  rw [getSourceOf, hraw, ok_bind]
  dsimp only
  rw [require_of (by omega), ok_bind, require_of hle, ok_bind, hw]

/-- A childless item has become another one, of the same size. -/
structure Replaced (ctx ctx' : Context) (it : Item) (body : Body) : Prop where
  nodes : ∀ a ∈ ctx'.children.nodes, a ∈ ctx.children.nodes ∨
    a.body = body ∧ a.position = it.position
  new : ∃ n : Item, (n, .nil) ∈ ctx'.children.subtrees ∧ n.id = ctx.nextId ∧
    n.position = it.position ∧ n.body = body
  laid : ctx.children.Laid 0 → ctx'.children.Laid 0
  size : ctx'.getSize = ctx.getSize
  lookup : ∀ l ∈ it.labels, ctx'.labels.lookup l =
    some (some { item := ctx.nextId, offset := ctx.labels.offset l })

theorem Consistent.exists_replaced (h : ctx.Consistent) {it : Item} {body : Body}
    (hmem : (it, .nil) ∈ ctx.children.subtrees) (hsame : body.ownSize = it.body.ownSize)
    (hlabels : ∀ l ∈ it.labels, ctx.labels.offset l ≤ body.ownSize) :
    ∃ ctx', (ctx.create body).2.replace it.id (ctx.create body).1 .nil = .ok ctx' ∧
      Replaced ctx ctx' it body := by
  obtain ⟨-, k, hk, hapart⟩ := h.create.registers.exists_hole (h.find?_of_mem hmem)
  obtain ⟨ctx', hreplace⟩ : ∃ ctx', (ctx.create body).2.replace it.id (ctx.create body).1 .nil =
      .ok ctx' :=
    ⟨_, (replace_eq_ok hk hapart).mpr ⟨hlabels, rfl, List.forall_mem_nil _, rfl⟩⟩
  obtain ⟨-, -, -, hctx'⟩ := (replace_eq_ok hk hapart).mp hreplace
  have hold : ctx.children = k.plug (.single it .nil) := hk
  have hchildren := congrArg Context.children hctx'
  have hweight : Forest.weight (fun it : Item => it.body.ownSize)
      (.single (replacement it (ctx.create body).1) .nil) =
      Forest.weight (fun it : Item => it.body.ownSize) (.single it .nil) := by
    rw [Forest.weight_single, Forest.weight_single, ← hsame]
    rfl
  refine ⟨ctx', hreplace, fun a ha => ?_, ⟨replacement it (ctx.create body).1, ?_, rfl, rfl, rfl⟩,
    fun hlaid => ?_, ?_, fun l hl => ?_⟩
  · rw [hchildren, mem_plug] at ha
    rw [hold, mem_plug]
    refine ha.imp .inl fun ha => ?_
    rw [List.mem_singleton.mp ha]
    exact ⟨rfl, rfl⟩
  · rw [hchildren, Hole.mem_subtrees_plug]
    exact .inl List.mem_cons_self
  · rw [ItemList.Laid, hold] at hlaid
    rw [ItemList.Laid, hchildren]
    exact Hole.laid_plug hlaid hweight ⟨(Hole.laid_of_plug hlaid).1, trivial, trivial⟩
  · rw [Context.getSize, Context.getSize, hchildren, hold, ItemList.getSize, ItemList.getSize,
      Hole.weight_plug, Hole.weight_plug]
    exact congrArg _ hweight
  · rw [hctx']
    exact (lookup_moveLabels _ _ _ _ _).trans (if_pos hl)

theorem Written.replaced_raw {ctx' : Context} {file : Bytes} (h : ctx.RawWritten file) {it : Item}
    {body : Body} (hreplaced : Replaced ctx ctx' it body) (hraw : body.isRaw = false)
    (hfixup : body.fixup = body) : ctx'.RawWritten file := by
  refine ⟨hreplaced.laid h.laid, hreplaced.size.trans h.size, fun a ha => ?_, fun a ha hready => ?_⟩
  · rcases hreplaced.nodes a ha with hold | ⟨hbody, -⟩
    · exact h.settled a hold
    · rw [hbody, hfixup]
  · rcases hreplaced.nodes a ha with hold | ⟨hbody, -⟩
    · obtain ⟨part, hpart⟩ := Body.isRaw_eq_true.mp hready
      rw [hpart]
      exact Body.writtenAt_raw (Written.standsAt_raw h hold hpart)
    · rw [hbody, hraw] at hready
      cases hready

end Context

namespace Stcm

open Context CollectionLinkItem

namespace LinkedFile

section

variable [FixedString] {f : LinkedFile} {data : LabelPtr} {ctx ctx' : Context}

/-- The label of the table leads to an item that has a byte there, or has none at all. -/
theorem Start.exists_ptr (h : f.Start data ctx) : ∃ it ∈ ctx.children.nodes, ∃ ptr,
    ctx.getPtr data = .ok ptr ∧ it.id = ptr.item ∧ it.position + ptr.offset = f.start ∧
      (0 < it.body.ownSize → ptr.offset < it.body.ownSize) := by
  obtain ⟨it, hit, offset, hlookup, hat, hin⟩ := h.charted.at_of_toFilePos h.place
  exact ⟨it, hit, _, getPtr_eq_ok.mpr hlookup, rfl, hat, hin⟩

theorem length_table (f : LinkedFile) :
    (f.entries.flatMap toBytes).length = Pod.size Entry * f.entries.length :=
  length_flatMap_of_length_eq fun _ _ => Pod.length_toBytes _

/-- The entries are read from the raw item. -/
theorem Start.getSourceOf (h : f.Start data ctx) {it : Item} (hit : it ∈ ctx.children.nodes)
    {ptr : ItemPointer} (hid : it.id = ptr.item) (hat : it.position + ptr.offset = f.start)
    {w : Source}
    (hw : ctx.getSourceOf ptr (f.raw.count.toNat * Pod.size Entry) = .ok w) :
    ∃ src, it.body = .raw src ∧ f.stop ≤ it.position + src.size ∧ w = w.at_ 0 ∧
      StandsAt (f.entries.flatMap toBytes) 0 w.bytes := by
  obtain ⟨src, hbody, hle, hget, hbytes⟩ := getSourceOf_spec hw
  obtain ⟨children, hmem⟩ := Forest.mem_nodes.mp hit
  rw [← hid, h.charted.consistent.bodyOf_of_mem hmem] at hbody
  have hraw : it.body = .raw src := Option.some.inj hbody
  have hlength := f.length_table
  rw [← f.count, Nat.mul_comm] at hle hbytes
  refine ⟨src, hraw, by rw [stop]; omega, hget, ?_⟩
  have hslice : StandsAt w.bytes f.start f.src.bytes := by
    rw [hbytes, ← hat]
    exact (StandsAt.of_slice (by rw [Source.length_bytes]; omega)).trans
      (Written.standsAt_raw h.written hit hraw)
  refine (hslice.trans_iff ?_).mp f.table
  rw [hbytes, length_slice_of_le (by rw [Source.length_bytes]; omega)]
  omega

/-- What a name became does not overlap another item. -/
theorem Naming.name_apart (h : f.Naming data ctx) {n : Nat} {it : Item} (hn : Named ctx n)
    (hit : it ∈ ctx.children.nodes) : ∃ text, NameAt f.src n text ∧
      (it.body = .cString text ∧ it.position = n ∨ n + text.length + 1 ≤ it.position ∨
        it.position + it.body.ownSize ≤ n) := by
  obtain ⟨a, ha, rfl, text, hbody⟩ := hn
  have hown : a.body.ownSize = text.length + 1 := by rw [hbody]; rfl
  cases h.kinds a ha with
  | text text' hbody' _ hstands =>
      cases hbody.symm.trans hbody'
      rcases Written.apart h.written h.charted ha hit with rfl | hlt | hlt
      · exact ⟨text, hstands, .inl ⟨hbody, rfl⟩⟩
      · exact ⟨text, hstands, .inr (.inl (by omega))⟩
      · exact ⟨text, hstands, .inr (.inr hlt)⟩
  | raw _ hbody' | header hbody' | links hbody' | eof hbody' => cases hbody.symm.trans hbody'

theorem Early.of_raw {it : Item} (h : f.Early data it) {part : Source}
    (hbody : it.body = .raw part) :
    0 < part.size ∧
      (it.position = Pod.size HeaderItem.Header ∧ it.position + part.size = f.link ∨
        it.position = f.link + Pod.size CollectionLinkHeaderItem.Header ∧
          it.position + part.size = f.src.size) := by
  cases h with
  | raw part' hbody' hsized hplace =>
      cases hbody.symm.trans hbody'
      exact ⟨hsized, hplace⟩
  | header hbody' | links hbody' | eof hbody' => cases hbody.symm.trans hbody'

theorem Early.of_eof {it : Item} (h : f.Early data it) (hbody : it.body = .eof) :
    it.id = (Context.root f.src).nextId := by
  cases h with
  | eof _ _ hid => exact hid
  | header hbody' | links hbody' | raw _ hbody' => cases hbody.symm.trans hbody'

theorem Naming.not_table (h : f.Naming data ctx) {it : Item} (hit : it ∈ ctx.children.nodes)
    {entries : List LinkEntry} : it.body ≠ .collectionLink entries := by
  intro hbody
  cases h.kinds it hit with
  | raw _ hbody' | text _ hbody' | header hbody' | links hbody' | eof hbody' =>
      cases hbody.symm.trans hbody'

/-- If the table is found at its place, no name was in the way. -/
theorem Start.clear_of_split (h : f.Start data ctx) {it : Item} (hit : it ∈ ctx.children.nodes)
    {ptr : ItemPointer} (hat : it.position + ptr.offset = f.start)
    {src : Source} (hraw : it.body = .raw src) (hin : ptr.offset < src.size)
    (hstop : f.stop ≤ it.position + src.size) {ctx₃ : Context} (h₃ : f.Naming data ctx₃)
    (hnamed : ∀ n, f.IsName n → Named ctx₃ n) {entries : List LinkEntry}
    (hlength : entries.length = f.entries.length)
    (hsplit : ctx₃.splitCreate ptr.item ptr.offset (.collectionLink entries) = .ok ctx')
    (htable : ∃ t ∈ ctx'.children.nodes, t.position = f.start ∧
      ∃ entries, t.body = .collectionLink entries) : f.Clear := by
  obtain ⟨-, hplace⟩ := (h.early it hit).of_raw hraw
  obtain ⟨r, src₃, hnodes⟩ := h₃.charted.consistent.splitCreate_nodes hsplit
  have hrat : r.position + ptr.offset = f.start := by
    obtain ⟨t, ht, htat, entries', htbody⟩ := htable
    rcases hnodes.nodes t ht with ⟨hold, -⟩ | ⟨-, hnew⟩ | ⟨part, hpart, -⟩
    · exact absurd htbody (h₃.not_table hold)
    · exact hnew.symm.trans htat
    · cases htbody.symm.trans hpart
  have hle := hnodes.le
  have hown : (Body.collectionLink entries).ownSize = entries.length * Pod.size Entry := rfl
  have hrown : r.body.ownSize = src₃.size := by rw [hnodes.raw]; rfl
  have hentry : 0 < Pod.size Entry := by decide
  refine ⟨.inl ?_, fun n hn hside => ?_, fun n n' hn hn' hlt => ?_⟩
  · rw [Unread]
    omega
  · obtain ⟨string, -, hunread, -⟩ := hn.spec
    rw [Unread] at hunread
    have hcount : 0 < entries.length * Pod.size Entry := by
      obtain ⟨e, he, -⟩ := hn
      rw [hlength]
      exact Nat.mul_pos (List.length_pos_of_mem he) hentry
    obtain ⟨text, -, ⟨hbody, -⟩ | hbefore | hbehind⟩ := h₃.name_apart (hnamed n hn) hnodes.mem
    · cases hbody.symm.trans hnodes.raw
    · omega
    · omega
  · obtain ⟨a, ha, hat', -⟩ := hnamed n' hn'
    obtain ⟨text, hstands, ⟨-, heq⟩ | hbefore | hbehind⟩ := h₃.name_apart (hnamed n hn) ha
    · omega
    · exact hstands.mem_of_lt (by omega)
    · omega

/-- If no label is behind the end of the file in the item that is there, none is at all. -/
theorem Start.le_of_labels (h : f.Start data ctx) {it : Item} (hit : it ∈ ctx.children.nodes)
    (heof : it.body = .eof) (hlabels : ∀ l ∈ it.labels, ctx.labels.offset l ≤ 0) {l : LabelPtr}
    {pos : Nat} (hl : ctx.toFilePos l = .ok pos) : pos ≤ f.src.size := by
  obtain ⟨a, ha, offset, hlookup, hat, hin⟩ := h.charted.at_of_toFilePos hl
  have hkind := h.early a ha
  rcases hkind.kind.sized with hsized | ⟨heof', hlast⟩
  · obtain ⟨children, hmem⟩ := Forest.mem_nodes.mp ha
    have hend := h.charted.covers.le_getSize hmem
    have hsize := h.naming.getSize
    have hin := hin hsized
    change a.position + (a.body.ownSize + _) ≤ ctx.getSize at hend
    omega
  · obtain ⟨b, hb, hbid, hmem⟩ := h.charted.consistent.attached l _ hlookup
    obtain rfl : b = it := h.charted.consistent.eq_of_id hb hit
      (hbid.trans ((hkind.of_eof heof').trans ((h.early it hit).of_eof heof).symm))
    have hzero := hlabels l hmem
    rw [LabelsMap.offset, hlookup] at hzero
    have hzero : offset ≤ 0 := hzero
    omega

/-- The table takes the place of the end of the file. -/
theorem Start.atEnd_of_replaceEof (h : f.Start data ctx) {ptr : ItemPointer} {it : Item}
    (hit : it ∈ ctx.children.nodes) (hid : it.id = ptr.item)
    (hat : it.position + ptr.offset = f.start)
    (hreplace : CollectionLinkHeaderItem.replaceEof ctx ptr f.raw.count = .ok ctx') : f.AtEnd := by
  obtain ⟨_, hvalid, hreplace⟩ := bind_eq_ok.mp hreplace
  obtain ⟨hzero, hcount⟩ := require_eq_ok.mp hvalid
  obtain ⟨⟨a, children⟩, hget, hreplace⟩ := bind_eq_ok.mp hreplace
  obtain ⟨hmem, haid⟩ := find?_some (get_eq_ok hget)
  obtain rfl : a = it := h.charted.consistent.eq_of_id (Forest.mem_nodes.mpr ⟨_, hmem⟩) hit
    (haid.trans hid.symm)
  dsimp only at hreplace
  split at hreplace
  · rename_i heof
    obtain ⟨-, k, hk, hapart⟩ := h.charted.consistent.create.registers.exists_hole (get_eq_ok hget)
    rw [← hid] at hreplace hapart
    obtain ⟨hlabels, -⟩ := (replace_eq_ok hk hapart).mp hreplace
    have hle : ∀ l pos, ctx.toFilePos l = .ok pos → pos ≤ f.src.size := fun l pos hl =>
      h.le_of_labels hit heof hlabels hl
    have hlast : a.position = f.src.size := by
      cases h.early a hit with
      | eof _ hlast _ => exact hlast
      | header hbody | links hbody | raw _ hbody => cases heof.symm.trans hbody
    refine ⟨List.length_eq_zero_iff.mp ?_, by omega, hle _ _ h.places.exportSec, ?_⟩
    · rw [f.count, hcount]
      rfl
    · by_cases hnone : f.file.expansionOffset = 0
      · rw [hnone]
        exact Nat.zero_le _
      · obtain ⟨l, hl⟩ := Option.ne_none_iff_exists'.mp fun heq =>
          hnone (h.places.noExpansion.mp heq)
        exact hle _ _ (h.places.expansion l hl)
  · cases hreplace

theorem clear_of_readsLinks (hreads : f.ReadsLinks) : f.Clear := by
  obtain ⟨ctx₂, data, h, hcreate⟩ := f.exists_start
  obtain ⟨ctx', hinsert, hreads⟩ := hreads
  rw [hcreate] at hinsert
  obtain ⟨it, hit, ptr, hptr, hid, hat, hin⟩ := h.exists_ptr
  rw [CollectionLinkHeaderItem.insertLinks, hptr, ok_bind] at hinsert
  split at hinsert
  · obtain ⟨w, hw, hinsert⟩ := bind_eq_ok.mp hinsert
    obtain ⟨⟨ctx₃, entries⟩, hparse, hsplit⟩ := bind_eq_ok.mp hinsert
    obtain ⟨src, hraw, hstop, hget, hstands⟩ := h.getSourceOf hit hid hat hw
    obtain ⟨hsized, -⟩ := (h.early it hit).of_raw hraw
    rw [hget, ← f.count] at hparse
    obtain ⟨h₃, -, hread, hnamed⟩ := h.naming.parse (List.Subset.refl _) hstands hparse
    rw [hraw] at hin
    refine h.clear_of_split hit hat hraw (hin hsized) hstop h₃ (fun n hn => ?_)
      hread.length_eq.symm hsplit ?_
    · obtain ⟨e, he, hn⟩ := hn
      exact hnamed e he n hn
    · obtain ⟨t, ht, htat, entries, hbody, -⟩ := hreads.table
      exact ⟨t, ht, htat, entries, hbody⟩
  · have hatEnd := h.atEnd_of_replaceEof hit hid hat hinsert
    have hnone := hatEnd.1
    refine ⟨.inr hatEnd, fun n hn => ?_, fun n _ hn => ?_⟩
    · obtain ⟨e, he, -⟩ := hn
      rw [hnone] at he
      cases he
    · obtain ⟨e, he, -⟩ := hn
      rw [hnone] at he
      cases he

/-! Once the table is there, everything but the header of the file can be written. -/

structure Final (f : LinkedFile) (data : LabelPtr) (entries : List LinkEntry) (ctx : Context) :
    Prop where
  consistent : ctx.Consistent
  flat : ctx.Flat
  written : ctx.RawWritten f.src.bytes
  kinds : ∀ it ∈ ctx.children.nodes, f.Kind data it ∨
    (∃ part, it.body = .raw part ∧ Pod.size HeaderItem.Header ≤ it.position) ∨
      it.body = .collectionLink entries ∧ it.position = f.start
  table : ∃ it ∈ ctx.children.nodes, it.position = f.start ∧ it.body = .collectionLink entries
  place : ctx.toFilePos data = .ok f.start
  linkCount : ctx.linkCount data = .ok entries.length
  read : List.Forall₂ (EntryRead ctx) f.entries entries
  behind : Pod.size HeaderItem.Header ≤ f.start

theorem Final.writtenAt {entries : List LinkEntry} (h : f.Final data entries ctx) {it : Item}
    (hit : it ∈ ctx.children.nodes) (hbehind : it.position ≠ 0) :
    it.body.WrittenAt f.src.bytes ctx.view it.position True := by
  rcases h.kinds it hit with hkind | ⟨part, hbody, -⟩ | ⟨hbody, hplace⟩
  · cases hkind with
    | raw part hbody => exact h.written.items it hit (by rw [hbody]; rfl)
    | text text hbody _ hname =>
        rw [hbody]
        have hdump : (Body.cString text).dump ctx.view (text.length + 1) =
            .ok [.write (text ++ [0])] := rfl
        refine .of_standsAt hdump ?_ ?_ trivial
        · simp [Sink.bytesOf_cons, Body.ownSize]
        · simpa [Sink.bytesOf_cons] using hname.2
    | header _ hfirst => exact absurd hfirst hbehind
    | links hbody hplace =>
        have hdump : CollectionLinkHeaderItem.dump ctx.view data =
            .ok [.write (toBytes f.raw)] := by
          rw [CollectionLinkHeaderItem.dump, show ctx.view.toFilePos data = _ from h.place, ok_bind,
            show ctx.view.linkCount data = _ from h.linkCount, ok_bind,
            ← h.read.length_eq, f.count, start, UInt32.ofNat_toNat, UInt32.ofNat_toNat,
            ← CollectionLinkHeaderItem.Header.eq_of_validate f.valid]
          rfl
        rw [hbody, hplace]
        refine .of_standsAt hdump ?_ ?_ trivial
        · simp [Sink.bytesOf_cons, Body.ownSize]
        · simpa [Sink.bytesOf_cons] using f.headerFits.stands
    | eof hbody hlast =>
        rw [hbody, hlast]
        have hempty : f.src.size + 0 ≤ f.src.bytes.length := by simp
        have hdump : Body.eof.dump ctx.view 0 = .ok [] := rfl
        exact .of_standsAt hdump rfl (StandsAt.of_slice hempty) trivial
  · exact h.written.items it hit (by rw [hbody]; rfl)
  · obtain ⟨calls, hcalls, hbytes⟩ := dump_of_read h.read f.validEntries
    rw [hbody, hplace]
    refine .of_standsAt hcalls ?_ (by rw [hbytes]; exact f.table) trivial
    rw [hbytes, f.length_table, h.read.length_eq, Nat.mul_comm]
    rfl

/-- The header of the file is the first item. -/
theorem Final.exists_first {entries : List LinkEntry} (h : f.Final data entries ctx) :
    ∃ first rest, ctx.children = .cons first .nil rest ∧ first.body = .header f.hdr := by
  obtain ⟨t, ht, -⟩ := h.table
  have hlink := f.headerFits.le
  have hge := f.headerFits.ge
  have hsized : 0 < Pod.size HeaderItem.Header := by decide
  cases hchildren : ctx.children with
  | nil =>
      rw [hchildren] at ht
      cases ht
  | cons first children rest =>
      have hfirst : (first, children) ∈ ctx.children.subtrees := by
        rw [hchildren]
        exact List.mem_cons_self
      obtain rfl : children = .nil := h.consistent.childless_of_flat h.flat _ hfirst
      have hlaid := h.written.laid
      rw [ItemList.Laid, hchildren] at hlaid
      obtain ⟨hpos, -⟩ := hlaid
      refine ⟨first, rest, rfl, ?_⟩
      rcases h.kinds first (Forest.mem_nodes.mpr ⟨_, hfirst⟩) with
        hkind | ⟨part, -, hplace⟩ | ⟨-, hplace⟩
      · cases hkind with
        | header hbody => exact hbody
        | raw _ _ _ hunread =>
            rw [Unread] at hunread
            omega
        | text _ _ hname =>
            obtain ⟨text, -, hunread, -⟩ := hname.spec
            rw [Unread] at hunread
            omega
        | links _ hplace => omega
        | eof _ hlast => omega
      · omega
      · have := h.behind
        omega

theorem Final.reads {entries : List LinkEntry} (h : f.Final data entries ctx) : f.Reads ctx := by
  obtain ⟨t, ht, htat, htbody⟩ := h.table
  refine ⟨⟨t, ht, htat, entries, htbody, h.read⟩, ?_⟩
  have hsized : 0 < Pod.size HeaderItem.Header := by decide
  obtain ⟨first, rest, hchildren, hheader⟩ := h.exists_first
  have hlaid := h.written.laid
  rw [ItemList.Laid, hchildren] at hlaid
  obtain ⟨-, -, hrest⟩ := hlaid
  have hown : first.body.ownSize = Pod.size HeaderItem.Header := by rw [hheader]; rfl
  have hrest : ItemList.Laid (Pod.size HeaderItem.Header) rest := by
    simp only [Nat.zero_add, Forest.weight_nil, Nat.add_zero, hown] at hrest
    exact hrest
  have hsize : Pod.size HeaderItem.Header + ItemList.getSize rest = f.src.bytes.length := by
    rw [← h.written.size, Context.getSize, hchildren, ItemList.getSize, ItemList.getSize,
      Forest.weight_cons, Forest.weight_nil, hown]
    rfl
  have hsubtrees : ∀ x ∈ rest.subtrees, x ∈ ctx.children.subtrees := by
    intro x hx
    rw [hchildren]
    exact List.mem_cons_of_mem _ (List.mem_append_right _ hx)
  have hwritten : ∀ it ∈ rest.nodes,
      it.body.WrittenAt f.src.bytes ctx.view it.position True := by
    intro it hit
    obtain ⟨children, hsub⟩ := Forest.mem_nodes.mp hit
    have hbehind := (Forest.Laid.bounds hrest hsub).1
    exact h.writtenAt (Forest.mem_nodes.mpr ⟨_, hsubtrees _ hsub⟩) (by omega)
  obtain ⟨bytes, hbytes, hlength, hstands, -⟩ := ItemList.dumpBytes_of_written hrest
    (fun x hx => h.consistent.childless_of_flat h.flat x (hsubtrees x hx)) (by omega) hwritten
  refine ⟨first, rest, bytes, hchildren, hheader, hbytes, ?_⟩
  have hfile := f.fresh.stands.drop_eq_append
  have hdrop := (hstands.mpr fun _ _ => trivial).drop_eq_append
  rw [hlength, hsize, List.drop_length, List.append_nil] at hdrop
  rw [Pod.length_toBytes, Nat.zero_add, hdrop] at hfile
  exact hfile.symm

theorem Start.tableAt (h : f.Start data ctx) {it : Item} (hit : it ∈ ctx.children.nodes)
    {ptr : ItemPointer} (hid : it.id = ptr.item) (hat : it.position + ptr.offset = f.start)
    (hin : 0 < it.body.ownSize → ptr.offset < it.body.ownSize)
    (hunread : Unread f.src f.link f.start f.stop) : f.TableAt ctx ptr := by
  rcases (h.early it hit).kind.of_unread hin (hat ▸ hunread) with
    ⟨part, hbody, hlt⟩ | ⟨text, hbody, -⟩
  · obtain ⟨-, hplace⟩ := (h.early it hit).of_raw hbody
    have hlink := f.headerFits.le
    rw [Unread] at hunread
    exact ⟨it, hit, hid, hat, part, hbody, hlt, by omega⟩
  · cases h.early it hit with
    | header hbody' | links hbody' | eof hbody' | raw _ hbody' => cases hbody.symm.trans hbody'

/-- The label of the table still leads to it. -/
theorem TableAt.lookup {ptr : ItemPointer} (h : f.TableAt ctx ptr) (hnaming : f.Naming data ctx)
    {l : LabelPtr} (hl : ctx.toFilePos l = .ok f.start) :
    ctx.labels.lookup l = some (some ptr) := by
  obtain ⟨t, ht, hid, hat, part, hbody, hlt, -⟩ := h
  obtain ⟨a, ha, offset, hlookup, hplace, hin⟩ := hnaming.charted.at_of_toFilePos hl
  have hown : t.body.ownSize = part.size := by rw [hbody]; rfl
  obtain ⟨-, hunread, -⟩ := (hnaming.kinds t ht).of_raw hbody
  rw [Unread] at hunread
  have hlink := f.headerFits.le
  obtain rfl : a = t := by
    rcases Written.apart hnaming.written hnaming.charted ha ht with heq | hlt | hlt
    · exact heq
    · rcases (hnaming.kinds a ha).sized with hsized | ⟨-, hlast⟩
      · have := hin hsized
        omega
      · omega
    · omega
  rw [hlookup, hid, show offset = ptr.offset by omega]

/-- The table is split off. -/
theorem Start.exists_final (h : f.Start data ctx) (hclear : f.Clear)
    (hunread : Unread f.src f.link f.start f.stop) :
    ∃ ctx' entries, CollectionLinkHeaderItem.insertLinks ctx data f.raw.count = .ok ctx' ∧
      f.Final data entries ctx' := by
  obtain ⟨it, hit, ptr, hptr, hid, hat, hin⟩ := h.exists_ptr
  have htable := h.tableAt hit hid hat hin hunread
  obtain ⟨w, hraw, hw⟩ : ∃ w, ctx.isRaw ptr.item = true ∧
      ctx.getSourceOf ptr (f.raw.count.toNat * Pod.size Entry) = .ok w := by
    obtain ⟨t, ht, htid, htat, part, hbody, -, hstop⟩ := htable
    obtain ⟨children, hmem⟩ := Forest.mem_nodes.mp ht
    have hbodyOf := h.charted.consistent.bodyOf_of_mem hmem
    rw [htid, hbody] at hbodyOf
    rw [← f.count, Nat.mul_comm]
    rw [stop] at hstop
    obtain ⟨w, hw⟩ : ∃ w, ctx.getSourceOf ptr (Pod.size Entry * f.entries.length) = .ok w :=
      exists_getSourceOf hbodyOf (by omega)
    exact ⟨w, isRaw_of_bodyOf hbodyOf, hw⟩
  obtain ⟨-, -, -, hget, hstands⟩ := h.getSourceOf hit hid hat hw
  obtain ⟨⟨ctx₃, entries⟩, hparse, htable₃⟩ := h.naming.exists_parse hclear htable
    (List.Subset.refl _) hstands
  obtain ⟨h₃, hcarries, hread, -⟩ := h.naming.parse (List.Subset.refl _) hstands hparse
  rw [← hget, f.count] at hparse
  have hctx₃ := h₃.charted.consistent
  have hplace₃ := hcarries.toFilePos _ _ h.place
  have hlookup := htable₃.lookup h₃ hplace₃
  obtain ⟨t, ht, htid, htat, part, hbody, hlt, hstop⟩ := htable₃
  obtain ⟨children, hmem⟩ := Forest.mem_nodes.mp ht
  have hbodyOf := hctx₃.bodyOf_of_mem hmem
  rw [htid, hbody] at hbodyOf
  have hown : (Body.collectionLink entries).ownSize = Pod.size Entry * f.entries.length := by
    rw [hread.length_eq, Nat.mul_comm]
    rfl
  rw [stop] at hstop
  obtain ⟨ctx', hsplit⟩ : ∃ ctx', ctx₃.splitCreate ptr.item ptr.offset
      (.collectionLink entries) = .ok ctx' :=
    hctx₃.exists_splitCreate hbodyOf (by omega) fun l ptr' hl hid' =>
      h₃.charted.homed l ptr' hl (.raw part) (hid' ▸ hbodyOf) (show 0 < part.size by omega)
  refine ⟨ctx', entries, ?_, ?_⟩
  · rw [CollectionLinkHeaderItem.insertLinks, hptr, ok_bind, if_pos hraw, hw, ok_bind, hparse,
      ok_bind]
    exact hsplit
  obtain ⟨r, src₃, hnodes⟩ := hctx₃.splitCreate_nodes hsplit
  obtain rfl : r = t := hctx₃.eq_of_id hnodes.mem ht (hnodes.split.trans htid.symm)
  have hcarries' : ctx₃.Carries ctx' := .create (.refl ctx₃) hctx₃ hsplit
  obtain ⟨-, hunread', -⟩ := (h₃.kinds r ht).of_raw hbody
  have hge := f.headerFits.ge
  rw [Unread] at hunread hunread'
  exact {
    consistent := hctx₃.splitCreate_of_flat h₃.charted.flat hsplit
    flat := hctx₃.splitCreate_flat rfl hsplit h₃.charted.flat
    written := Written.split_raw h₃.written hctx₃ h₃.charted.flat rfl rfl hsplit
    kinds := fun a ha => by
      rcases hnodes.nodes a ha with ⟨hold, -⟩ | ⟨hnew, hplace⟩ | ⟨part', hpart, -, hplace⟩
      · exact .inl (h₃.kinds a hold)
      · exact .inr (.inr ⟨hnew, by omega⟩)
      · exact .inr (.inl ⟨part', hpart, by omega⟩)
    table := by
      obtain ⟨n, hn, -, hnew, hplace⟩ := hnodes.new
      exact ⟨n, hn, hplace.trans htat, hnew⟩
    place := hcarries'.toFilePos _ _ hplace₃
    linkCount := by
      obtain ⟨n, htarget, -, hnew⟩ := hctx₃.splitCreate_takes hlookup rfl hsplit
      have htarget0 : ctx'.target0 data = .ok (n, .nil) := target0_eq_ok.mpr htarget
      rw [linkCount, htarget0, ok_bind]
      simp only [hnew, pure_eq_ok]
    read := hread.imp fun _ _ hentry => ⟨hentry.1.carries hcarries', hentry.2.carries hcarries'⟩
    behind := by omega }

/-- The label of the table leads to the end of the file. -/
theorem Start.eof_of_atEnd (h : f.Start data ctx) (hend : f.AtEnd) {it : Item}
    (hit : it ∈ ctx.children.nodes) {ptr : ItemPointer} (hat : it.position + ptr.offset = f.start)
    (hin : 0 < it.body.ownSize → ptr.offset < it.body.ownSize) :
    it.body = .eof ∧ it.position = f.start ∧ ptr.offset = 0 := by
  have hstart := hend.2.1
  rcases (h.early it hit).kind.sized with hsized | ⟨heof, hlast⟩
  · obtain ⟨children, hmem⟩ := Forest.mem_nodes.mp hit
    have hle := h.charted.covers.le_getSize hmem
    have hsize := h.naming.getSize
    have hin := hin hsized
    change it.position + (it.body.ownSize + _) ≤ ctx.getSize at hle
    omega
  · exact ⟨heof, by omega, by omega⟩

/-- No label leads behind the end. -/
theorem Start.offset_of_atEnd (h : f.Start data ctx) (hend : f.AtEnd) {it : Item}
    (hmem : (it, .nil) ∈ ctx.children.subtrees) (hplace : it.position = f.start) :
    ∀ l ∈ it.labels, ctx.labels.offset l = 0 := by
  intro l hl
  have hctx := h.charted.consistent
  obtain ⟨-, hstart, hexports, hexpansions⟩ := hend
  obtain ⟨offset, hlookup⟩ :=
    (hctx.labelled it (Forest.mem_nodes.mpr ⟨_, hmem⟩)).attached l hl
  have hpos : ctx.toFilePos l = .ok (it.position + offset) := by
    rw [Context.toFilePos, target_of_find? hlookup (hctx.find?_of_mem hmem), ok_bind]
    rfl
  have hle := h.only l _ hpos
  have hlink := f.headerFits.le
  rw [LabelsMap.offset, hlookup]
  change offset = 0
  omega

theorem Start.exists_final_of_atEnd (h : f.Start data ctx) (hend : f.AtEnd) :
    ∃ ctx' entries, CollectionLinkHeaderItem.insertLinks ctx data f.raw.count = .ok ctx' ∧
      f.Final data entries ctx' := by
  have hctx := h.charted.consistent
  have hlink := f.headerFits.le
  have hge := f.headerFits.ge
  have hnone := hend.1
  have hstart := hend.2.1
  obtain ⟨it, hit, ptr, hptr, hid, hat, hin⟩ := h.exists_ptr
  obtain ⟨heof, hplace, hzero⟩ := h.eof_of_atEnd hend hit hat hin
  obtain ⟨children, hmem⟩ := Forest.mem_nodes.mp hit
  obtain rfl : children = .nil := hctx.childless it children hmem (h.charted.flat it hit)
  have hget := get_of_find? (hctx.find?_of_mem hmem)
  have hoffset := h.offset_of_atEnd hend hmem hplace
  obtain ⟨ctx', hreplace, hreplaced⟩ : ∃ ctx', (ctx.create (.collectionLink [])).2.replace it.id
      (ctx.create (.collectionLink [])).1 .nil = .ok ctx' ∧
        Replaced ctx ctx' it (.collectionLink []) :=
    hctx.exists_replaced hmem (by rw [heof]; rfl) fun l hl => (hoffset l hl).le
  have hedits : Edits (fun _ => True) Body.Leaf ctx ctx' :=
    .single (.replace hreplace trivial rfl rfl rfl hget (by rw [heof]; rfl) (by rw [heof]; rfl)
      (List.forall_mem_nil _))
  have hkeeps := hedits.keeps hctx
  obtain ⟨n, hn, hnid, hnplace, hbody⟩ := hreplaced.new
  refine ⟨ctx', [], ?_, ?_⟩
  · have hcount : f.raw.count = 0 := by
      have hlength := f.count
      rw [hnone] at hlength
      exact UInt32.toNat_inj.mp hlength.symm
    have hnot : ¬ ctx.isRaw ptr.item = true := fun hraw => by
      obtain ⟨src, hsrc⟩ := exists_of_isRaw hraw
      rw [← hid, hctx.bodyOf_of_mem hmem, heof] at hsrc
      cases hsrc
    rw [hid] at hreplace hget
    rw [CollectionLinkHeaderItem.insertLinks, hptr, ok_bind, if_neg hnot,
      CollectionLinkHeaderItem.replaceEof, validateField, require_of ⟨hzero, hcount⟩, ok_bind, hget,
      ok_bind]
    simp only [heof]
    exact hreplace
  · exact {
      consistent := hkeeps.consistent
      flat := hedits.flat hctx h.charted.flat
      written := Written.replaced_raw h.written hreplaced rfl rfl
      kinds := fun a ha => by
        rcases hreplaced.nodes a ha with hold | ⟨hbody, hpos⟩
        · exact .inl (h.early a hold).kind
        · exact .inr (.inr ⟨hbody, hpos.trans hplace⟩)
      table := ⟨n, Forest.mem_nodes.mpr ⟨_, hn⟩, hnplace.trans hplace, hbody⟩
      place := hkeeps.answers.toFilePos _ _ h.place
      linkCount := by
        obtain ⟨a, ha, haid, hl⟩ := hctx.attached data ptr (getPtr_eq_ok.mp hptr)
        rw [hctx.eq_of_id ha hit (haid.trans hid.symm)] at hl
        have hlookup := hreplaced.lookup data hl
        rw [hoffset data hl] at hlookup
        have hfind := hkeeps.consistent.find?_of_mem hn
        rw [hnid] at hfind
        have htarget0 : ctx'.target0 data = .ok (n, .nil) :=
          target0_eq_ok.mpr (target_of_find? hlookup hfind)
        rw [linkCount, htarget0, ok_bind]
        simp only [hbody, pure_eq_ok]
      read := hnone ▸ .nil
      behind := by omega }

/-- If nothing is in the way of the table, the links are read. -/
theorem readsLinks_of_clear (hclear : f.Clear) : f.ReadsLinks := by
  obtain ⟨ctx₂, data, h, hcreate⟩ := f.exists_start
  obtain ⟨ctx', entries, hinsert, hfinal⟩ : ∃ ctx' entries,
      CollectionLinkHeaderItem.insertLinks ctx₂ data f.raw.count = .ok ctx' ∧
        f.Final data entries ctx' := by
    rcases hclear.table with hunread | hend
    · exact h.exists_final hclear hunread
    · exact h.exists_final_of_atEnd hend
  exact ⟨ctx', hcreate.trans hinsert, hfinal.reads⟩

/-- The links are read if and only if nothing is in the way. -/
theorem readsLinks_iff (f : LinkedFile) : f.ReadsLinks ↔ f.Clear :=
  ⟨clear_of_readsLinks, readsLinks_of_clear⟩

end

/-! Files with one entry, whose name is behind it or in front of it. -/

theorem exists_linkedFile [FixedString] {src : Source} {file : HeaderItem.Header}
    {raw : CollectionLinkHeaderItem.Header} {entries : List Entry}
    (hread : (do
      let (ctx, file, _, ptr) ← File.untilLinks src
      let raw ← ctx.getRecord CollectionLinkHeaderItem.Header ptr
      pure (file, raw)) = Except.ok (file, raw))
    (hvalid : raw.validate src.size = .ok ()) (hcount : entries.length = raw.count.toNat)
    (htable : StandsAt (entries.flatMap toBytes) raw.offset.toNat src.bytes)
    (hentries : ∀ e ∈ entries, e.validate src.size = .ok ())
    (hnames : ∀ e ∈ entries, ∀ n ∈ e.names, ∃ text, NameAt src n text ∧
      Unread src file.collectionLinkOffset.toNat n (n + text.length + 1) ∧
      (n + text.length + 1 ≤ raw.offset.toNat ∨
        raw.offset.toNat + Pod.size Entry * entries.length ≤ n)) :
    ∃ f : LinkedFile, f.src = src ∧ f.file = file ∧ f.raw = raw ∧ f.entries = entries := by
  obtain ⟨⟨ctx, file, hdr, ptr⟩, hopened, hread⟩ := bind_eq_ok.mp hread
  obtain ⟨raw, hrecord, hread⟩ := bind_eq_ok.mp hread
  cases hread
  exact ⟨⟨src, ctx, file, hdr, ptr, raw, entries, hopened, hrecord, hvalid, hcount, htable,
    hentries, hnames⟩, rfl, rfl, rfl, rfl⟩

theorem createAndInsert_of_untilLinks [FixedString] {f : LinkedFile} {e : Error}
    (h : (do
      let (ctx, _, _, ptr) ← File.untilLinks f.src
      discard (CollectionLinkHeaderItem.createAndInsert ctx ptr)) = .error e) :
    CollectionLinkHeaderItem.createAndInsert f.ctx f.ptr = .error e := by
  rw [f.opened, ok_bind] at h
  dsimp only at h
  cases hinsert : CollectionLinkHeaderItem.createAndInsert f.ctx f.ptr with
  | ok ctx =>
      rw [hinsert] at h
      cases h
  | error e' =>
      rw [hinsert] at h
      cases h
      rfl

def oneLink (start : UInt32) (tail : Bytes) : Source :=
  .fromMemory (toBytes (HeaderItem.Header.ofExpansions 0x7c 0 0) ++
    (toBytes (CollectionLinkHeaderItem.Header.ofData start 1) ++ tail))

def oneName (name : UInt32) : Entry :=
  { name0 := name, name1 := 0, ptr := 0, field0c := 0, field10 := 0, field14 := 0, field18 := 0
    field1c := 0 }

theorem validate_ofData {offset count : UInt32} {size : Nat}
    (h : offset.toNat + Pod.size Entry * count.toNat ≤ size) :
    (CollectionLinkHeaderItem.Header.ofData offset count).validate size = .ok () := by
  simp [CollectionLinkHeaderItem.Header.validate, CollectionLinkHeaderItem.Header.ofData,
    validateField, require, h, Nat.le_trans (Nat.le_add_right _ _) h]

theorem validate_oneName {name : UInt32} {size : Nat} (h : name.toNat ≤ size) :
    ∀ e ∈ [oneName name], e.validate size = .ok () := by
  intro e he
  rw [List.mem_singleton.mp he]
  simp [Entry.validate, oneName, validateField, require, h]

/-- The name "a" is behind the table. -/
def nameBehind : Source := oneLink 124 (toBytes (oneName 156) ++ [0x61, 0])

def nameBefore : Source := oneLink 126 ([0x61, 0] ++ toBytes (oneName 124))

theorem names_oneName {name : UInt32} {P : Nat → Prop} (h : P name.toNat) :
    ∀ e ∈ [oneName name], ∀ n ∈ e.names, P n := by
  intro e he
  rw [List.mem_singleton.mp he]
  exact Entry.forall_names (fun _ => h) fun hne => absurd rfl hne

/-- A single name can only be in front of the table. -/
theorem clear_oneName [FixedString] {f : LinkedFile} {src : Source} {link start : Nat}
    {name : UInt32} (hsrc : f.src = src) (hlink : f.link = link) (hstart : f.start = start)
    (hentries : f.entries = [oneName name])
    (hunread : Unread src link start (start + Pod.size Entry)) (hbehind : start < name.toNat) :
    f.Clear := by
  have hname : ∀ n, f.IsName n → n = name.toNat := by
    intro n hn
    obtain ⟨e, he, hn⟩ := hn
    rw [hentries] at he
    exact names_oneName (P := (· = name.toNat)) rfl e he n hn
  have hstop : f.stop = start + Pod.size Entry := by
    rw [stop, hstart, hentries]
    rfl
  refine ⟨.inl ?_, fun n hn _ => ?_, fun n n' hn hn' hlt => ?_⟩
  · rw [hsrc, hlink, hstart, hstop]
    exact hunread
  · rw [hname n hn, hstart]
    exact hbehind
  · rw [hname n hn, hname n' hn'] at hlt
    exact absurd hlt (Nat.lt_irrefl _)

theorem nameBehind_readsLinks : ∃ f : @LinkedFile FixedString.zeroTerminated,
    @src FixedString.zeroTerminated f = nameBehind ∧ @ReadsLinks FixedString.zeroTerminated f := by
  have htable : StandsAt ([oneName 156].flatMap toBytes) 124 nameBehind.bytes :=
    StandsAt.of_slice_eq (by decide +kernel) (by decide +kernel)
  have hname : NameAt nameBehind 156 [0x61] :=
    ⟨by decide, StandsAt.of_slice_eq (by decide +kernel) (by decide +kernel)⟩
  have hunread : Unread nameBehind 0x3c 156 (156 + 1 + 1) := by
    rw [Unread]
    decide +kernel
  obtain ⟨f, hsrc, hfile, hraw, hentries⟩ :=
    @exists_linkedFile FixedString.zeroTerminated nameBehind (.ofExpansions 0x7c 0 0)
      (.ofData 124 1) [oneName 156] (by decide +kernel) (validate_ofData (by decide +kernel)) rfl
      htable (validate_oneName (by decide +kernel))
      (names_oneName ⟨[0x61], hname, hunread, by decide +kernel⟩)
  have hlink : @link FixedString.zeroTerminated f = 0x3c :=
    congrArg (·.collectionLinkOffset.toNat) hfile
  have hstart : @start FixedString.zeroTerminated f = 124 := congrArg (·.offset.toNat) hraw
  exact ⟨f, hsrc, (@readsLinks_iff FixedString.zeroTerminated f).mpr
    (@clear_oneName FixedString.zeroTerminated f _ _ _ _ hsrc hlink hstart hentries
      (by rw [Unread]; decide +kernel) (by decide))⟩

/-- The name is in front of the table, in the same raw item. -/
theorem nameBefore_not_readsLinks : ∃ f : @LinkedFile FixedString.zeroTerminated,
    @src FixedString.zeroTerminated f = nameBefore ∧
    CollectionLinkHeaderItem.createAndInsert (@ctx FixedString.zeroTerminated f)
      (@ptr FixedString.zeroTerminated f) =
        .error (.assertionFailed "pos <= GetSize() && pos+len <= GetSize()") ∧
    ¬ @ReadsLinks FixedString.zeroTerminated f := by
  have htable : StandsAt ([oneName 124].flatMap toBytes) 126 nameBefore.bytes :=
    StandsAt.of_slice_eq (by decide +kernel) (by decide +kernel)
  have hname : NameAt nameBefore 124 [0x61] :=
    ⟨by decide, StandsAt.of_slice_eq (by decide +kernel) (by decide +kernel)⟩
  have hunread : Unread nameBefore 0x3c 124 (124 + 1 + 1) := by
    rw [Unread]
    decide +kernel
  obtain ⟨f, hsrc, -, -, -⟩ := @exists_linkedFile FixedString.zeroTerminated nameBefore
    (.ofExpansions 0x7c 0 0) (.ofData 126 1) [oneName 124] (by decide +kernel)
    (validate_ofData (by decide +kernel)) rfl htable (validate_oneName (by decide +kernel))
    (names_oneName ⟨[0x61], hname, hunread, by decide +kernel⟩)
  have hfails := @createAndInsert_of_untilLinks FixedString.zeroTerminated f
    (.assertionFailed "pos <= GetSize() && pos+len <= GetSize()")
    (by rw [hsrc]; decide +kernel)
  refine ⟨f, hsrc, hfails, fun hreads => ?_⟩
  obtain ⟨ctx, hctx, -⟩ := hreads
  cases hfails.symm.trans hctx

end LinkedFile

end Stcm

end Neptools

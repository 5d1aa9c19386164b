import Neptools.Stcm.Links

/-!
Reading the names of the links. Each of them is a text of its own, and the raw items are
split at the names only.
-/

namespace Neptools

open Lib

namespace Stcm

open Context CollectionLinkItem

namespace LinkedFile

variable [FixedString] (f : LinkedFile)

/-- What there is while the names are read. -/
inductive Kind (data : LabelPtr) (it : Item) : Prop
  | raw (part : Source) (body : it.body = .raw part) (sized : 0 < part.size)
      (unread : Unread f.src f.link it.position (it.position + part.size))
      (ends : it.position + part.size = f.link ∨ it.position + part.size = f.src.size ∨
        f.IsName (it.position + part.size))
  | text (text : Bytes) (body : it.body = .cString text) (name : f.IsName it.position)
      (stands : NameAt f.src it.position text)
  | header (body : it.body = .header f.hdr) (first : it.position = 0)
  | links (body : it.body = .collectionLinkHeader data) (place : it.position = f.link)
  | eof (body : it.body = .eof) (last : it.position = f.src.size)

structure Naming (data : LabelPtr) (ctx : Context) : Prop where
  charted : ctx.Charted
  written : ctx.RawWritten f.src.bytes
  kinds : ∀ it ∈ ctx.children.nodes, f.Kind data it

variable {f} {data : LabelPtr} {ctx ctx' : Context}

theorem Kind.of_plain {it it' : Item} (h : f.Kind data it) (heq : it'.plain = it.plain) :
    f.Kind data it' := by
  have hbody := body_of_plain heq
  have hpos := position_of_plain heq
  cases h with
  | raw part body sized unread ends =>
      exact .raw part (hbody.trans body) sized (hpos ▸ unread) (hpos ▸ ends)
  | text text body name stands => exact .text text (hbody.trans body) (hpos ▸ name) (hpos ▸ stands)
  | header body first => exact .header (hbody.trans body) (hpos.trans first)
  | links body place => exact .links (hbody.trans body) (hpos.trans place)
  | eof body last => exact .eof (hbody.trans body) (hpos.trans last)

theorem Naming.getSize (h : f.Naming data ctx) : ctx.getSize = f.src.size := by
  rw [← Source.length_bytes]
  exact h.written.size

theorem Naming.relabels (h : f.Naming data ctx) (hrelabels : ctx.Relabels ctx')
    (hctx' : ctx'.Charted) : f.Naming data ctx' where
  charted := hctx'
  written := Written.relabel_raw h.written hrelabels
  kinds it hit := by
    obtain ⟨it', hit', heq⟩ := exists_of_plain hrelabels.plain.symm hit
    exact (h.kinds it' hit').of_plain heq.symm

variable (f)

/-- The header of the links is in the file. -/
structure HeaderFits : Prop where
  ge : Pod.size HeaderItem.Header ≤ f.link
  stands : StandsAt (toBytes f.raw) f.link f.src.bytes

/-- The raw item the header of the links is in. -/
structure LinkRaw (it : Item) (src : Source) : Prop where
  mem : it ∈ f.ctx.children.nodes
  id : it.id = f.ptr.item
  body : it.body = .raw src
  start : it.position = Pod.size HeaderItem.Header
  stop : it.position + src.size = f.src.size
  link : it.position + f.ptr.offset = f.link
  stands : StandsAt (toBytes f.raw) f.ptr.offset src.bytes

theorem exists_linkRaw : ∃ it src, f.LinkRaw it src := by
  have hfresh := f.fresh
  obtain ⟨src, hbody, hstands⟩ := standsAt_of_getRecord f.record
  obtain ⟨it, hit, hid, hraw⟩ := exists_mem_of_bodyOf hbody
  obtain ⟨hpos, hend⟩ : it.position = Pod.size HeaderItem.Header ∧
      it.position + src.size = f.src.size := by
    rcases hfresh.nodes it hit with ⟨hheader, -⟩ | ⟨heof, -⟩ | ⟨part, hpart, hpos, hend⟩
    · cases hraw.symm.trans hheader
    · cases hraw.symm.trans heof
    · cases hraw.symm.trans hpart
      exact ⟨hpos, hend⟩
  refine ⟨it, src, hit, hid, hraw, hpos, hend, ?_, hstands⟩
  obtain ⟨it', hit', offset, hlookup, hat, -⟩ :=
    hfresh.charted.at_of_toFilePos hfresh.places.collectionLink
  rw [hfresh.lookup] at hlookup
  simp only [Option.some.injEq] at hlookup
  rw [hlookup] at hid ⊢
  rw [hfresh.charted.consistent.eq_of_id hit hit' hid]
  exact hat

theorem headerFits : f.HeaderFits := by
  obtain ⟨it, src, h⟩ := f.exists_linkRaw
  have hlink := h.link
  have hstart := h.start
  refine ⟨by omega, ?_⟩
  rw [← hlink]
  exact h.stands.trans (Written.standsAt_raw f.fresh.written h.mem h.body)

theorem HeaderFits.le {f : LinkedFile} (h : f.HeaderFits) :
    f.link + Pod.size CollectionLinkHeaderItem.Header ≤ f.src.size := by
  have hle := h.stands.le
  rwa [Pod.length_toBytes, Source.length_bytes] at hle

/-- What there is before a name is read. -/
inductive Early (data : LabelPtr) (it : Item) : Prop
  | header (body : it.body = .header f.hdr) (first : it.position = 0)
  | links (body : it.body = .collectionLinkHeader data) (place : it.position = f.link)
  | eof (body : it.body = .eof) (last : it.position = f.src.size)
      (id : it.id = (Context.root f.src).nextId)
  | raw (part : Source) (body : it.body = .raw part) (sized : 0 < part.size)
      (place : it.position = Pod.size HeaderItem.Header ∧ it.position + part.size = f.link ∨
        it.position = f.link + Pod.size CollectionLinkHeaderItem.Header ∧
          it.position + part.size = f.src.size)

theorem Early.kind {f : LinkedFile} {data : LabelPtr} {it : Item} (h : f.Early data it) :
    f.Kind data it := by
  cases h with
  | header body first => exact .header body first
  | links body place => exact .links body place
  | eof body last _ => exact .eof body last
  | raw part body sized place =>
      exact .raw part body sized (by rw [Unread]; omega) (by omega)

/-- The header of the links is split off, and the links are read next. -/
structure Start (data : LabelPtr) (ctx : Context) : Prop where
  charted : ctx.Charted
  written : ctx.RawWritten f.src.bytes
  early : ∀ it ∈ ctx.children.nodes, f.Early data it
  place : ctx.toFilePos data = .ok f.start
  places : HeaderItem.Places ctx f.hdr f.file
  only : ∀ l pos, ctx.toFilePos l = .ok pos → pos = f.start ∨ pos = f.file.exportOffset.toNat ∨
    pos = f.link ∨ pos = f.file.expansionOffset.toNat

theorem Start.naming {f : LinkedFile} {data : LabelPtr} {ctx : Context} (h : f.Start data ctx) :
    f.Naming data ctx :=
  ⟨h.charted, h.written, fun it hit => (h.early it hit).kind⟩

/-- What is behind the header of the file is in two parts, once that of the links is split
off. -/
theorem early_of_splitCreate {f : LinkedFile} {it : Item} {src : Source} (hlink : f.LinkRaw it src)
    {ctx₁ ctx₂ : Context} {data : LabelPtr} (hrelabels : f.ctx.Relabels ctx₁) (h₁ : ctx₁.Charted)
    (hsplit : ctx₁.splitCreate f.ptr.item f.ptr.offset (.collectionLinkHeader data) = .ok ctx₂) :
    ∀ n ∈ ctx₂.children.nodes, f.Early data n := by
  intro n hn
  have hfresh := f.fresh
  obtain ⟨r, src', hnodes⟩ := h₁.consistent.splitCreate_nodes hsplit
  obtain ⟨a, ha, hra⟩ := exists_of_plain hrelabels.plain.symm hnodes.mem
  have hid : a.id = r.id := (congrArg Item.id hra :)
  obtain rfl : a = it := hfresh.charted.consistent.eq_of_id ha hlink.mem
    (hid.trans (hnodes.split.trans hlink.id.symm))
  have hat := position_of_plain hra
  obtain rfl : src' = src :=
    Body.raw.inj (hnodes.raw.symm.trans ((body_of_plain hra).symm.trans hlink.body))
  have hown : (Body.collectionLinkHeader data).ownSize =
    Pod.size CollectionLinkHeaderItem.Header := rfl
  have hsized : 0 < Pod.size CollectionLinkHeaderItem.Header := by decide
  have hle := hnodes.le
  have hstart := hlink.start
  have hstop := hlink.stop
  have hlink := hlink.link
  rcases hnodes.nodes n hn with
    ⟨hmem, hother⟩ | ⟨hnew, hplace⟩ | ⟨part, hpart, hpartSized, hplace⟩
  · obtain ⟨b, hb, heq⟩ := exists_of_plain hrelabels.plain.symm hmem
    have hnbody := body_of_plain heq
    have hnpos := position_of_plain heq
    have hnid : b.id = n.id := (congrArg Item.id heq :)
    rcases hfresh.nodes b hb with ⟨hheader, hfirst⟩ | ⟨heof, hlast⟩ | ⟨part, hpart, hplace, hlast⟩
    · exact .header (hnbody.symm.trans hheader) (hnpos.symm.trans hfirst)
    · exact .eof (hnbody.symm.trans heof) (hnpos.symm.trans hlast)
        (hnid.symm.trans (hfresh.last b hb heof))
    · -- there is one raw item only
      have hnsize : n.body.ownSize = part.size := by rw [← hnbody, hpart]; rfl
      have hrsize : r.body.ownSize = src'.size := by rw [hnodes.raw]; rfl
      have hwritten₁ := Written.relabel_raw hfresh.written hrelabels
      rcases Written.apart hwritten₁ h₁ hmem hnodes.mem with heq | hlt | hlt
      · exact absurd heq hother
      · omega
      · omega
  · exact .links hnew (by omega)
  · exact .raw part hpart hpartSized (by omega)

theorem exists_start : ∃ ctx data, f.Start data ctx ∧
    CollectionLinkHeaderItem.createAndInsert f.ctx f.ptr =
      CollectionLinkHeaderItem.insertLinks ctx data f.raw.count := by
  have hfresh := f.fresh
  obtain ⟨it, src, hlink⟩ := f.exists_linkRaw
  have hsize : f.ctx.getSize = f.src.size := by
    rw [← Source.length_bytes]
    exact hfresh.written.size
  obtain ⟨⟨ctx₁, data⟩, hlabel⟩ := hfresh.charted.exists_createLabelFallbackAt
    CollectionLinkHeaderItem.dataName f.raw.offset.toNat
  have hrelabels := relabels_createLabelFallbackAt hlabel
  have h₁ := hfresh.charted.createLabelFallbackAt hlabel
  have hwritten₁ := Written.relabel_raw hfresh.written hrelabels
  have hbody : ctx₁.bodyOf f.ptr.item = some (.raw src) := by
    obtain ⟨children, hmem⟩ := Forest.mem_nodes.mp hlink.mem
    rw [hrelabels.bodyOf, ← hlink.id, hfresh.charted.consistent.bodyOf_of_mem hmem, hlink.body]
  have hle := hlink.stands.le
  rw [Pod.length_toBytes, Source.length_bytes] at hle
  have hsized : 0 < Pod.size CollectionLinkHeaderItem.Header := by decide
  obtain ⟨ctx₂, hsplit, h₂⟩ : ∃ ctx₂, ctx₁.splitCreate f.ptr.item f.ptr.offset
      (.collectionLinkHeader data) = .ok ctx₂ ∧ ctx₂.Charted :=
    h₁.splitCreate hbody hle hsized rfl
  refine ⟨ctx₂, data, ⟨h₂, hwritten₁.split_raw h₁.consistent h₁.flat rfl rfl hsplit,
    early_of_splitCreate hlink hrelabels h₁ hsplit, ?_, ?_, fun l pos hl => ?_⟩, ?_⟩
  · exact h₁.consistent.splitCreate_toFilePos hsplit _ _
      (Consistent.createLabelFallbackAt_toFilePos hlabel)
  · exact (hfresh.places.keep hrelabels.carries.toFilePos).keep
      (h₁.consistent.splitCreate_toFilePos hsplit)
  · have hl := h₁.consistent.toFilePos_of_splitCreate hsplit hl
    exact (hfresh.charted.consistent.toFilePos_of_createLabelFallbackAt hlabel hl).imp_right
      (hfresh.only l pos)
  · rw [CollectionLinkHeaderItem.createAndInsert, f.record, ok_bind, hsize, f.valid, ok_bind,
      hlabel, ok_bind]
    dsimp only
    rw [hsplit, ok_bind]

section

variable {f}

theorem Kind.of_raw {it : Item} (h : f.Kind data it) {part : Source} (hbody : it.body = .raw part) :
    0 < part.size ∧ Unread f.src f.link it.position (it.position + part.size) ∧
      (it.position + part.size = f.link ∨ it.position + part.size = f.src.size ∨
        f.IsName (it.position + part.size)) := by
  cases h with
  | raw part' body sized unread ends =>
      cases hbody.symm.trans body
      exact ⟨sized, unread, ends⟩
  | text _ body | header body | links body | eof body => cases hbody.symm.trans body

/-- Only the end of the file has no bytes. -/
theorem Kind.sized {it : Item} (h : f.Kind data it) :
    0 < it.body.ownSize ∨ it.body = .eof ∧ it.position = f.src.size := by
  cases h with
  | raw part body sized => exact .inl (by rw [body]; exact sized)
  | text text body => exact .inl (by rw [body]; exact Nat.succ_pos _)
  | header body => exact .inl (by rw [body]; exact (show 0 < Pod.size _ by decide))
  | links body => exact .inl (by rw [body]; exact (show 0 < Pod.size _ by decide))
  | eof body last => exact .inr ⟨body, last⟩

/-- An unread byte is in a raw item, or a name became a text there. -/
theorem Kind.of_unread {it : Item} (h : f.Kind data it) {offset hi : Nat}
    (hin : 0 < it.body.ownSize → offset < it.body.ownSize)
    (hunread : Unread f.src f.link (it.position + offset) hi) :
    (∃ part, it.body = .raw part ∧ offset < part.size) ∨
      ∃ text, it.body = .cString text ∧ offset ≤ text.length ∧ f.IsName it.position ∧
        NameAt f.src it.position text := by
  have hlink := f.headerFits.le
  have hge := f.headerFits.ge
  rw [Unread] at hunread
  rcases h.sized with hsized | ⟨-, hlast⟩
  · have hin := hin hsized
    cases h with
    | raw part body =>
        rw [body] at hin
        exact .inl ⟨part, body, hin⟩
    | text text body name stands =>
        rw [body] at hin
        exact .inr ⟨text, body, Nat.le_of_lt_succ hin, name, stands⟩
    | header body first =>
        rw [body] at hin
        have hin : offset < Pod.size HeaderItem.Header := hin
        omega
    | links body place =>
        rw [body] at hin
        have hin : offset < Pod.size CollectionLinkHeaderItem.Header := hin
        omega
    | eof _ last => omega
  · omega

theorem Naming.maybeCreate (h : f.Naming data ctx) {n : Nat} (hn : f.IsName n) {ptr : ItemPointer}
    (hptr : ctx.getPointer n = .ok ptr) {y : Context × Bytes}
    (hcreate : CStringItem.maybeCreate ctx ptr = .ok y) :
    f.Naming data y.1 ∧ ctx.Carries y.1 ∧ Named y.1 n := by
  have hctx := h.charted.consistent
  obtain ⟨it, hit, hid, hat, hfind, -⟩ := h.charted.at_getPointer hptr
  rw [CStringItem.maybeCreate] at hcreate
  split at hcreate
  · obtain ⟨w, hw, hcreate⟩ := bind_eq_ok.mp hcreate
    obtain ⟨string, hstring, hcreate⟩ := bind_eq_ok.mp hcreate
    obtain ⟨ctx', hsplit, hcreate⟩ := bind_eq_ok.mp hcreate
    cases hcreate
    obtain ⟨r, src, hnodes⟩ := hctx.splitCreate_nodes hsplit
    obtain rfl : r = it := hctx.eq_of_id hnodes.mem hit (hnodes.split.trans hid.symm)
    obtain ⟨children, hmem⟩ := Forest.mem_nodes.mp hit
    have hbody : ctx.bodyOf ptr.item = some (.raw src) := by
      rw [← hid, hctx.bodyOf_of_mem hmem, hnodes.raw]
    obtain ⟨hnul, hstands⟩ := Source.preadCString_spec hstring
    have hname : NameAt f.src n string := by
      have hw := standsAt_getSource hw hbody (Written.standsAt_raw h.written hit hnodes.raw)
      rw [hat] at hw
      exact ⟨hnul, hstands.trans hw⟩
    obtain ⟨-, hunread, hends⟩ := (h.kinds r hit).of_raw hnodes.raw
    have hsized : 0 < (Body.cString string).ownSize := Nat.succ_pos _
    refine ⟨⟨h.charted.of_splitCreate hsplit hsized rfl,
      Written.split_raw h.written hctx h.charted.flat rfl rfl hsplit, fun a ha => ?_⟩,
      .create (.refl ctx) hctx hsplit, ?_⟩
    · have hle := hnodes.le
      rcases hnodes.nodes a ha with ⟨hold, -⟩ | ⟨hnew, hplace⟩ | ⟨part, hpart, hpartSized, hplace⟩
      · exact h.kinds a hold
      · have hplace := hplace.trans hat
        exact .text string hnew (hplace ▸ hn) (hplace ▸ hname)
      · rw [Unread] at hunread
        rcases hplace with ⟨hfront, hpartSize⟩ | ⟨hback, hpartSize⟩
        · have hend : a.position + part.size = n := by omega
          exact .raw part hpart hpartSized (by rw [Unread]; omega) (.inr (.inr (hend ▸ hn)))
        · have hend : a.position + part.size = r.position + src.size := by omega
          exact .raw part hpart hpartSized (by rw [Unread]; omega) (hend ▸ hends)
    · obtain ⟨a, ha, -, hnew, hplace⟩ := hnodes.new
      exact ⟨a, ha, hplace.trans hat, string, hnew⟩
  · rw [get_of_find? hfind, ok_bind] at hcreate
    obtain ⟨_, hzero, hcreate⟩ := bind_eq_ok.mp hcreate
    have hzero := require_eq_ok.mp hzero
    split at hcreate
    · rename_i string hbody
      cases hcreate
      exact ⟨h, .refl ctx, it, hit, by omega, string, hbody⟩
    · cases hcreate

theorem Naming.parseName (h : f.Naming data ctx) {name : UInt32}
    (hname : name ≠ 0 → f.IsName name.toNat) {y : Context × Option LabelPtr}
    (hparse : parseName ctx name = .ok y) :
    f.Naming data y.1 ∧ ctx.Carries y.1 ∧ NameRead y.1 name y.2 ∧
      (name ≠ 0 → Named y.1 name.toNat) := by
  rw [CollectionLinkItem.parseName] at hparse
  split at hparse
  · rename_i hzero
    cases hparse
    exact ⟨h, .refl ctx, (if_pos hzero).mpr rfl, fun hne => absurd hzero hne⟩
  · rename_i hne
    obtain ⟨ptr, hptr, hparse⟩ := bind_eq_ok.mp hparse
    obtain ⟨⟨ctx₁, string⟩, hcreate, hparse⟩ := bind_eq_ok.mp hparse
    obtain ⟨⟨ctx₂, l⟩, hl, hparse⟩ := bind_eq_ok.mp hparse
    cases hparse
    obtain ⟨h₁, hcarries, hnamed⟩ := h.maybeCreate (hname hne) hptr hcreate
    obtain ⟨hrelabels, h₂, hpos⟩ := h₁.charted.of_getLabelToNamed hl
    have hcarries' := hrelabels.carries
    exact ⟨h₁.relabels hrelabels h₂, hcarries.trans hcarries', (if_neg hne).mpr ⟨l, rfl, hpos⟩,
      fun _ => hnamed.carries hcarries'⟩

theorem IsName.of_entry {e : Entry} (he : e ∈ f.entries) :
    (e.name0 ≠ 0 → f.IsName e.name0.toNat) ∧ (e.name1 ≠ 0 → f.IsName e.name1.toNat) := by
  refine ⟨fun hne => ⟨e, he, ?_⟩, fun hne => ⟨e, he, ?_⟩⟩
  · exact List.mem_map_of_mem (List.mem_filter.mpr ⟨List.mem_cons_self, decide_eq_true hne⟩)
  · exact List.mem_map_of_mem (List.mem_filter.mpr
      ⟨List.mem_cons_of_mem _ List.mem_cons_self, decide_eq_true hne⟩)

/-- After the entries are read, all names are texts, and the labels lead to them. -/
theorem Naming.parse (h : f.Naming data ctx) {es : List Entry} (hes : es ⊆ f.entries) {s : Source}
    {pos : Nat} (hstands : StandsAt (es.flatMap toBytes) pos s.bytes)
    {y : Context × List LinkEntry}
    (hparse : CollectionLinkItem.parse ctx (s.at_ pos) es.length = .ok y) :
    f.Naming data y.1 ∧ ctx.Carries y.1 ∧ List.Forall₂ (EntryRead y.1) es y.2 ∧
      ∀ e ∈ es, ∀ n ∈ e.names, Named y.1 n := by
  induction es generalizing ctx pos y with
  | nil =>
      cases hparse
      exact ⟨h, .refl ctx, .nil, List.forall_mem_nil _⟩
  | cons e es ih =>
      rw [List.flatMap_cons] at hstands
      have hrest := hstands.right
      rw [Pod.length_toBytes] at hrest
      obtain ⟨he, hes⟩ := List.cons_subset.mp hes
      obtain ⟨hname0, hname1⟩ := IsName.of_entry he
      rw [List.length_cons, CollectionLinkItem.parse, Source.readGen_of_standsAt hstands.left,
        ok_bind] at hparse
      obtain ⟨_, -, hparse⟩ := bind_eq_ok.mp hparse
      obtain ⟨⟨ctx₁, name0⟩, h0, hparse⟩ := bind_eq_ok.mp hparse
      obtain ⟨⟨ctx₂, name1⟩, h1, hparse⟩ := bind_eq_ok.mp hparse
      obtain ⟨⟨ctx₃, rest⟩, hparseRest, hparse⟩ := bind_eq_ok.mp hparse
      cases hparse
      obtain ⟨h₁, hcarries₁, hread0, hnamed0⟩ := h.parseName hname0 h0
      obtain ⟨h₂, hcarries₂, hread1, hnamed1⟩ := h₁.parseName hname1 h1
      obtain ⟨h₃, hcarries₃, hreads, hnamed⟩ := ih h₂ hes hrest hparseRest
      refine ⟨h₃, hcarries₁.trans (hcarries₂.trans hcarries₃), .cons
        ⟨hread0.carries (hcarries₂.trans hcarries₃), hread1.carries hcarries₃⟩ hreads,
        List.forall_mem_cons.mpr ⟨Entry.forall_names (fun hne => ?_) fun hne => ?_, hnamed⟩⟩
      · exact (hnamed0 hne).carries (hcarries₂.trans hcarries₃)
      · exact (hnamed1 hne).carries hcarries₃

theorem IsName.spec {n : Nat} (h : f.IsName n) : ∃ text, NameAt f.src n text ∧
    Unread f.src f.link n (n + text.length + 1) ∧
      (n + text.length + 1 ≤ f.start ∨ f.stop ≤ n) := by
  obtain ⟨e, he, hn⟩ := h
  exact f.names e he n hn

/-- The table is still where the pointer leads to. -/
def TableAt (f : LinkedFile) (ctx : Context) (ptr : ItemPointer) : Prop :=
  ∃ it ∈ ctx.children.nodes, it.id = ptr.item ∧ it.position + ptr.offset = f.start ∧
    ∃ part, it.body = .raw part ∧ ptr.offset < part.size ∧ f.stop ≤ it.position + part.size

theorem TableAt.relabels {ptr : ItemPointer} (h : f.TableAt ctx ptr)
    (hrelabels : ctx.Relabels ctx') : f.TableAt ctx' ptr := by
  obtain ⟨it, hit, hid, hat, part, hpart, hlt, hle⟩ := h
  obtain ⟨it', hit', heq⟩ := exists_of_plain hrelabels.plain hit
  have hpos := position_of_plain heq
  exact ⟨it', hit', (congrArg Item.id heq :).trans hid, hpos ▸ hat, part,
    (body_of_plain heq).trans hpart, hlt, hpos ▸ hle⟩

section

variable (hclear : f.Clear)

include hclear

/-- A name that is read leaves the table alone. -/
theorem TableAt.maybeCreate {table : ItemPointer} (htable : f.TableAt ctx table)
    (h : f.Naming data ctx) {n : Nat} (hn : f.IsName n) {ptr : ItemPointer}
    (hptr : ctx.getPointer n = .ok ptr) {y : Context × Bytes}
    (hcreate : CStringItem.maybeCreate ctx ptr = .ok y) : f.TableAt y.1 table := by
  have hctx := h.charted.consistent
  obtain ⟨it, hit, hid, hat, hfind, hin⟩ := h.charted.at_getPointer hptr
  rw [CStringItem.maybeCreate] at hcreate
  split at hcreate
  · obtain ⟨w, -, hcreate⟩ := bind_eq_ok.mp hcreate
    obtain ⟨string, -, hcreate⟩ := bind_eq_ok.mp hcreate
    obtain ⟨ctx', hsplit, hcreate⟩ := bind_eq_ok.mp hcreate
    cases hcreate
    obtain ⟨r, src, hnodes⟩ := hctx.splitCreate_nodes hsplit
    obtain rfl : r = it := hctx.eq_of_id hnodes.mem hit (hnodes.split.trans hid.symm)
    obtain ⟨t, ht, htid, htat, part, hpart, hlt, hle⟩ := htable
    by_cases heq : t = r
    · -- the name is in the raw item of the table, so it is behind the table
      subst heq
      cases hnodes.raw.symm.trans hpart
      obtain ⟨hsized, hunread, -⟩ := (h.kinds t ht).of_raw hpart
      rw [hpart] at hin
      have hin : ptr.offset < src.size := hin hsized
      have hbehind : f.start < n := by
        refine hclear.behind n hn ?_
        rw [Unread] at hunread
        omega
      obtain ⟨text, -, -, hapart⟩ := hn.spec
      obtain ⟨front, hfront, hfrontId, hfrontPos, part, hpart, hsize⟩ := hnodes.front (by omega)
      exact ⟨front, hfront, hfrontId.trans (hid.symm.trans htid), hfrontPos ▸ htat, part, hpart,
        by omega, by omega⟩
    · exact ⟨t, hnodes.others t ht heq, htid, htat, part, hpart, hlt, hle⟩
  · rw [get_of_find? hfind, ok_bind] at hcreate
    obtain ⟨_, -, hcreate⟩ := bind_eq_ok.mp hcreate
    split at hcreate
    · cases hcreate
      exact htable
    · cases hcreate

theorem Naming.exists_maybeCreate (h : f.Naming data ctx) {n : Nat} (hn : f.IsName n)
    {ptr : ItemPointer} (hptr : ctx.getPointer n = .ok ptr) :
    ∃ y, CStringItem.maybeCreate ctx ptr = .ok y := by
  obtain ⟨it, hit, hid, hat, hfind, hin⟩ := h.charted.at_getPointer hptr
  obtain ⟨text, hname, hunread, -⟩ := hn.spec
  have hlink := f.headerFits.le
  obtain ⟨children, hmem⟩ := Forest.mem_nodes.mp hit
  have hbody := h.charted.consistent.bodyOf_of_mem hmem
  rw [hid] at hbody
  rw [CStringItem.maybeCreate]
  rcases (h.kinds it hit).of_unread hin (hat ▸ hunread) with ⟨part, hpart, hin⟩ |
    ⟨t, ht, hin, hother, hstands⟩
  · obtain ⟨-, hitem, hends⟩ := (h.kinds it hit).of_raw hpart
    rw [hpart] at hbody
    have hle : n + text.length + 1 ≤ it.position + part.size := by
      rw [Unread] at hitem hunread
      rcases hends with hend | hend | hend
      · omega
      · omega
      · have := hname.lt_of_mem (hclear.apart n _ hn hend (by omega))
        omega
    obtain ⟨w, hw, -, hbytes⟩ := getSource_of_bodyOf hbody hin.le
    have hstands := standsAt_getSource hw hbody (Written.standsAt_raw h.written hit hpart)
    rw [hat] at hstands
    have hstring : w.preadCString 0 = .ok text := by
      refine Source.preadCString_of_standsAt hname.1 ((hstands.trans_iff ?_).mp hname.2)
      rw [hbytes, length_slice_of_le (by rw [Source.length_bytes]; omega), List.length_append,
        List.length_singleton]
      omega
    obtain ⟨ctx', hsplit, -⟩ : ∃ ctx', ctx.splitCreate ptr.item ptr.offset (.cString text) =
        .ok ctx' ∧ ctx'.Charted :=
      h.charted.splitCreate hbody (show ptr.offset + (text.length + 1) ≤ part.size by omega)
        (Nat.succ_pos _) rfl
    refine ⟨(ctx', text), ?_⟩
    rw [if_pos (isRaw_of_bodyOf hbody), hw, ok_bind, hstring, ok_bind, hsplit]
    rfl
  · have hnot : ¬ ctx.isRaw ptr.item = true := fun hraw => by
      obtain ⟨src, hsrc⟩ := exists_of_isRaw hraw
      rw [hbody, ht] at hsrc
      cases hsrc
    -- two texts of which one is inside the other would have no NUL between them
    have hzero : ptr.offset = 0 := by
      by_contra hne
      have := hstands.lt_of_mem (hclear.apart _ n hother hn (by omega))
      omega
    refine ⟨(ctx, t), ?_⟩
    rw [if_neg hnot, get_of_find? hfind, ok_bind]
    dsimp only
    rw [require_of hzero, ok_bind]
    simp only [ht, pure_eq_ok]

/-- A name can be read, and the table stays where it is. -/
theorem Naming.exists_parseName (h : f.Naming data ctx) {table : ItemPointer}
    (htable : f.TableAt ctx table) {name : UInt32} (hname : name ≠ 0 → f.IsName name.toNat) :
    ∃ y, CollectionLinkItem.parseName ctx name = .ok y ∧ f.TableAt y.1 table := by
  rw [CollectionLinkItem.parseName]
  split
  · exact ⟨_, rfl, htable⟩
  · rename_i hne
    obtain ⟨ptr, hptr, -⟩ := h.charted.exists_getPointer name.toNat
    obtain ⟨⟨ctx₁, string⟩, hcreate⟩ := h.exists_maybeCreate hclear (hname hne) hptr
    obtain ⟨h₁, -, -⟩ := h.maybeCreate (hname hne) hptr hcreate
    obtain ⟨ctx₂, l, hl, hrelabels, -⟩ := h₁.charted.getLabelToNamed name.toNat
      (CStringItem.getLabelName string)
    refine ⟨(ctx₂, some l), ?_,
      (htable.maybeCreate hclear h (hname hne) hptr hcreate).relabels hrelabels⟩
    rw [hptr, ok_bind, hcreate, ok_bind]
    dsimp only
    rw [hl, ok_bind]
    rfl

/-- So can the entries. -/
theorem Naming.exists_parse (h : f.Naming data ctx) {table : ItemPointer}
    (htable : f.TableAt ctx table) {es : List Entry} (hes : es ⊆ f.entries) {s : Source} {pos : Nat}
    (hstands : StandsAt (es.flatMap toBytes) pos s.bytes) :
    ∃ y, CollectionLinkItem.parse ctx (s.at_ pos) es.length = .ok y ∧ f.TableAt y.1 table := by
  induction es generalizing ctx pos with
  | nil => exact ⟨_, rfl, htable⟩
  | cons e es ih =>
      rw [List.flatMap_cons] at hstands
      have hrest := hstands.right
      rw [Pod.length_toBytes] at hrest
      obtain ⟨he, hes⟩ := List.cons_subset.mp hes
      obtain ⟨hname0, hname1⟩ := IsName.of_entry he
      have hvalid := f.validEntries e he
      rw [← h.getSize] at hvalid
      obtain ⟨⟨ctx₁, name0⟩, h0, htable₁⟩ := h.exists_parseName hclear htable hname0
      obtain ⟨h₁, -, -⟩ := h.parseName hname0 h0
      obtain ⟨⟨ctx₂, name1⟩, h1, htable₂⟩ := h₁.exists_parseName hclear htable₁ hname1
      obtain ⟨h₂, -, -⟩ := h₁.parseName hname1 h1
      obtain ⟨⟨ctx₃, rest⟩, hparse, htable₃⟩ := ih h₂ htable₂ hes hrest
      refine ⟨(ctx₃, { name0, name1 } :: rest), ?_, htable₃⟩
      rw [List.length_cons, CollectionLinkItem.parse, Source.readGen_of_standsAt hstands.left,
        ok_bind]
      dsimp only
      rw [hvalid, ok_bind, h0, ok_bind]
      dsimp only
      rw [h1, ok_bind]
      dsimp only
      rw [hparse, ok_bind]
      rfl

end

end

end LinkedFile

end Stcm

end Neptools

import Neptools.Format.Charted
import Neptools.Format.Written
import Neptools.Stcm.Counts

/-!
The links to other collections: a table of entries, with names that are texts of their
own. The raw item of the table, and the place in it, are looked up before the entries are
read; reading a name splits the raw item the name is in. If this is the same one and the
name is in front of the table, the table is not found again.
-/

namespace Neptools

open Lib

namespace Context

variable {ctx ctx' : Context}

/-- What is read from a raw item is there. -/
theorem standsAt_of_getRecord {α : Type} [Pod α] {ptr : ItemPointer} {a : α}
    (h : ctx.getRecord α ptr = .ok a) : ∃ src, ctx.bodyOf ptr.item = some (.raw src) ∧
      StandsAt (toBytes a) ptr.offset src.bytes := by
  obtain ⟨⟨it, children, src⟩, hraw, h⟩ := bind_eq_ok.mp h
  obtain ⟨_, -, h⟩ := bind_eq_ok.mp h
  obtain ⟨_, -, h⟩ := bind_eq_ok.mp h
  exact ⟨src, bodyOf_of_getRaw hraw, Source.standsAt_of_preadGen h⟩

theorem Charted.createLabelFallbackAt (h : ctx.Charted) {name : LabelPtr} {pos : Nat}
    {y : Context × LabelPtr} (hl : ctx.createLabelFallbackAt name pos = .ok y) : y.1.Charted := by
  obtain ⟨ptr, hptr, hl⟩ := bind_eq_ok.mp hl
  cases hl
  obtain ⟨ptr', hptr', hin⟩ := h.exists_getPointer pos
  cases hptr.symm.trans hptr'
  obtain ⟨it, children, hfind, -⟩ := getPointer_ok hptr
  exact h.createLabelFallback name hin (get_of_find? hfind)

theorem Charted.exists_createLabelFallbackAt (h : ctx.Charted) (name : LabelPtr) (pos : Nat) :
    ∃ y, ctx.createLabelFallbackAt name pos = .ok y := by
  obtain ⟨ptr, hptr, -⟩ := h.exists_getPointer pos
  exact ⟨_, by rw [Context.createLabelFallbackAt, hptr, ok_bind]; rfl⟩

/-- One label is new. -/
theorem Consistent.toFilePos_of_createLabelFallbackAt (h : ctx.Consistent) {name : LabelPtr}
    {pos : Nat} {y : Context × LabelPtr} (hlabel : ctx.createLabelFallbackAt name pos = .ok y)
    {l : LabelPtr} {p : Nat} (hl : y.1.toFilePos l = .ok p) :
    p = pos ∨ ctx.toFilePos l = .ok p := by
  have hnew := createLabelFallbackAt_toFilePos hlabel
  have hkeep := (relabels_createLabelFallbackAt hlabel).carries.toFilePos
  obtain ⟨ptr', hptr'⟩ := exists_lookup_of_toFilePos hl
  obtain ⟨ptr, -, hlabel⟩ := bind_eq_ok.mp hlabel
  cases hlabel
  by_cases hname : l = freshName ctx.labels name
  · rw [hname] at hl
    exact .inl (Except.ok.inj (hl.symm.trans hnew))
  · have hsame := (AList.lookup_insert_ne hname).symm.trans hptr'
    obtain ⟨p', hold⟩ := h.exists_toFilePos hsame
    cases hl.symm.trans (hkeep l p' hold)
    exact .inr hold

/-- Only what is raw has to be in the file. -/
abbrev RawWritten (file : Bytes) (ctx : Context) : Prop :=
  ctx.Written file (fun it => it.body.isRaw = true) fun _ => True

theorem Written.relabel_raw {file : Bytes} (h : ctx.RawWritten file)
    (hrelabels : ctx.Relabels ctx') : ctx'.RawWritten file :=
  h.relabel (fun _ _ heq => by rw [body_of_plain heq]) (fun _ _ _ => Iff.rfl) hrelabels

theorem Written.split_raw {file : Bytes} (h : ctx.RawWritten file) (hctx : ctx.Consistent)
    (hflat : ctx.Flat) {id pos : Nat} {body : Body} (hraw : body.isRaw = false)
    (hfixup : body.fixup = body) (hsplit : ctx.splitCreate id pos body = .ok ctx') :
    ctx'.RawWritten file := by
  refine h.split hctx hflat (fun it hit => ⟨hit, trivial⟩) hsplit hfixup
    fun _ _ _ _ _ _ _ n hn _ hready => ?_
  rw [hn, hraw] at hready
  cases hready

/-- The bytes of a raw item are those of the file at its place. -/
theorem Written.standsAt_raw {file : Bytes} (h : ctx.RawWritten file) {it : Item}
    (hit : it ∈ ctx.children.nodes) {part : Source} (hbody : it.body = .raw part) :
    StandsAt part.bytes it.position file := by
  have hwritten := h.items it hit (by rw [hbody]; rfl)
  rw [hbody] at hwritten
  exact hwritten.standsAt

theorem Written.apart {file : Bytes} (h : ctx.RawWritten file) (hctx : ctx.Charted) {a b : Item}
    (ha : a ∈ ctx.children.nodes) (hb : b ∈ ctx.children.nodes) :
    a = b ∨ a.position + a.body.ownSize ≤ b.position ∨ b.position + b.body.ownSize ≤ a.position :=
  Forest.Laid.apart h.laid (hctx.consistent.childless_of_flat hctx.flat) ha hb

end Context

namespace Stcm

open Context CollectionLinkItem

namespace HeaderItem

/-- `CreateAndInsert` up to the links: what was read, what it became, and where the links
are. -/
def insertHeader [FixedString] (ctx : Context) (ptr : ItemPointer) :
    Except Error (Context × Header × HeaderItem × ItemPointer) := do
  let raw ← ctx.getRecord Header ptr
  let (ctx, hdr) ← parse ctx raw
  let ctx ← ctx.splitCreate ptr.item ptr.offset (.header hdr)
  let ptr ← ctx.getPtr hdr.collectionLink
  pure (ctx, raw, hdr, ptr)

/-- A label that is not new is where it was. -/
theorem charted_parse [FixedString] {ctx : Context} (h : ctx.Charted) {raw : Header}
    {y : Context × HeaderItem} (hparse : parse ctx raw = .ok y) : y.1.Charted ∧
      ∀ l pos, y.1.toFilePos l = .ok pos → pos = raw.exportOffset.toNat ∨
        pos = raw.collectionLinkOffset.toNat ∨ pos = raw.expansionOffset.toNat ∨
          ctx.toFilePos l = .ok pos := by
  obtain ⟨_, -, hparse⟩ := bind_eq_ok.mp hparse
  obtain ⟨⟨ctx₁, exportSec⟩, hexports, hparse⟩ := bind_eq_ok.mp hparse
  obtain ⟨⟨ctx₂, collectionLink⟩, hlinks, hparse⟩ := bind_eq_ok.mp hparse
  obtain ⟨⟨ctx₃, expansion⟩, hexpansion, hparse⟩ := bind_eq_ok.mp hparse
  cases hparse
  have h₁ : ctx₁.Charted := h.createLabelFallbackAt hexports
  have h₂ : ctx₂.Charted := h₁.createLabelFallbackAt hlinks
  have hold {l : LabelPtr} {pos : Nat} (hl : ctx₂.toFilePos l = .ok pos) :
      pos = raw.exportOffset.toNat ∨ pos = raw.collectionLinkOffset.toNat ∨
        ctx.toFilePos l = .ok pos := by
    rcases h₁.consistent.toFilePos_of_createLabelFallbackAt hlinks hl with heq | hl
    · exact .inr (.inl heq)
    · exact (h.consistent.toFilePos_of_createLabelFallbackAt hexports hl).imp_right .inr
  rw [parseExpansion] at hexpansion
  split at hexpansion
  · obtain ⟨_, hlabel, hexpansion⟩ := bind_eq_ok.mp hexpansion
    cases hexpansion
    refine ⟨h₂.createLabelFallbackAt hlabel, fun l pos hl => ?_⟩
    rcases h₂.consistent.toFilePos_of_createLabelFallbackAt hlabel hl with heq | hl
    · exact .inr (.inr (.inl heq))
    · exact (hold hl).imp_right fun h => h.imp_right .inr
  · cases hexpansion
    exact ⟨h₂, fun l pos hl => (hold hl).imp_right fun h => h.imp_right .inr⟩

end HeaderItem

/-- `Parse_` up to the links. -/
def File.untilLinks [FixedString] (src : Source) :
    Except Error (Context × HeaderItem.Header × HeaderItem × ItemPointer) := do
  let ctx ← (Context.root src).splitCreate 0 src.size .eof
  HeaderItem.insertHeader ctx { item := 0, offset := 0 }

theorem File.start_eq_untilLinks [FixedString] (src : Source) :
    File.start src = (do
      let (ctx, raw, hdr, links) ← File.untilLinks src
      let ctx ← CollectionLinkHeaderItem.createAndInsert ctx links
      let ctx ← HeaderItem.insertExpansions ctx raw.expansionCount hdr.expansion
      let ptr ← ctx.getPtr hdr.exportSec
      let (ctx, entries) ← ExportsItem.insert ctx ptr raw.exportCount
      pure { ctx, todo := entries.map ExportsItem.EntryType.visit }) := by
  simp only [File.start, File.untilLinks, HeaderItem.insert, HeaderItem.insertHeader, bind_assoc,
    pure_bind]

namespace CollectionLinkItem

/-- The positions of the names, without those that are not there. -/
def Entry.names (e : Entry) : List Nat :=
  ([e.name0, e.name1].filter (· ≠ 0)).map UInt32.toNat

/-- A text is at a position, with a NUL behind it. -/
def NameAt (src : Source) (n : Nat) (text : Bytes) : Prop :=
  0 ∉ text ∧ StandsAt (text ++ [0]) n src.bytes

/-- There is no NUL in the text. -/
theorem NameAt.lt_of_mem {src : Source} {n len : Nat} {text : Bytes} (h : NameAt src n text)
    (hnul : 0 ∈ Lib.slice src.bytes n len) : text.length < len := by
  obtain ⟨hnot, hstands⟩ := h
  by_contra hge
  obtain ⟨post, hpost⟩ := hstands.left.drop_eq
  rw [Lib.slice, hpost, List.take_append_of_le_length (Nat.le_of_not_lt hge)] at hnul
  exact hnot (List.mem_of_mem_take hnul)

theorem NameAt.mem_of_lt {src : Source} {n len : Nat} {text : Bytes} (h : NameAt src n text)
    (hlt : text.length < len) : 0 ∈ Lib.slice src.bytes n len := by
  obtain ⟨post, hpost⟩ := h.2.drop_eq
  have hle : (text ++ [0]).length ≤ len := by
    rw [List.length_append, List.length_singleton]
    omega
  rw [Lib.slice, hpost, List.take_append, List.take_of_length_le hle]
  simp

/-- A part of the file that is still in one raw item when only its header, and that of the
links at `link`, are read. -/
def Unread (src : Source) (link lo hi : Nat) : Prop :=
  Pod.size HeaderItem.Header ≤ lo ∧ lo < link ∧ hi ≤ link ∨
    link + Pod.size CollectionLinkHeaderItem.Header ≤ lo ∧ lo < src.size ∧ hi ≤ src.size

/-- The label of a name leads to its position. -/
def NameRead (ctx : Context) (name : UInt32) (l : Option LabelPtr) : Prop :=
  if name = 0 then l = none else ∃ l', l = some l' ∧ ctx.toFilePos l' = .ok name.toNat

def EntryRead (ctx : Context) (e : Entry) (entry : LinkEntry) : Prop :=
  NameRead ctx e.name0 entry.name0 ∧ NameRead ctx e.name1 entry.name1

/-- The name at a position is a text of its own. -/
def Named (ctx : Context) (n : Nat) : Prop :=
  ∃ it ∈ ctx.children.nodes, it.position = n ∧ ∃ text, it.body = .cString text

theorem Named.carries {ctx ctx' : Context} {n : Nat} (h : Named ctx n)
    (hcarries : ctx.Carries ctx') : Named ctx' n := by
  obtain ⟨it, hit, hpos, text, hbody⟩ := h
  obtain ⟨it', hit', heq⟩ := hcarries.items it hit (by rw [hbody]; rfl)
  exact ⟨it', hit', (position_of_plain heq).trans hpos, text, (body_of_plain heq).trans hbody⟩

theorem Entry.forall_names {e : Entry} {P : Nat → Prop} (h0 : e.name0 ≠ 0 → P e.name0.toNat)
    (h1 : e.name1 ≠ 0 → P e.name1.toNat) : ∀ n ∈ e.names, P n := by
  intro n hn
  obtain ⟨name, hname, rfl⟩ := List.mem_map.mp hn
  obtain ⟨hmem, hne⟩ := List.mem_filter.mp hname
  have hne := of_decide_eq_true hne
  simp only [List.mem_cons, List.not_mem_nil, or_false] at hmem
  rcases hmem with rfl | rfl
  · exact h0 hne
  · exact h1 hne

theorem NameRead.carries {ctx ctx' : Context} {name : UInt32} {l : Option LabelPtr}
    (h : NameRead ctx name l) (hcarries : ctx.Carries ctx') : NameRead ctx' name l := by
  rw [NameRead] at h ⊢
  split
  · rename_i hzero
    rwa [if_pos hzero] at h
  · rename_i hne
    rw [if_neg hne] at h
    obtain ⟨l', rfl, hpos⟩ := h
    exact ⟨l', rfl, hcarries.toFilePos _ _ hpos⟩

theorem NameRead.toFilePosOrZero {ctx : Context} {name : UInt32} {l : Option LabelPtr}
    (h : NameRead ctx name l) : ctx.view.toFilePosOrZero l = .ok name.toNat := by
  rw [NameRead] at h
  split at h
  · rename_i hzero
    rw [h, hzero]
    rfl
  · obtain ⟨l', rfl, hpos⟩ := h
    exact hpos

theorem Entry.eq_of_validate {e : Entry} {size : Nat} (h : e.validate size = .ok ()) :
    e = { name0 := e.name0, name1 := e.name1, ptr := 0, field0c := 0, field10 := 0, field14 := 0
          field18 := 0, field1c := 0 } := by
  simp only [Entry.validate, validateField, bind_eq_ok, require_eq_ok, exists_const] at h
  obtain ⟨-, -, hptr, h0c, h10, h14, h18, h1c⟩ := h
  cases e
  simp_all

/-- Entries that are read are written again. -/
theorem dump_of_read {ctx : Context} {es : List Entry} {entries : List LinkEntry} {size : Nat}
    (h : List.Forall₂ (EntryRead ctx) es entries) (hvalid : ∀ e ∈ es, e.validate size = .ok ()) :
    ∃ calls, dump ctx.view entries = .ok calls ∧ Sink.bytesOf calls = es.flatMap toBytes := by
  induction h with
  | nil => exact ⟨[], rfl, rfl⟩
  | @cons e entry es entries hread _ ih =>
      obtain ⟨he, hes⟩ := List.forall_mem_cons.mp hvalid
      obtain ⟨calls, hcalls, hbytes⟩ := ih hes
      have hsame := Entry.eq_of_validate he
      refine ⟨.write (toBytes e) :: calls, ?_, ?_⟩
      · rw [dump, hread.1.toFilePosOrZero, ok_bind, hread.2.toFilePosOrZero, ok_bind, hcalls,
          ok_bind, UInt32.ofNat_toNat, UInt32.ofNat_toNat, ← hsame]
        rfl
      · rw [Sink.bytesOf_cons, hbytes, List.flatMap_cons]
        rfl

end CollectionLinkItem

theorem CollectionLinkHeaderItem.Header.eq_of_validate {h : CollectionLinkHeaderItem.Header}
    {size : Nat} (hvalid : h.validate size = .ok ()) :
    h = CollectionLinkHeaderItem.Header.ofData h.offset h.count := by
  simp only [validate, validateField, bind_eq_ok, require_eq_ok, exists_const] at hvalid
  cases h
  simp_all [ofData]

/-- A file with links that pass validation. The names in them are in unread parts of the
file, and not in the table. -/
structure LinkedFile [FixedString] where
  src : Source
  ctx : Context
  file : HeaderItem.Header
  hdr : HeaderItem
  ptr : ItemPointer
  raw : CollectionLinkHeaderItem.Header
  entries : List Entry
  opened : File.untilLinks src = .ok (ctx, file, hdr, ptr)
  record : ctx.getRecord CollectionLinkHeaderItem.Header ptr = .ok raw
  valid : raw.validate src.size = .ok ()
  count : entries.length = raw.count.toNat
  table : StandsAt (entries.flatMap toBytes) raw.offset.toNat src.bytes
  validEntries : ∀ e ∈ entries, e.validate src.size = .ok ()
  names : ∀ e ∈ entries, ∀ n ∈ e.names, ∃ text, NameAt src n text ∧
    Unread src file.collectionLinkOffset.toNat n (n + text.length + 1) ∧
    (n + text.length + 1 ≤ raw.offset.toNat ∨
      raw.offset.toNat + Pod.size Entry * entries.length ≤ n)

namespace LinkedFile

variable [FixedString] (f : LinkedFile)

/-- Where the header of the links is. -/
def link : Nat := f.file.collectionLinkOffset.toNat

/-- Where the table is. -/
def start : Nat := f.raw.offset.toNat

def stop : Nat := f.start + Pod.size Entry * f.entries.length

def IsName (n : Nat) : Prop := ∃ e ∈ f.entries, n ∈ e.names

/-- The table is where the header says, with labels that lead to the names. The header of
the file can be written only when the exports are there; with what it was read from, the
other items write the file. -/
structure Reads (ctx : Context) : Prop where
  table : ∃ it ∈ ctx.children.nodes, it.position = f.start ∧
    ∃ entries, it.body = .collectionLink entries ∧
      List.Forall₂ (EntryRead ctx) f.entries entries
  dump : ∃ first rest bytes, ctx.children = .cons first .nil rest ∧ first.body = .header f.hdr ∧
    ItemList.dumpBytes ctx.view rest = .ok bytes ∧ toBytes f.file ++ bytes = f.src.bytes

/-- The links are read. -/
def ReadsLinks : Prop :=
  ∃ ctx, CollectionLinkHeaderItem.createAndInsert f.ctx f.ptr = .ok ctx ∧ f.Reads ctx

/-- An empty table at the end of the file, with no other table said to be behind the end. -/
def AtEnd : Prop :=
  f.entries = [] ∧ f.start = f.src.size ∧ f.file.exportOffset.toNat ≤ f.src.size ∧
    f.file.expansionOffset.toNat ≤ f.src.size

/-- The table is unread, or the end of the file. No name is in front of it in its raw item,
and names that differ have a NUL between them. -/
structure Clear : Prop where
  table : Unread f.src f.link f.start f.stop ∨ f.AtEnd
  behind : ∀ n, f.IsName n → (n < f.link ↔ f.start < f.link) → f.start < n
  apart : ∀ n n', f.IsName n → f.IsName n' → n < n' →
    0 ∈ Lib.slice f.src.bytes n (n' - n)

/-- Everything behind the header is raw. -/
structure Fresh : Prop where
  charted : f.ctx.Charted
  stands : StandsAt (toBytes f.file) 0 f.src.bytes
  written : f.ctx.RawWritten f.src.bytes
  nodes : ∀ it ∈ f.ctx.children.nodes, it.body = .header f.hdr ∧ it.position = 0 ∨
    it.body = .eof ∧ it.position = f.src.size ∨
      ∃ part, it.body = .raw part ∧ it.position = Pod.size HeaderItem.Header ∧
        it.position + part.size = f.src.size
  lookup : f.ctx.labels.lookup f.hdr.collectionLink = some (some f.ptr)
  places : HeaderItem.Places f.ctx f.hdr f.file
  only : ∀ l pos, f.ctx.toFilePos l = .ok pos → pos = f.file.exportOffset.toNat ∨ pos = f.link ∨
    pos = f.file.expansionOffset.toNat
  last : ∀ it ∈ f.ctx.children.nodes, it.body = .eof → it.id = (Context.root f.src).nextId

variable {f} in
/-- Once the header of the file is split off, one raw item is left. -/
theorem nodes_of_splitCreate {ctx₁ ctx₂ : Context} {hdr : HeaderItem} (h : ctx₁.Charted)
    (hwritten : ctx₁.RawWritten f.src.bytes)
    (hold : ∀ a ∈ ctx₁.children.nodes, a.body = .eof ∧ a.position = f.src.size ∨
      a.position = 0 ∧ ∃ part, a.body = .raw part ∧ part.size = f.src.size)
    (hsplit : ctx₁.splitCreate 0 0 (.header hdr) = .ok ctx₂) :
    ∀ it ∈ ctx₂.children.nodes, it.body = .header hdr ∧ it.position = 0 ∨
      it.body = .eof ∧ it.position = f.src.size ∨
        ∃ part, it.body = .raw part ∧ it.position = Pod.size HeaderItem.Header ∧
          it.position + part.size = f.src.size := by
  intro it hit
  obtain ⟨r, src, hnodes⟩ := h.consistent.splitCreate_nodes hsplit
  obtain ⟨hpos, hsize⟩ : r.position = 0 ∧ src.size = f.src.size := by
    rcases hold r hnodes.mem with ⟨heof, -⟩ | ⟨hpos, part, hpart, hsame⟩
    · cases hnodes.raw.symm.trans heof
    · cases hnodes.raw.symm.trans hpart
      exact ⟨hpos, hsame⟩
  have hown : (Body.header hdr).ownSize = Pod.size HeaderItem.Header := rfl
  have hpositive : 0 < Pod.size HeaderItem.Header := by decide
  have hle := hnodes.le
  rcases hnodes.nodes it hit with ⟨hmem, hother⟩ | ⟨hbody, hat⟩ | ⟨part, hpart, hsized, hat⟩
  · rcases hold it hmem with ⟨heof, hat⟩ | ⟨hat, part, hpart, hsame⟩
    · exact .inr (.inl ⟨heof, hat⟩)
    · have hit' : it.body.ownSize = f.src.size := by rw [hpart]; exact hsame
      have hr' : r.body.ownSize = f.src.size := by rw [hnodes.raw]; exact hsize
      rcases Written.apart hwritten h hmem hnodes.mem with heq | hlt | hlt
      · exact absurd heq hother
      · omega
      · omega
  · exact .inl ⟨hbody, hat.trans hpos⟩
  · exact .inr (.inr ⟨part, hpart, by omega, by omega⟩)

theorem fresh : f.Fresh := by
  obtain ⟨ctx₀, hroot, h⟩ := bind_eq_ok.mp f.opened
  obtain ⟨raw, hrecord, h⟩ := bind_eq_ok.mp h
  obtain ⟨⟨ctx₁, hdr⟩, hparse, h⟩ := bind_eq_ok.mp h
  obtain ⟨ctx₂, hsplit, h⟩ := bind_eq_ok.mp h
  obtain ⟨ptr, hptr, h⟩ := bind_eq_ok.mp h
  simp only [pure_eq_ok, Except.ok.injEq, Prod.mk.injEq] at h
  obtain ⟨rfl, rfl, rfl, rfl⟩ := h
  have hroots := root_split_nodes hroot
  have hwritten₀ : ctx₀.RawWritten f.src.bytes :=
    Written.root_split (fun it hit => ⟨hit, trivial⟩) (fun _ _ => trivial) hroot
  have hpositive : 0 < Pod.size HeaderItem.Header := by decide
  -- the header is in the raw item, so that there is a byte in the file
  obtain ⟨hne, hstands⟩ : f.src.size ≠ 0 ∧ StandsAt (toBytes f.file) 0 f.src.bytes := by
    obtain ⟨src, hbody, hstands⟩ := standsAt_of_getRecord hrecord
    obtain ⟨it, hit, -, hraw⟩ := exists_mem_of_bodyOf hbody
    have hle := hstands.le
    rw [Pod.length_toBytes, Source.length_bytes] at hle
    rcases hroots it hit with ⟨heof, -⟩ | ⟨hpos, part, hpart, hsame⟩
    · cases hraw.symm.trans heof
    · cases hraw.symm.trans hpart
      have hfile := hstands.trans (Written.standsAt_raw hwritten₀ hit hraw)
      rw [hpos] at hfile
      exact ⟨by omega, hfile⟩
  have h₀ := charted_root hne hroot
  obtain ⟨hrelabels, hvalid, hplaces⟩ := HeaderItem.parse_ok hparse
  obtain ⟨h₁, honly⟩ := HeaderItem.charted_parse h₀ hparse
  have hwritten₁ := hwritten₀.relabel_raw hrelabels
  refine ⟨h₁.of_splitCreate hsplit hpositive rfl, hstands, hwritten₁.split_raw h₁.consistent
    h₁.flat rfl rfl hsplit, nodes_of_splitCreate h₁ hwritten₁ (fun a ha => ?_) hsplit,
    getPtr_eq_ok.mp hptr, hplaces.keep (h₁.consistent.splitCreate_toFilePos hsplit),
    fun l pos hl => ?_, fun it hit heof => ?_⟩
  · obtain ⟨a₀, ha₀, heq⟩ := exists_of_plain hrelabels.plain.symm ha
    rw [← body_of_plain heq, ← position_of_plain heq]
    exact hroots a₀ ha₀
  · have hl := h₁.consistent.toFilePos_of_splitCreate hsplit hl
    refine (honly l pos hl).imp_right fun h => h.imp_right fun h => h.resolve_right fun hl => ?_
    obtain ⟨ptr, hnone⟩ :=
      exists_lookup_of_toFilePos ((Consistent.root f.src).toFilePos_of_splitCreate hroot hl)
    cases hnone
  · rcases h₁.consistent.mem_splitCreate hsplit hit (by rw [heof]; rfl) with hmem | ⟨-, hheader⟩
    · obtain ⟨it₀, hit₀, heq⟩ := exists_of_plain hrelabels.plain.symm hmem
      have heof₀ := (body_of_plain heq).trans heof
      have hid : it₀.id = it.id := (congrArg Item.id heq :)
      rw [← hid]
      rcases (Consistent.root f.src).mem_splitCreate hroot hit₀ (by rw [heof₀]; rfl) with
        hmem | ⟨hid, -⟩
      · rw [List.mem_singleton.mp hmem] at heof₀
        cases heof₀
      · exact hid
    · cases heof.symm.trans hheader

end LinkedFile

end Stcm

end Neptools

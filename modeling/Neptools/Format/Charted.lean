import Neptools.Format.AtLabels
import Neptools.Format.Covered
import Neptools.Format.Parsed

/-!
While a file is read, and nothing is put into it that has no bytes, every label is inside
its item. So what is raw can be split wherever there is room.
-/

namespace Neptools

open Lib

namespace Context

/-- A label of an item that is sliced goes to a piece that takes it. -/
theorem exists_taking_span {labels : LabelsMap} {offset : Nat} {seq : List Piece}
    {lss : List (List LabelPtr)} {l : LabelPtr} (hwithin : Within labels offset seq lss)
    (hhomes : Homes labels offset seq lss) (hnodup : lss.flatten.Nodup) (hl : l ∈ lss.flatten) :
    ∃ s ∈ spans offset seq, Takes s.start s.stop (labels.offset l) ∧
      (dealt labels offset seq lss).lookup l =
        some (some { item := s.item, offset := labels.offset l - s.start }) := by
  induction seq generalizing labels offset lss with
  | nil =>
      obtain rfl := within_nil hwithin
      cases hl
  | cons el seq ih =>
      obtain ⟨ls, lss, rfl, hrest⟩ := within_cons hwithin
      obtain ⟨htakes, -, hhomes⟩ := hhomes
      rw [List.flatten_cons] at hnodup hl
      obtain ⟨-, hnodup, hdisjoint⟩ := List.nodup_append.mp hnodup
      have hkeep : ∀ l' ∈ lss.flatten,
          (moveLabels labels el.item.id offset ls).offset l' = labels.offset l' :=
        fun l' hl' => offset_moveLabels_of_not_mem fun h => hdisjoint l' h l' hl' rfl
      rcases List.mem_append.mp hl with hl | hl
      · refine ⟨_, List.mem_cons_self, htakes l hl, ?_⟩
        have hlater : l ∉ lss.flatten := fun h => hdisjoint l hl l h rfl
        rw [dealt, dealt_of_not_mem hlater, lookup_moveLabels, if_pos hl]
      · obtain ⟨s, hs, htakes, hlookup⟩ := ih ((within_congr hkeep).mpr hrest)
          ((homes_congr hkeep).mpr hhomes) hnodup hl
        rw [hkeep l hl] at htakes hlookup
        exact ⟨s, List.mem_cons_of_mem _ hs, htakes, hlookup⟩

/-- The pointer leads to one of the bytes of an item, if that has any. -/
def Inside (ctx : Context) (ptr : ItemPointer) : Prop :=
  ∀ b, ctx.bodyOf ptr.item = some b → 0 < b.ownSize → ptr.offset < b.ownSize

/-- No label is at the end of its item. -/
def Homed (ctx : Context) : Prop :=
  ∀ l ptr, ctx.labels.lookup l = some (some ptr) → ctx.Inside ptr

variable {ctx ctx' : Context}

theorem Relabels.inside (h : ctx.Relabels ctx') {ptr : ItemPointer} (hptr : ctx.Inside ptr) :
    ctx'.Inside ptr := by
  intro b hb
  rw [h.bodyOf] at hb
  exact hptr b hb

theorem exists_mem_of_bodyOf {id : Nat} {b : Body} (hb : ctx.bodyOf id = some b) :
    ∃ it ∈ ctx.children.nodes, it.id = id ∧ it.body = b := by
  obtain ⟨it, children, hfind, rfl⟩ := exists_of_bodyOf hb
  obtain ⟨hmem, hid⟩ := find?_some hfind
  exact ⟨it, Forest.mem_nodes.mpr ⟨_, hmem⟩, hid, rfl⟩

/-- The parts of an item that was split, with what each of them takes. -/
theorem splitSeq_spans {nextId pos : Nat} {r n : Item} {src back : Source} {s : Span}
    (hs : s ∈ spans 0 (splitSeq nextId r src back pos n .nil)) :
    pos ≠ 0 ∧ s = ⟨r.id, 0, pos⟩ ∨ s = ⟨n.id, pos, pos + n.getSize .nil⟩ ∨
      src.size - n.getSize .nil - pos ≠ 0 ∧
        s = ⟨if pos = 0 then r.id else nextId, pos + n.getSize .nil, src.size⟩ := by
  rw [splitSeq] at hs
  dsimp only at hs
  by_cases hpos : pos = 0 <;> by_cases hrest : src.size - n.getSize .nil - pos = 0
  · simp_all [spans]
  · simp_all [spans]
  · simp_all [spans]
  · simp_all [spans]

/-- A label of the item that is split goes to the part that takes it. -/
theorem Consistent.split2_span (h : ctx.Consistent) {id pos : Nat} {r n : Item}
    {children : ItemList} {src : Source} (hraw : ctx.getRaw id = .ok (r, children, src))
    (hsplit : ctx.split2 id pos n .nil = .ok ctx') {l : LabelPtr} (hl : l ∈ r.labels)
    (hlt : ctx.labels.offset l < src.size) :
    ∃ s : Span, Takes s.start s.stop (ctx.labels.offset l) ∧
      ctx'.labels.lookup l =
        some (some { item := s.item, offset := ctx.labels.offset l - s.start }) ∧
      (pos ≠ 0 ∧ s = ⟨r.id, 0, pos⟩ ∨ s = ⟨n.id, pos, pos + n.getSize .nil⟩ ∨
        src.size - n.getSize .nil - pos ≠ 0 ∧
          s = ⟨if pos = 0 then r.id else ctx.nextId, pos + n.getSize .nil, src.size⟩) := by
  obtain ⟨-, rfl, hbody, k, hk, hapart⟩ := h.registers.raw_hole hraw
  have hr : r ∈ ctx.children.nodes := by
    rw [hk, mem_plug]
    exact .inr List.mem_cons_self
  have hlabelled := h.labelled r hr
  have hlen := split2_le hk hapart hbody hsplit
  by_cases hwhole : pos = 0 ∧ src.size - n.getSize .nil - pos = 0
  · obtain ⟨rfl, hrest⟩ := hwhole
    rw [split2_whole hk hapart hbody hlen rfl hrest] at hsplit
    obtain ⟨-, -, -, rfl⟩ := (replace_eq_ok hk hapart).mp hsplit
    refine ⟨⟨n.id, 0, 0 + n.getSize .nil⟩, ?_, ?_, .inr (.inl rfl)⟩
    · exact .inl (by dsimp only; omega)
    · exact (lookup_moveLabels _ _ _ _ l).trans (if_pos hl)
  · obtain ⟨front, back, -, -, hsplit'⟩ := split2_sliced hk hapart hbody hlen hwhole
    rw [hsplit'] at hsplit
    obtain ⟨ctx₁, hslice, hsplit⟩ := bind_eq_ok.mp hsplit
    cases hsplit
    have hk₁ : Context.children { ctx with
        nextId := splitNextId ctx.nextId src.size (n.getSize .nil) pos } =
        k.plug (.single r .nil) := hk
    obtain ⟨lss, hflat, hwithin, hhomes, rfl⟩ := slice_ok hk₁ hapart hlabelled hslice
    obtain ⟨s, hs, htakes, hlookup⟩ :=
      exists_taking_span hwithin hhomes (hflat ▸ hlabelled.nodup) (hflat ▸ hl)
    exact ⟨s, htakes, hlookup, splitSeq_spans hs⟩

/-- If what is split off has bytes, every label stays inside its item. -/
theorem Homed.splitCreate (hhomed : ctx.Homed) (h : ctx.Consistent) {id pos : Nat} {body : Body}
    (hsized : 0 < body.ownSize) (hsplit : ctx.splitCreate id pos body = .ok ctx')
    (hctx' : ctx'.Consistent) : ctx'.Homed := by
  intro l ptr hl b hb hpos
  obtain ⟨it, hit, hid, rfl⟩ := exists_mem_of_bodyOf hb
  obtain ⟨⟨r, children, src⟩, hraw, -⟩ := bind_eq_ok.mp hsplit
  obtain ⟨k, r', src', p, rfl, hbody, hk, -, -, hlen, hp⟩ := h.splitCreate_ok hsplit
  have hr : r' ∈ ctx.children.nodes := by
    rw [hk, mem_plug]
    exact .inr List.mem_cons_self
  obtain ⟨-, hrid, hrbody, k', hk', -⟩ := h.create.registers.raw_hole hraw
  have hk' : ctx.children = _ := hk'
  have hr' : r ∈ ctx.children.nodes := by
    rw [hk', mem_plug]
    exact .inr List.mem_cons_self
  obtain rfl := h.eq_of_id hr' hr hrid
  cases hrbody.symm.trans hbody
  by_cases hmem : l ∈ r.labels
  · obtain ⟨offset, hat⟩ := (h.labelled r hr).attached l hmem
    have hoffset : ctx.labels.offset l = offset := by rw [LabelsMap.offset, hat]
    have hin : offset < src.size := by
      obtain ⟨children', hsub⟩ := Forest.mem_nodes.mp hr
      have hsame := h.bodyOf_of_mem hsub
      rw [hbody] at hsame
      exact hhomed l _ hat _ hsame (show 0 < src.size by omega)
    obtain ⟨s, htakes, hlookup, hspan⟩ := h.create.split2_span hraw hsplit hmem
      (by rw [← hoffset] at hin; exact hin)
    obtain ⟨it', hit', -, offset', hlookup', hplace⟩ := hp.moved.moved l hmem
    cases hlookup'.symm.trans hl
    have hoff := hlookup'.symm.trans hlookup
    simp only [Option.some.injEq, ItemPointer.mk.injEq] at hoff
    obtain ⟨-, rfl⟩ := hoff
    have hin' : it' ∈ ctx'.children.nodes := by
      rw [hp.children, mem_plug]
      exact .inr hit'
    obtain rfl := hctx'.eq_of_id hin' hit hid.symm
    obtain ⟨children', hsub⟩ := Forest.mem_nodes.mp hit'
    change pos + body.ownSize ≤ src.size at hlen
    obtain ⟨-, hpart⟩ := hp.mem_parts hlen hsub
    have hsize : it'.getSize .nil = it'.body.ownSize := rfl
    have hnew : Item.getSize { id := ctx.nextId, position := 0, labels := [], body } .nil =
      body.ownSize := rfl
    change Takes s.start s.stop (ctx.labels.offset l) at htakes
    change it'.position + (ctx.labels.offset l - s.start) = r.position + ctx.labels.offset l at hplace
    change ctx.labels.offset l - s.start < it'.body.ownSize
    rw [Takes] at htakes
    rw [hnew] at hspan hpart
    rw [hsize] at hpart
    rcases hspan with ⟨_, rfl⟩ | rfl | ⟨_, rfl⟩
    · dsimp only at htakes hplace ⊢
      omega
    · dsimp only at htakes hplace ⊢
      omega
    · dsimp only at htakes hplace ⊢
      omega
  · rw [hp.moved.other l hmem] at hl
    obtain ⟨it', hit', hid', hl'⟩ := h.attached l ptr hl
    rw [hk, mem_plug] at hit'
    rcases hit' with hit' | hit'
    · have hin : it' ∈ ctx'.children.nodes := by
        rw [hp.children, mem_plug]
        exact .inl hit'
      obtain rfl := hctx'.eq_of_id hin hit (hid'.trans hid.symm)
      refine hhomed l ptr hl _ ?_ hpos
      have hold : it' ∈ ctx.children.nodes := by
        rw [hk, mem_plug]
        exact .inl hit'
      obtain ⟨children', hsub⟩ := Forest.mem_nodes.mp hold
      rw [← hid]
      exact h.bodyOf_of_mem hsub
    · rw [List.mem_singleton.mp hit'] at hl'
      exact absurd hl' hmem

/-- Every position leads to an item that has a byte there, and every label is at one. No
item has children. -/
structure Charted (ctx : Context) : Prop where
  consistent : ctx.Consistent
  flat : ctx.Flat
  pointed : ctx.Pointed
  covers : Covers ctx.pmap none ctx.children
  homed : ctx.Homed
  ending : ctx.getSize ∈ ctx.pmap

/-- What is behind the file is behind its end, too. -/
theorem Charted.exists_getPointer (h : ctx.Charted) (pos : Nat) :
    ∃ ptr, ctx.getPointer pos = .ok ptr ∧ ctx.Inside ptr := by
  by_cases hlt : pos < ctx.getSize
  · obtain ⟨ptr, hptr, it, children, hfind, -, hin⟩ :=
      h.pointed.answeredInside h.consistent h.covers pos hlt
    refine ⟨ptr, hptr, fun b hb _ => ?_⟩
    obtain ⟨hmem, hid⟩ := find?_some hfind
    have hnil : children = .nil :=
      h.consistent.childless it children hmem (h.flat it (Forest.mem_nodes.mpr ⟨_, hmem⟩))
    have hsame := h.consistent.bodyOf_of_mem hmem
    rw [hid, hb] at hsame
    cases hsame
    rwa [hnil] at hin
  · obtain ⟨ptr, hptr⟩ := h.pointed.getPointer h.consistent pos
    refine ⟨ptr, hptr, fun b hb hpos => ?_⟩
    rw [Context.getPointer] at hptr
    split at hptr
    · cases hptr
    · rename_i key hfloor
      obtain ⟨-, -, hmax⟩ := PointerMap.floor?_eq_some hfloor
      have hkey := hmax _ h.ending (Nat.le_of_not_lt hlt)
      split at hptr
      · cases hptr
      · rename_i id hid
        obtain ⟨it, hit, rfl, hsame⟩ := h.pointed.entries _ id hid
        obtain ⟨children, hmem⟩ := Forest.mem_nodes.mp hit
        simp only [get_of_find? (h.consistent.find?_of_mem hmem), ok_bind] at hptr
        obtain ⟨_, -, hptr⟩ := bind_eq_ok.mp hptr
        cases hptr
        have hbody := h.consistent.bodyOf_of_mem hmem
        dsimp only at hb
        rw [hb] at hbody
        cases hbody
        -- an item that starts at the end of the file has no bytes
        have hend := h.covers.le_getSize hmem
        change it.position + (it.body.ownSize + _) ≤ ctx.getSize at hend
        omega

/-- The item at a position, and the byte of it that is there. -/
theorem Charted.at_getPointer (h : ctx.Charted) {pos : Nat} {ptr : ItemPointer}
    (hptr : ctx.getPointer pos = .ok ptr) : ∃ it ∈ ctx.children.nodes, it.id = ptr.item ∧
      it.position + ptr.offset = pos ∧ ctx.find? ptr.item = some (it, .nil) ∧
      (0 < it.body.ownSize → ptr.offset < it.body.ownSize) := by
  obtain ⟨ptr', hptr', hin⟩ := h.exists_getPointer pos
  cases hptr.symm.trans hptr'
  obtain ⟨it, children, hfind, hpos⟩ := getPointer_ok hptr
  obtain ⟨hmem, hid⟩ := find?_some hfind
  have hit := Forest.mem_nodes.mpr ⟨_, hmem⟩
  obtain rfl : children = .nil := h.consistent.childless it children hmem (h.flat it hit)
  exact ⟨it, hit, hid, hpos, hfind, hin _ (hid ▸ h.consistent.bodyOf_of_mem hmem)⟩

theorem Relabels.charted (hrelabels : ctx.Relabels ctx') (h : ctx.Charted)
    (hhomed : ctx'.Homed) : ctx'.Charted where
  consistent := hrelabels.consistent h.consistent
  flat := hrelabels.flat h.flat
  pointed := hrelabels.pointed h.pointed
  covers := hrelabels.pmap ▸ h.covers.of_plain hrelabels.plain
  homed := hhomed
  ending := by
    rw [hrelabels.pmap, hrelabels.getSize]
    exact h.ending

theorem Homed.createLabelFallback (h : ctx.Homed) (name : LabelPtr) {ptr : ItemPointer}
    (hptr : ctx.Inside ptr) {x : Item × ItemList} (hget : ctx.get ptr.item = .ok x) :
    (ctx.createLabelFallback name ptr).1.Homed := by
  have hrelabels := relabels_createLabelFallback name hget
  intro l ptr' hl
  change (AList.insert (freshName ctx.labels name) (some ptr) ctx.labels).lookup l = _ at hl
  by_cases hname : l = freshName ctx.labels name
  · subst hname
    rw [AList.lookup_insert] at hl
    cases hl
    exact hrelabels.inside hptr
  · rw [AList.lookup_insert_ne hname] at hl
    exact hrelabels.inside (h l ptr' hl)

theorem Charted.createLabelFallback (h : ctx.Charted) (name : LabelPtr) {ptr : ItemPointer}
    (hptr : ctx.Inside ptr) {x : Item × ItemList} (hget : ctx.get ptr.item = .ok x) :
    (ctx.createLabelFallback name ptr).1.Charted :=
  (relabels_createLabelFallback name hget).charted h (h.homed.createLabelFallback name hptr hget)

/-- A label can be asked for anywhere. -/
theorem Charted.getLabelTo (h : ctx.Charted) (pos : Nat) :
    ∃ ctx' l, ctx.getLabelTo pos = .ok (ctx', l) ∧ ctx.Relabels ctx' ∧ ctx'.Charted ∧
      ctx'.toFilePos l = .ok pos := by
  obtain ⟨ctx', l, hl⟩ := h.pointed.getLabelTo h.consistent pos
  have hrelabels : ctx.Relabels ctx' := relabeling_getLabelTo ctx _ _ _ hl
  refine ⟨ctx', l, hl, hrelabels, ?_, h.consistent.getLabelTo_toFilePos hl⟩
  obtain ⟨ptr, hptr, hin⟩ := h.exists_getPointer pos
  rw [Context.getLabelTo, hptr, ok_bind] at hl
  rcases getLabelToPtr_ok hl with ⟨hsame, -⟩ | ⟨x, name, hget, heq⟩
  · obtain rfl : ctx' = ctx := hsame
    exact h
  · cases heq
    exact h.createLabelFallback name hin hget

theorem Charted.getLabelToNamed (h : ctx.Charted) (pos : Nat) (name : LabelPtr) : ∃ ctx' l, ctx.getLabelToNamed pos name = .ok (ctx', l) ∧
      ctx.Relabels ctx' ∧ ctx'.Charted ∧ ctx'.toFilePos l = .ok pos := by
  obtain ⟨ptr, hptr, hin⟩ := h.exists_getPointer pos
  obtain ⟨it, children, hfind, -⟩ := getPointer_ok hptr
  obtain ⟨ctx', l, hl⟩ : ∃ ctx' l, ctx.getLabelToNamed pos name = .ok (ctx', l) := by
    rw [Context.getLabelToNamed, hptr, ok_bind, get_of_find? hfind, ok_bind]
    dsimp only
    split
    · exact ⟨_, _, rfl⟩
    · exact ⟨_, _, rfl⟩
  refine ⟨ctx', l, hl, relabels_getLabelToNamed hl, ?_, h.consistent.getLabelToNamed_toFilePos hl⟩
  obtain ⟨ptr', hptr', ⟨hsame, -⟩ | ⟨x, hget, heq⟩⟩ := getLabelToNamed_ok hl
  · obtain rfl : ctx' = ctx := hsame
    exact h
  · cases heq
    cases hptr.symm.trans hptr'
    exact h.createLabelFallback name hin hget

theorem Charted.of_getLabelTo (h : ctx.Charted) {pos : Nat} {l : LabelPtr}
    (hl : ctx.getLabelTo pos = .ok (ctx', l)) :
    ctx.Relabels ctx' ∧ ctx'.Charted ∧ ctx'.toFilePos l = .ok pos := by
  obtain ⟨ctx₁, l₁, hl₁, hrest⟩ := h.getLabelTo pos
  cases hl.symm.trans hl₁
  exact hrest

theorem Charted.of_getLabelToNamed (h : ctx.Charted) {pos : Nat} {name l : LabelPtr}
    (hl : ctx.getLabelToNamed pos name = .ok (ctx', l)) :
    ctx.Relabels ctx' ∧ ctx'.Charted ∧ ctx'.toFilePos l = .ok pos := by
  obtain ⟨ctx₁, l₁, hl₁, hrest⟩ := h.getLabelToNamed pos name
  cases hl.symm.trans hl₁
  exact hrest

theorem Consistent.splitCreate_getSize (h : ctx.Consistent) {id pos : Nat} {body : Body}
    (hsplit : ctx.splitCreate id pos body = .ok ctx') : ctx'.getSize = ctx.getSize := by
  obtain ⟨k, r, src, p, -, hbody, hk, -, -, hle, hp⟩ := h.splitCreate_ok hsplit
  rw [Context.getSize, hp.children, Context.getSize, hk, ItemList.getSize, Hole.weight_plug,
    ItemList.getSize, Hole.weight_plug]
  refine congrArg _ ((hp.laid_parts hle).2.trans ?_)
  rw [Forest.weight_single, hbody]
  rfl

/-- The items after a split: the new one, what is left of the raw one, and the others. -/
structure SplitNodes (ctx ctx' : Context) (id pos : Nat) (body : Body) (r : Item) (src : Source) :
    Prop where
  mem : r ∈ ctx.children.nodes
  split : r.id = id
  raw : r.body = .raw src
  le : pos + body.ownSize ≤ src.size
  others : ∀ it ∈ ctx.children.nodes, it ≠ r → it ∈ ctx'.children.nodes
  new : ∃ n ∈ ctx'.children.nodes, n.id = ctx.nextId ∧ n.body = body ∧ n.position = r.position + pos
  /-- What is in front of the new item is the old one. -/
  front : pos ≠ 0 → ∃ it ∈ ctx'.children.nodes, it.id = id ∧ it.position = r.position ∧
    ∃ part, it.body = .raw part ∧ part.size = pos
  nodes : ∀ it ∈ ctx'.children.nodes, it ∈ ctx.children.nodes ∧ it ≠ r ∨
    it.body = body ∧ it.position = r.position + pos ∨ ∃ part, it.body = .raw part ∧ 0 < part.size ∧
      (it.position = r.position ∧ part.size = pos ∨
        it.position = r.position + (pos + body.ownSize) ∧
          part.size = src.size - body.ownSize - pos)

theorem SplitNodes.keeps {id pos : Nat} {body : Body} {r : Item} {src : Source}
    (h : SplitNodes ctx ctx' id pos body r src) {it : Item} (hit : it ∈ ctx.children.nodes)
    (hraw : it.body.isRaw = false) : it ∈ ctx'.children.nodes := by
  refine h.others it hit fun heq => ?_
  rw [heq, h.raw] at hraw
  cases hraw

theorem Consistent.splitCreate_nodes (h : ctx.Consistent) {id pos : Nat} {body : Body}
    (hsplit : ctx.splitCreate id pos body = .ok ctx') :
    ∃ r src, SplitNodes ctx ctx' id pos body r src := by
  obtain ⟨k, r, src, p, hid, hbody, hk, hapart, -, hle, hp⟩ := h.splitCreate_ok hsplit
  obtain ⟨hfront, hback⟩ := hp.sizes hle
  have hnew : (p.newItem r pos { id := ctx.nextId, position := 0, labels := [], body }) ∈
      ctx'.children.nodes := Forest.mem_nodes.mpr ⟨_, hp.mem_new⟩
  refine ⟨r, src, ?_, hid, hbody, hle, fun it hit hne => ?_, ⟨_, hnew, rfl, rfl, rfl⟩,
    fun hpos => ⟨{ r with labels := p.frontLabels, body := .raw p.front }, ?_, hid, rfl, p.front, rfl,
      hfront⟩, fun it hit => ?_⟩
  · rw [hk, mem_plug]
    exact .inr List.mem_cons_self
  · rw [hk, mem_plug] at hit
    rw [hp.children, mem_plug]
    exact .inl (hit.resolve_right fun hr => hne (List.mem_singleton.mp hr))
  · rw [hp.children, mem_plug, Parts.items, Forest.nodes_append, Parts.frontItems, if_neg hpos]
    exact .inr (List.mem_append_left _ List.mem_cons_self)
  · rw [hp.children, mem_plug] at hit
    rcases hit with hit | hit
    · exact .inl ⟨by rw [hk, mem_plug]; exact .inl hit, fun heq =>
        ne_of_apart hapart hit (congrArg Item.id heq)⟩
    rw [Parts.items, Forest.nodes_append, List.mem_append, Forest.nodes, List.mem_cons,
      Parts.frontItems, Parts.backItems] at hit
    rcases hit with hit | rfl | hit
    · split at hit
      · cases hit
      · rename_i hpos
        cases List.mem_singleton.mp hit
        exact .inr (.inr ⟨p.front, rfl, by omega, .inl ⟨rfl, hfront⟩⟩)
    · exact .inr (.inl ⟨rfl, rfl⟩)
    · split at hit
      · cases hit
      · rename_i hrest
        cases List.mem_singleton.mp hit
        exact .inr (.inr ⟨p.back, rfl, hback ▸ Nat.pos_of_ne_zero hrest, .inr ⟨rfl, hback⟩⟩)

/-- What is raw can be split where there is room, if no label is at its end. -/
theorem Consistent.exists_splitCreate (h : ctx.Consistent) {id pos : Nat} {body : Body}
    {src : Source} (hraw : ctx.bodyOf id = some (.raw src)) (hle : pos + body.ownSize ≤ src.size)
    (hlabels : ∀ l ptr, ctx.labels.lookup l = some (some ptr) → ptr.item = id →
      ptr.offset < src.size) : ∃ ctx', ctx.splitCreate id pos body = .ok ctx' := by
  obtain ⟨r, children, hget⟩ := getRaw_of_bodyOf hraw
  obtain ⟨rfl, rfl, hbody, k, hk, hapart⟩ := h.registers.raw_hole hget
  have hr : r ∈ ctx.children.nodes := by
    rw [hk, mem_plug]
    exact .inr List.mem_cons_self
  refine exists_split2 (show (ctx.create body).2.children = _ from hk) hapart hbody
    (h.labelled r hr) rfl hle fun l hl => ?_
  obtain ⟨offset, hat⟩ := (h.labelled r hr).attached l hl
  have hin := hlabels l _ hat rfl
  change ctx.labels.offset l < src.size
  rw [LabelsMap.offset, hat]
  exact hin

/-- What is raw can be split where there is room. -/
theorem Charted.splitCreate (h : ctx.Charted) {id pos : Nat} {body : Body} {src : Source}
    (hraw : ctx.bodyOf id = some (.raw src)) (hle : pos + body.ownSize ≤ src.size)
    (hsized : 0 < body.ownSize) (hkind : body.hasChildren = false) :
    ∃ ctx', ctx.splitCreate id pos body = .ok ctx' ∧ ctx'.Charted := by
  obtain ⟨ctx', hsplit⟩ := h.consistent.exists_splitCreate hraw hle fun l ptr hl hid =>
    h.homed l ptr hl (.raw src) (hid ▸ hraw) (show 0 < src.size by omega)
  have hctx' := h.consistent.splitCreate_of_flat h.flat hsplit
  have hfresh := h.consistent.fresh_create body
  refine ⟨ctx', hsplit, hctx', h.consistent.splitCreate_flat hkind hsplit h.flat, ?_, ?_,
    h.homed.splitCreate h.consistent hsized hsplit hctx', ?_⟩
  · exact h.pointed.create.split2 h.consistent.create hfresh hsplit
  · exact h.covers.create.split2 h.consistent.create h.pointed.create hfresh hsplit hctx'
      (.inl hsized)
  · obtain ⟨k', r', src', p, -, -, hk', -, -, -, hp⟩ := h.consistent.splitCreate_ok hsplit
    have hr' : r' ∈ ctx.children.nodes := by
      rw [hk', mem_plug]
      exact .inr List.mem_cons_self
    rw [h.consistent.splitCreate_getSize hsplit]
    exact hp.mem_pmap h.consistent.create h.pointed.create hr' (hfresh.new r' hr').symm h.ending

theorem Charted.of_splitCreate (h : ctx.Charted) {id pos : Nat} {body : Body}
    (hsplit : ctx.splitCreate id pos body = .ok ctx') (hsized : 0 < body.ownSize)
    (hkind : body.hasChildren = false) : ctx'.Charted := by
  obtain ⟨r, src, hnodes⟩ := h.consistent.splitCreate_nodes hsplit
  obtain ⟨children, hmem⟩ := Forest.mem_nodes.mp hnodes.mem
  have hraw := h.consistent.bodyOf_of_mem hmem
  rw [hnodes.split, hnodes.raw] at hraw
  obtain ⟨ctx'', hsplit', hctx'⟩ := h.splitCreate hraw hnodes.le hsized hkind
  cases hsplit.symm.trans hsplit'
  exact hctx'

theorem Consistent.splitCreate_toFilePos (h : ctx.Consistent) {id pos : Nat} {body : Body}
    (hsplit : ctx.splitCreate id pos body = .ok ctx') :
    ∀ l p, ctx.toFilePos l = .ok p → ctx'.toFilePos l = .ok p := by
  obtain ⟨k, r, src, parts, -, hbody, hk, -, -, -, hp⟩ := h.splitCreate_ok hsplit
  exact (hp.extends h.create hk hbody (h.freshList_create body)).toFilePos

theorem Consistent.exists_toFilePos (h : ctx.Consistent) {l : LabelPtr} {ptr : ItemPointer}
    (hptr : ctx.labels.lookup l = some (some ptr)) : ∃ pos, ctx.toFilePos l = .ok pos := by
  obtain ⟨it, hit, hid, -⟩ := h.attached l ptr hptr
  obtain ⟨children, hmem⟩ := Forest.mem_nodes.mp hit
  have hfind := h.find?_of_mem hmem
  rw [hid] at hfind
  exact ⟨_, by rw [Context.toFilePos, target_of_find? hptr hfind, ok_bind]; rfl⟩

theorem exists_lookup_of_toFilePos {l : LabelPtr} {pos : Nat} (hl : ctx.toFilePos l = .ok pos) :
    ∃ ptr, ctx.labels.lookup l = some (some ptr) := by
  obtain ⟨_, htarget, -⟩ := bind_eq_ok.mp hl
  obtain ⟨ptr, hptr, -⟩ := target_eq_ok htarget
  exact ⟨ptr, hptr⟩

/-- No label is new. -/
theorem Consistent.toFilePos_of_splitCreate (h : ctx.Consistent) {id pos : Nat} {body : Body}
    (hsplit : ctx.splitCreate id pos body = .ok ctx') {l : LabelPtr} {p : Nat}
    (hl : ctx'.toFilePos l = .ok p) : ctx.toFilePos l = .ok p := by
  obtain ⟨ptr', hptr'⟩ := exists_lookup_of_toFilePos hl
  obtain ⟨k, r, src, parts, -, -, hk, -, -, -, hp⟩ := h.splitCreate_ok hsplit
  have hr : r ∈ ctx.children.nodes := by
    rw [hk, mem_plug]
    exact .inr List.mem_cons_self
  obtain ⟨ptr, hptr⟩ : ∃ ptr, ctx.labels.lookup l = some (some ptr) := by
    by_cases hmem : l ∈ r.labels
    · obtain ⟨offset, hat⟩ := (h.labelled r hr).attached l hmem
      exact ⟨_, hat⟩
    · exact ⟨ptr', (hp.moved.other l hmem).symm.trans hptr'⟩
  obtain ⟨p', hold⟩ := h.exists_toFilePos hptr
  cases hl.symm.trans (h.splitCreate_toFilePos hsplit l p' hold)
  exact hold

/-- The place of a label is at a byte of an item, or at the start of an empty one. -/
theorem Charted.at_of_toFilePos (h : ctx.Charted) {l : LabelPtr} {pos : Nat}
    (hl : ctx.toFilePos l = .ok pos) : ∃ it ∈ ctx.children.nodes, ∃ offset,
      ctx.labels.lookup l = some (some { item := it.id, offset }) ∧ it.position + offset = pos ∧
        (0 < it.body.ownSize → offset < it.body.ownSize) := by
  obtain ⟨⟨it, children, offset⟩, htarget, hpos⟩ := bind_eq_ok.mp hl
  cases hpos
  obtain ⟨⟨id, offset'⟩, hptr, hfind, heq⟩ := target_eq_ok htarget
  obtain ⟨hmem, hid⟩ := find?_some hfind
  cases hid
  cases heq
  exact ⟨it, Forest.mem_nodes.mpr ⟨_, hmem⟩, _, hptr, rfl,
    h.homed l _ hptr _ (h.consistent.bodyOf_of_mem hmem)⟩

/-- What is read stays as it is, and so do the places of the labels. -/
structure Carries (ctx ctx' : Context) : Prop where
  toFilePos : ∀ l pos, ctx.toFilePos l = .ok pos → ctx'.toFilePos l = .ok pos
  items : ∀ it ∈ ctx.children.nodes, it.body.isRaw = false →
    ∃ it' ∈ ctx'.children.nodes, it'.plain = it.plain

theorem Carries.refl (ctx : Context) : ctx.Carries ctx :=
  ⟨fun _ _ hl => hl, fun it hit _ => ⟨it, hit, rfl⟩⟩

theorem Carries.trans {ctx₁ : Context} (h : ctx.Carries ctx₁) (h' : ctx₁.Carries ctx') :
    ctx.Carries ctx' where
  toFilePos l pos hl := h'.toFilePos l pos (h.toFilePos l pos hl)
  items it hit hraw := by
    obtain ⟨it₁, hit₁, heq⟩ := h.items it hit hraw
    obtain ⟨it', hit', heq'⟩ := h'.items it₁ hit₁ (body_of_plain heq ▸ hraw)
    exact ⟨it', hit', heq'.trans heq⟩

theorem Relabels.carries (hrelabels : ctx.Relabels ctx') : ctx.Carries ctx' where
  toFilePos := (hrelabels.extends False).toFilePos
  items _ hit _ := exists_of_plain hrelabels.plain hit

/-- Labels are made, and then an item is split off. -/
theorem Carries.create {ctx₁ : Context} (hrelabels : ctx.Relabels ctx₁) (h : ctx₁.Consistent)
    {id pos : Nat} {body : Body} (hsplit : ctx₁.splitCreate id pos body = .ok ctx') :
    ctx.Carries ctx' where
  toFilePos l p hl :=
    h.splitCreate_toFilePos hsplit l p ((hrelabels.extends False).toFilePos l p hl)
  items it hit hraw := by
    obtain ⟨it', hit', heq⟩ := exists_of_plain hrelabels.plain hit
    obtain ⟨r, src, hnodes⟩ := h.splitCreate_nodes hsplit
    exact ⟨it', hnodes.keeps hit' (body_of_plain heq ▸ hraw), heq⟩

theorem Relabels.position_of_id (hrelabels : ctx.Relabels ctx') (h : ctx.Consistent) {it r : Item}
    (hit : it ∈ ctx.children.nodes) (hr : r ∈ ctx'.children.nodes) (hid : r.id = it.id) :
    r.position = it.position := by
  obtain ⟨r', hr', heq⟩ := exists_of_plain hrelabels.plain.symm hr
  have hid' : r'.id = r.id := (congrArg Item.id heq :)
  rw [← position_of_plain heq, h.eq_of_id hr' hit (hid'.trans hid)]

theorem exists_root_split (src : Source) :
    ∃ ctx, (root src).splitCreate 0 src.size .eof = .ok ctx := by
  have hraw : (root src).bodyOf 0 = some (.raw src) := rfl
  refine (Consistent.root src).exists_splitCreate hraw (Nat.le_refl _) fun l ptr hl _ => ?_
  cases hl

/-- At first there is the end of the file, and what is in front of it. -/
theorem root_split_nodes {src : Source}
    (h : (root src).splitCreate 0 src.size .eof = .ok ctx) : ∀ it ∈ ctx.children.nodes,
      it.body = .eof ∧ it.position = src.size ∨
        it.position = 0 ∧ ∃ part, it.body = .raw part ∧ part.size = src.size := by
  have hall : ∀ r ∈ (root src).children.nodes, r.position = 0 ∧ r.body = .raw src := by
    intro r hr
    rw [List.mem_singleton.mp hr]
    exact ⟨rfl, rfl⟩
  obtain ⟨r, raw, hsplit⟩ := (Consistent.root src).splitCreate_nodes h
  obtain ⟨hpos, hbody⟩ := hall r hsplit.mem
  intro it hit
  rcases hsplit.nodes it hit with ⟨hold, -⟩ | ⟨heof, hat⟩ | ⟨part, hpart, hpositive, hat⟩
  · obtain ⟨hpos, hbody⟩ := hall it hold
    exact .inr ⟨hpos, src, hbody, rfl⟩
  · exact .inl ⟨heof, by omega⟩
  · cases hsplit.raw.symm.trans hbody
    have heof : Body.eof.ownSize = 0 := rfl
    refine .inr ⟨by omega, part, hpart, by omega⟩

/-- Once its end is split off, a file is like that. -/
theorem charted_root {src : Source} (hsize : src.size ≠ 0)
    (hsplit : (root src).splitCreate 0 src.size .eof = .ok ctx) : ctx.Charted := by
  have hroot := Consistent.root src
  have hfresh := hroot.fresh_create .eof
  have hctx := (hroot.splitCreate_keeps rfl hsplit).consistent
  have hflat : (root src).Flat := by
    intro it hit
    rw [List.mem_singleton.mp hit]
    rfl
  have hempty (l : LabelPtr) : (root src).labels.lookup l = none := rfl
  obtain ⟨k, r, src', p, hid, hbody, hk, -, -, hle, hp⟩ := hroot.splitCreate_ok hsplit
  have hr : r ∈ (root src).children.nodes := by
    rw [hk, mem_plug]
    exact .inr List.mem_cons_self
  obtain rfl := List.mem_singleton.mp hr
  cases hbody
  refine ⟨hctx, hroot.splitCreate_flat rfl hsplit hflat, ?_, ?_, fun l ptr hl => ?_, ?_⟩
  · exact (pointed_root src).create.split2 hroot.create hfresh hsplit
  · refine (Covers.root src).create.split2 hroot.create (pointed_root src).create hfresh hsplit hctx
      (.inr (.inr fun x hx => .inl ?_))
    obtain ⟨it, children⟩ := x
    cases List.mem_singleton.mp (find?_some (Option.mem_def.mp hx)).1
    change src.size + 0 + 0 ≤ 0 + src.size
    omega
  · rw [hp.moved.other l (List.not_mem_nil)] at hl
    cases (hempty l).symm.trans hl
  · have hstarts := hp.starts (pointed_root src).create fun hwhole => hsize hwhole.1
    rw [hroot.splitCreate_getSize hsplit]
    have hend : (root src).getSize = 0 + src.size := by
      change src.size + 0 + 0 = _
      omega
    rw [hend]
    exact hstarts.1

end Context

end Neptools

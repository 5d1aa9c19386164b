import Neptools.Format.Relabel

/-!
Splitting an item out of a raw item does not show in the bytes of the file:
every label stays at its place, what is around the raw item stays as it is, and
the parts write what the raw item did.
-/

namespace Neptools

open Lib

/-- The bytes of a list of items. -/
def ItemList.dumpBytes (v : LabelView) (f : ItemList) : Except Error Bytes := do
  let events ← f.dump v
  pure (Sink.bytesOf (callsOf events))

namespace ItemList

theorem dumpBytes_cons (v : LabelView) (it : Item) (children siblings : ItemList) :
    dumpBytes v (.cons it children siblings) = (do
      let calls ← it.body.dump v (it.getSize children)
      let inner ← dumpBytes v children
      let rest ← dumpBytes v siblings
      pure (Sink.bytesOf calls ++ (inner ++ rest))) := by
  simp only [dumpBytes, dump]
  cases it.body.dump v (it.getSize children) with
  | error e => rfl
  | ok calls =>
      cases dump v children with
      | error e => rfl
      | ok inner =>
          cases dump v siblings with
          | error e => rfl
          | ok rest =>
              have hcalls : callsOf (.item it.id :: calls.map .call ++ inner ++ rest) =
                  calls ++ (callsOf inner ++ callsOf rest) := by
                rw [callsOf_append, callsOf_append, List.append_assoc]
                exact congrArg (· ++ _) (callsOf_map_call calls)
              simp only [ok_bind, pure_eq_ok, hcalls, Sink.bytesOf_append]

theorem dumpBytes_append_ok {v : LabelView} {f g : ItemList} {bytes : Bytes} :
    dumpBytes v (f ++ g) = .ok bytes ↔
      ∃ a b, dumpBytes v f = .ok a ∧ dumpBytes v g = .ok b ∧ bytes = a ++ b := by
  induction f generalizing bytes with
  | nil =>
      refine ⟨fun h => ⟨[], bytes, rfl, h, rfl⟩, ?_⟩
      rintro ⟨a, b, ha, hb, rfl⟩
      cases ha
      exact hb
  | cons it children siblings _ ih =>
      rw [Forest.cons_append, dumpBytes_cons, dumpBytes_cons]
      simp only [bind_eq_ok, ih, pure_eq_ok, Except.ok.injEq]
      constructor
      · rintro ⟨calls, hcalls, inner, hinner, _, ⟨a, b, ha, hb, rfl⟩, rfl⟩
        exact ⟨_, b, ⟨calls, hcalls, inner, hinner, a, ha, rfl⟩, hb, by
          simp only [List.append_assoc]⟩
      · rintro ⟨_, b, ⟨calls, hcalls, inner, hinner, a, ha, rfl⟩, hb, rfl⟩
        exact ⟨calls, hcalls, inner, hinner, a ++ b, ⟨a, b, ha, hb, rfl⟩, by
          simp only [List.append_assoc]⟩

/-- What is written asks the view only. -/
theorem dumpBytes_keep {counts : Prop} {v v' : LabelView} (hv : v.Extends counts v')
    {f : ItemList} (hcounts : ∀ it ∈ f.nodes, it.body.isHeader = true → counts) {bytes : Bytes}
    (h : dumpBytes v f = .ok bytes) : dumpBytes v' f = .ok bytes := by
  induction f generalizing bytes with
  | nil => exact h
  | cons it children siblings ihc ihs =>
      rw [Forest.nodes, List.forall_mem_cons, List.forall_mem_append] at hcounts
      rw [dumpBytes_cons] at h ⊢
      obtain ⟨calls, hcalls, h⟩ := bind_eq_ok.mp h
      obtain ⟨inner, hinner, h⟩ := bind_eq_ok.mp h
      obtain ⟨rest, hrest, h⟩ := bind_eq_ok.mp h
      have hbody : v.Extends (it.body.isHeader = true) v' :=
        { hv with expansionCount := fun hheader => hv.expansionCount (hcounts.1 hheader) }
      rw [Body.dump_keep hbody hcalls, ok_bind, ihc hcounts.2.1 hinner, ok_bind,
        ihs hcounts.2.2 hrest]
      exact h

theorem dumpBytes_raw (v : LabelView) {it : Item} {src : Source} (h : it.body = .raw src) :
    dumpBytes v (.single it .nil) = .ok src.bytes := by
  rw [Forest.single, dumpBytes_cons, h]
  have hnil : dumpBytes v .nil = .ok [] := rfl
  simp only [Body.dump, pure_eq_ok, ok_bind, hnil, List.append_nil, Sink.bytesOf_cons,
    Sink.bytesOf_nil, Sink.Call.bytes_write]

end ItemList

namespace Context

theorem find?_of_mem {ctx : Context} (hids : (ctx.children.nodes.map Item.id).Nodup) {it : Item}
    {children : ItemList} (hmem : (it, children) ∈ ctx.children.subtrees) :
    ctx.find? it.id = some (it, children) := by
  cases hfind : ctx.find? it.id with
  | none =>
      have hnot := Forest.find?_eq_none.mp hfind it (Forest.mem_nodes.mpr ⟨_, hmem⟩)
      exact absurd rfl (of_decide_eq_false hnot)
  | some x =>
      obtain ⟨k, hk⟩ := Hole.exists_plug hmem
      have hdistinct := hids
      rw [hk, Hole.nodes_plug, Forest.single, Forest.nodes, List.append_assoc, List.map_append,
        List.cons_append, List.map_cons, List.nodup_append] at hdistinct
      have hbefore : ∀ a ∈ k.before, isItem it.id a = false := fun a ha =>
        decide_eq_false fun heq =>
          hdistinct.2.2 _ (List.mem_map_of_mem ha) _ List.mem_cons_self heq
      rw [← hfind, find?, hk, Hole.find?_plug hbefore (isItem_self it)]

/-- Items a parser has made, but not put anywhere yet. -/
structure FreshList (ctx : Context) (f : ItemList) : Prop where
  distinct : (f.nodes.map Item.id).Nodup
  fresh : ∀ it ∈ f.nodes, ctx.Fresh it

section

variable {ctx ctx' : Context} {k : Hole Item} {r n : Item} {src : Source} {pos : Nat}
  {nchildren : ItemList} {p : Parts} (hctx : ctx.Consistent)
  (hk : ctx.children = k.plug (.single r .nil)) (hbody : r.body = .raw src)
  (hnew : ctx.FreshList (.single n nchildren))
  (hsplit : ctx.SplitAt ctx' k r src pos n nchildren p)

include hctx hk hnew hsplit

theorem SplitAt.distinct : (ctx'.children.nodes.map Item.id).Nodup := by
  have hr : r ∈ ctx.children.nodes := by
    rw [hk, mem_plug]
    exact .inr List.mem_cons_self
  have hlt := hctx.numbered r hr
  have hids : ∀ it ∈ (Forest.single n nchildren).nodes, it.id ≠ r.id ∧ it.id < ctx.nextId :=
    fun it hit => ⟨((hnew.fresh it hit).new r hr).symm, (hnew.fresh it hit).numbered⟩
  have haround := (hctx.registers.around hk).distinct
  rw [List.append_nil, List.map_append, List.nodup_append] at haround
  rw [hsplit.children, ((Hole.nodes_plug_perm k _).map Item.id).nodup_iff, List.map_append,
    List.nodup_append]
  refine ⟨p.nodup_items hnew.distinct hids hlt, haround.2.1, fun a ha b hb => ?_⟩
  obtain ⟨it, hit, rfl⟩ := List.mem_map.mp ha
  obtain ⟨it', hit', rfl⟩ := List.mem_map.mp hb
  have hmem : it' ∈ ctx.children.nodes := by
    rw [hk, mem_plug]
    exact .inl (List.mem_append.mp hit')
  rcases Parts.mem_items hit with rfl | hit | ⟨hid | ⟨hid, -⟩, -⟩
  · exact ((hnew.fresh n List.mem_cons_self).new it' hmem).symm
  · refine ((hnew.fresh it ?_).new it' hmem).symm
    rw [nodes_single]
    exact List.mem_cons_of_mem _ hit
  · rw [hid]
    exact haround.2.2 _ (List.mem_map_of_mem List.mem_cons_self) _ hb
  · rw [hid]
    exact (Nat.ne_of_lt (hctx.numbered it' hmem)).symm

/-- A label that is not at `r` is where it was. -/
theorem SplitAt.target {l : LabelPtr} {it : Item} {children : ItemList} {offset : Nat}
    (htarget : ctx.target l = .ok (it, children, offset)) (hl : l ∉ r.labels) :
    ∃ children', ctx'.target l = .ok (it, children', offset) ∧
      (k.top = true → children' = children) := by
  obtain ⟨ptr, hptr, hfind, rfl⟩ := target_eq_ok htarget
  obtain ⟨hmem, hid⟩ := find?_some hfind
  have hne : ¬ (it, children) ∈ (Forest.single r Forest.nil).subtrees := fun hin => by
    cases List.mem_singleton.mp hin
    obtain ⟨it', hit', hid', hlabel⟩ := hctx.attached l ptr hptr
    rw [hctx.eq_of_id hit' (Forest.mem_nodes.mpr ⟨_, hmem⟩) (hid'.trans hid.symm)] at hlabel
    exact hl hlabel
  rw [hk, Hole.mem_subtrees_plug] at hmem
  have hafter : ∃ children', (it, children') ∈ ctx'.children.subtrees ∧
      (k.top = true → children' = children) := by
    rcases hmem.resolve_left hne with haside | ⟨⟨a, k'⟩, hspine, heq⟩
    · refine ⟨children, ?_, fun _ => rfl⟩
      rw [hsplit.children, Hole.mem_subtrees_plug]
      exact .inr (.inl haside)
    · cases heq
      refine ⟨k'.plug (p.items ctx.nextId r src.size pos n nchildren), ?_, fun htop => ?_⟩
      · rw [hsplit.children, Hole.mem_subtrees_plug]
        exact .inr (.inr ⟨(it, k'), hspine, rfl⟩)
      · rw [Hole.spine_eq_nil htop] at hspine
        cases hspine
  obtain ⟨children', hmem', hsame⟩ := hafter
  have hfind' := find?_of_mem (hsplit.distinct hctx hk hnew) hmem'
  rw [hid] at hfind'
  refine ⟨children', ?_, hsame⟩
  exact target_of_find? ((hsplit.moved.other l hl).trans hptr) hfind'

include hbody

/-- Every label answers what it answered. -/
theorem SplitAt.extends : ctx.view.Extends (k.top = true) ctx'.view := by
  have hr : r ∈ ctx.children.nodes := by
    rw [hk, mem_plug]
    exact .inr List.mem_cons_self
  -- A label at `r` leads to `r`, which counts nothing.
  have hlabel : ∀ l it children offset, l ∈ r.labels →
      ctx.target l = .ok (it, children, offset) → it = r := by
    intro l it children offset hl htarget
    obtain ⟨ptr, hptr, hfind, -⟩ := target_eq_ok htarget
    obtain ⟨offset', hlookup⟩ := (hctx.labelled r hr).attached l hl
    cases hptr.symm.trans hlookup
    obtain ⟨hmem, hid⟩ := find?_some hfind
    exact hctx.eq_of_id (Forest.mem_nodes.mpr ⟨_, hmem⟩) hr hid
  refine extends_of_targets (fun l pos' h => ?_) fun l it children htarget hkind => ?_
  · obtain ⟨⟨it, children, offset⟩, htarget, h⟩ := bind_eq_ok.mp h
    cases h
    by_cases hl : l ∈ r.labels
    · cases hlabel l it children offset hl htarget
      obtain ⟨ptr, hptr, -, hoffset⟩ := target_eq_ok htarget
      obtain ⟨it', hit', -, o, hlookup', hpos⟩ := hsplit.moved.moved l hl
      have hin : it' ∈ ctx'.children.nodes := by
        rw [hsplit.children, mem_plug]
        exact .inr hit'
      obtain ⟨children', hmem'⟩ := Forest.mem_nodes.mp hin
      have hfind' := find?_of_mem (hsplit.distinct hctx hk hnew) hmem'
      have hoff : ctx.labels.offset l = offset := by
        rw [LabelsMap.offset, hptr]
        exact hoffset
      rw [toFilePos, target_of_find? hlookup' hfind', ok_bind]
      exact congrArg Except.ok (hoff ▸ hpos)
    · obtain ⟨children', htarget', -⟩ := hsplit.target hctx hk hnew htarget hl
      rw [toFilePos, htarget']
      rfl
  · have hl : l ∉ r.labels := fun hl => by
      rw [hlabel l it children 0 hl htarget, hbody] at hkind
      cases hkind
    obtain ⟨children', htarget', hsame⟩ := hsplit.target hctx hk hnew htarget hl
    exact ⟨it, children', htarget', rfl, fun htop => congrArg Forest.length (hsame htop)⟩

end

/-- `n` was split out of `r`: what the list of items, the positions and the bytes
are after that. -/
structure SplitsInto (ctx ctx' : Context) (k : Hole Item) (r : Item) (src : Source) (pos : Nat)
    (n : Item) (nchildren : ItemList) (p : Parts) : Prop where
  old : ctx.children = k.plug (.single r .nil)
  new : ctx'.children = k.plug (p.items ctx.nextId r src.size pos n nchildren)
  front : p.front.bytes = src.bytes.take pos
  back : p.back.bytes = src.bytes.drop (pos + n.getSize nchildren)
  /-- The list `r` was in. -/
  dump : ItemList.dumpBytes ctx'.view (.single n nchildren) =
      .ok (Lib.slice src.bytes pos (n.getSize nchildren)) →
    ∀ bytes, ItemList.dumpBytes ctx.view (k.siblings (.single r .nil) .nil) = .ok bytes →
      ItemList.dumpBytes ctx'.view
        (k.siblings (p.items ctx.nextId r src.size pos n nchildren) .nil) = .ok bytes
  /-- Only a header, which counts what there is, may write something else when it
  is in the list. -/
  early : (∀ it ∈ (Forest.single n nchildren).nodes, it.body.isHeader = true → k.top = true) →
    ∀ bytes, ItemList.dumpBytes ctx.view (.single n nchildren) = .ok bytes →
      ItemList.dumpBytes ctx'.view (.single n nchildren) = .ok bytes

theorem SplitAt.splitsInto {ctx ctx' : Context} {k : Hole Item} {r n : Item} {src : Source}
    {pos : Nat} {nchildren : ItemList} {p : Parts} (hctx : ctx.Consistent)
    (hk : ctx.children = k.plug (.single r .nil)) (hbody : r.body = .raw src)
    (hnew : ctx.FreshList (.single n nchildren)) (hlen : pos + n.getSize nchildren ≤ src.size)
    (hsplit : ctx.SplitAt ctx' k r src pos n nchildren p) :
    ctx.SplitsInto ctx' k r src pos n nchildren p := by
  have hfront : p.front.bytes = src.bytes.take pos := by
    rw [hsplit.frontBytes, Lib.slice, List.drop_zero]
  have hback : p.back.bytes = src.bytes.drop (pos + n.getSize nchildren) := by
    rw [hsplit.backBytes, Lib.slice, List.take_of_length_le]
    rw [List.length_drop, Source.length_bytes]
    omega
  have hview := hsplit.extends hctx hk hbody hnew
  refine ⟨hk, hsplit.children, hfront, hback, ?_, fun hcounts bytes h =>
    ItemList.dumpBytes_keep hview hcounts h⟩
  intro hn bytes h
  -- What is around the parts in the list writes what it wrote.
  obtain ⟨pre, post, hsiblings, -, hinner⟩ := k.exists_siblings .nil
  have hcounts : ∀ it, it ∈ pre.nodes ∨ it ∈ post.nodes → it.body.isHeader = true →
      k.top = true := by
    intro it hit hheader
    cases htop : k.top with
    | true => rfl
    | false =>
        have hin : it ∈ ctx.children.inner := by
          rw [hk, Hole.mem_inner_plug]
          exact .inl (hinner htop it hit)
        exact Bool.noConfusion (hheader.symm.trans (hctx.headers it hin))
  rw [hsiblings, ItemList.dumpBytes_append_ok] at h
  obtain ⟨a, b, ha, h, rfl⟩ := h
  rw [ItemList.dumpBytes_append_ok] at h
  obtain ⟨raw, c, hraw, hc, rfl⟩ := h
  rw [ItemList.dumpBytes_raw _ hbody] at hraw
  cases hraw
  have hpre := ItemList.dumpBytes_keep hview (fun it hit => hcounts it (.inl hit)) ha
  have hpost := ItemList.dumpBytes_keep hview (fun it hit => hcounts it (.inr hit)) hc
  rw [hsiblings, ItemList.dumpBytes_append_ok]
  refine ⟨a, src.bytes ++ c, hpre, ?_, rfl⟩
  rw [ItemList.dumpBytes_append_ok]
  refine ⟨src.bytes, c, ?_, hpost, rfl⟩
  -- The parts write what the raw item did.
  have hsingle : ItemList.dumpBytes ctx'.view (.single (p.newItem r pos n) nchildren) =
      ItemList.dumpBytes ctx'.view (.single n nchildren) := by
    rw [Forest.single, Forest.single, ItemList.dumpBytes_cons, ItemList.dumpBytes_cons]
    rfl
  have hnil : ItemList.dumpBytes ctx'.view .nil = .ok [] := rfl
  have hfirst : ItemList.dumpBytes ctx'.view (p.frontItems r pos) = .ok p.front.bytes := by
    rw [Parts.frontItems]
    split
    · rename_i hpos
      rw [hnil, hfront, hpos, List.take_zero]
    · exact ItemList.dumpBytes_raw _ rfl
  have hlast : ItemList.dumpBytes ctx'.view
      (p.backItems ctx.nextId r src.size pos (n.getSize nchildren)) = .ok p.back.bytes := by
    rw [Parts.backItems]
    split
    · rename_i hrest
      rw [hnil, hback, List.drop_eq_nil_of_le]
      rw [Source.length_bytes]
      omega
    · exact ItemList.dumpBytes_raw _ rfl
  have hbytes := hsplit.bytes hlen
  rw [List.append_assoc] at hbytes
  rw [Parts.items, ItemList.dumpBytes_append_ok]
  refine ⟨_, _, hfirst, ?_, hbytes.symm⟩
  rw [← Forest.single_append, ItemList.dumpBytes_append_ok]
  exact ⟨_, _, hsingle.trans hn, hlast, rfl⟩

/-- `Split2` in any context under parse: it puts the parts in the place of the raw
item, and only a label at its end, or behind it, can be in the way. -/
theorem split2_splitsInto {ctx : Context} (hparse : ctx.UnderParse) {id pos : Nat} {r : Item}
    {children : ItemList} {src : Source} (hraw : ctx.getRaw id = .ok (r, children, src)) {n : Item}
    {nchildren : ItemList} (hnew : ctx.FreshList (.single n nchildren)) (hnone : n.labels = [])
    (hlen : pos + n.getSize nchildren ≤ src.size) :
    ((∀ l ∈ r.labels, ctx.labels.offset l < src.size) →
      ∃ ctx', ctx.split2 id pos n nchildren = .ok ctx') ∧
    ∀ ctx', ctx.split2 id pos n nchildren = .ok ctx' →
      ∃ k p, ctx.SplitsInto ctx' k r src pos n nchildren p := by
  have hctx := hparse.consistent
  obtain ⟨-, rfl, hbody, k, hk, hapart⟩ := hctx.registers.raw_hole hraw
  have hr : r ∈ ctx.children.nodes := by
    rw [hk, mem_plug]
    exact .inr List.mem_cons_self
  refine ⟨exists_split2 hk hapart hbody (hctx.labelled r hr) hnone hlen, fun ctx' hsplit => ?_⟩
  obtain ⟨p, hp⟩ := split2_ok hk hapart hbody (hctx.labelled r hr)
    (fun it hit => decide_eq_false ((hnew.fresh it hit).new r hr).symm) (hctx.numbered r hr) hsplit
  exact ⟨k, p, hp.splitsInto hctx hk hbody hnew hlen⟩

end Context

/-- A text and two other bytes. -/
def textSource : Source := .fromMemory [0x41, 0, 0x42, 0x43]

/-- The end of the file is split off, and an item for the text is made. -/
def textOps : List ParseOp := [.split 0 4 .eof, .create (.cString [0x41])]

def textFile : Context :=
  ((run Context.parseStep (.root textSource) textOps).toOption).getD .empty

def textItem : Item := { id := 2, position := 0, labels := [], body := .cString [0x41] }

theorem textFile_split2 : ∃ r src ctx', textFile.getRaw 0 = .ok (r, .nil, src) ∧
    textFile.split2 0 0 textItem .nil = .ok ctx' ∧
      ∃ k p, textFile.SplitsInto ctx' k r src 0 textItem .nil p := by
  have hparse : textFile.UnderParse :=
    ⟨textSource, textOps,
      ⟨(fun hheader => nomatch hheader), fun _ _ => ⟨trivial, fun _ _ => trivial⟩⟩, rfl⟩
  have hfresh : textFile.FreshList (.single textItem .nil) :=
    { distinct := List.nodup_singleton _
      fresh := fun it hit => by
        rw [List.mem_singleton.mp hit]
        exact { numbered := by decide, new := by decide } }
  obtain ⟨r, src, hraw, hsize⟩ : ∃ r src, textFile.getRaw 0 = .ok (r, .nil, src) ∧
      0 + textItem.getSize .nil ≤ src.size ∧ r.labels = [] := ⟨_, _, rfl, by decide, rfl⟩
  obtain ⟨hok, hinto⟩ := Context.split2_splitsInto hparse hraw hfresh rfl hsize.1
  obtain ⟨ctx', hsplit⟩ := hok (by rw [hsize.2]; exact fun _ h => nomatch h)
  exact ⟨r, src, ctx', hraw, hsplit, hinto ctx' hsplit⟩

end Neptools

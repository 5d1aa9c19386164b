import Neptools.Format.Followed
import Neptools.Format.Pointers
import Neptools.Stcm.Tables

/-!
`GetPointer` leads to the item that has the byte it is asked for. Items are one after
the other, and where one ends the map has another; so the last entry in front of a
byte is for an item that has it, if that item has any bytes. An item of size zero in
front of unparsed bytes takes their place in the map.
-/

namespace Neptools

open Lib

namespace PointerMap

variable {pmap : PointerMap}

/-- The last entry that is not behind a position. -/
theorem floor?_eq_some {pos key : Nat} (h : pmap.floor? pos = some key) :
    key ∈ pmap ∧ key ≤ pos ∧ ∀ k ∈ pmap, k ≤ pos → k ≤ key := by
  obtain ⟨hmem, hmax⟩ := List.max?_eq_some_iff.mp h
  rw [List.mem_filter] at hmem
  refine ⟨AList.mem_keys.mpr hmem.1, of_decide_eq_true hmem.2, fun k hk hle => ?_⟩
  exact hmax k (List.mem_filter.mpr ⟨AList.mem_keys.mp hk, decide_eq_true hle⟩)

theorem mem_of_lookup {pos id : Nat} (h : pmap.lookup pos = some id) : pos ∈ pmap :=
  AList.lookup_isSome.mp (by rw [h]; rfl)

theorem exists_lookup {pos : Nat} (h : pos ∈ pmap) : ∃ id, pmap.lookup pos = some id :=
  Option.isSome_iff_exists.mp (AList.lookup_isSome.mpr h)

/-- Every piece of a sliced item starts at an entry. -/
theorem mem_emplaceAll {basePos offset : Nat} {pre post : List Context.Piece}
    {el : Context.Piece} :
    basePos + Context.seqEnd offset pre ∈
      Context.emplaceAll basePos offset (pre ++ el :: post) pmap := by
  induction pre generalizing offset pmap with
  | nil =>
      have hmem : basePos + offset ∈ emplace pmap (basePos + offset) el.item.id := by
        by_cases hold : basePos + offset ∈ pmap
        · rwa [emplace, if_pos hold]
        · exact mem_of_lookup (lookup_emplace.mpr (.inr ⟨rfl, rfl, hold⟩))
      obtain ⟨id, hid⟩ := exists_lookup hmem
      change basePos + offset ∈ Context.emplaceAll basePos el.pieceEnd post _
      exact mem_of_lookup (lookup_emplaceAll_of_some hid)
  | cons a pre ih => exact ih

end PointerMap

namespace ItemList

theorem laid_map_plain {f : ItemList} {p : Nat} : Laid p (f.map Item.plain) ↔ f.Laid p := by
  induction f generalizing p with
  | nil => exact Iff.rfl
  | cons it children siblings ihc ihs =>
      have hsize : (children.map Item.plain).weight (fun it : Item => it.body.ownSize) =
          children.weight fun it => it.body.ownSize := Context.getSize_map_plain children
      simp only [Laid, Forest.map, Forest.Laid, hsize] at ihc ihs ⊢
      exact and_congr Iff.rfl (and_congr ihc ihs)

end ItemList

/-- The map covers the items: where one ends there is an entry, and an entry is for an
item that has a size. Neither is asked for at the end of the file, and the item `grows`
may still be empty. -/
structure Covers (pmap : PointerMap) (grows : Option Nat) (f : ItemList) : Prop where
  laid : f.Laid 0
  ends : ∀ it children, (it, children) ∈ f.subtrees →
    it.position + it.getSize children < f.getSize → it.position + it.getSize children ∈ pmap
  sized : ∀ it children, (it, children) ∈ f.subtrees → it.position < f.getSize →
    pmap.lookup it.position = some it.id → grows ≠ some it.id → 0 < it.getSize children

namespace Covers

variable {pmap : PointerMap} {grows : Option Nat} {f f' : ItemList}

/-- Labels do not matter. -/
theorem of_plain (h : Covers pmap grows f) (hplain : f'.map Item.plain = f.map Item.plain) :
    Covers pmap grows f' := by
  have hsize : f'.getSize = f.getSize := by
    rw [← Context.getSize_map_plain f', hplain, Context.getSize_map_plain]
  have hsubtrees {it : Item} {children : ItemList} (hmem : (it, children) ∈ f'.subtrees) :
      ∃ it₀ children₀, (it₀, children₀) ∈ f.subtrees ∧ it₀.id = it.id ∧
        it₀.position = it.position ∧ it₀.getSize children₀ = it.getSize children := by
    have hin : (it.plain, children.map Item.plain) ∈ (f.map Item.plain).subtrees := by
      rw [← hplain, Forest.subtrees_map]
      exact List.mem_map_of_mem hmem
    rw [Forest.subtrees_map] at hin
    obtain ⟨⟨it₀, children₀⟩, hmem₀, heq⟩ := List.mem_map.mp hin
    obtain ⟨hit, hchildren⟩ := Prod.mk.inj heq
    refine ⟨it₀, children₀, hmem₀, (congrArg Item.id hit :), (congrArg Item.position hit :), ?_⟩
    rw [Item.getSize, Item.getSize, ← Context.getSize_map_plain children₀, hchildren,
      Context.getSize_map_plain]
    exact congrArg (·.ownSize + _) (congrArg Item.body hit :)
  refine ⟨?_, fun it children hmem hlt => ?_, fun it children hmem hlt hkey hgrows => ?_⟩
  · rw [← ItemList.laid_map_plain, hplain, ItemList.laid_map_plain]
    exact h.laid
  · obtain ⟨it₀, children₀, hmem₀, -, hpos, hsame⟩ := hsubtrees hmem
    rw [← hpos, ← hsame] at hlt ⊢
    exact h.ends it₀ children₀ hmem₀ (hsize ▸ hlt)
  · obtain ⟨it₀, children₀, hmem₀, hid, hpos, hsame⟩ := hsubtrees hmem
    rw [← hpos, ← hid] at hkey
    rw [← hsame]
    exact h.sized it₀ children₀ hmem₀ (by rw [hpos, ← hsize]; exact hlt) hkey (hid ▸ hgrows)

theorem le_getSize (h : Covers pmap grows f) {it : Item} {children : ItemList}
    (hmem : (it, children) ∈ f.subtrees) : it.position + it.getSize children ≤ f.getSize := by
  have hle := (h.laid.bounds hmem).2
  rwa [Nat.zero_add, Nat.add_assoc] at hle

end Covers

namespace Context

/-- `ptr` is a place in an item, and the byte at `pos` is there. -/
def HasByte (ctx : Context) (pos : Nat) (ptr : ItemPointer) : Prop :=
  ∃ it children, ctx.find? ptr.item = some (it, children) ∧ it.position + ptr.offset = pos ∧
    ptr.offset < it.getSize children

/-- Every position in the file is answered with the item that has the byte. -/
def AnsweredInside (ctx : Context) : Prop :=
  ∀ pos < ctx.getSize, ∃ ptr, ctx.getPointer pos = .ok ptr ∧ ctx.HasByte pos ptr

variable {ctx ctx' : Context}

theorem Pointed.answeredInside (h : ctx.Pointed) (hctx : ctx.Consistent)
    (hcovers : Covers ctx.pmap none ctx.children) : ctx.AnsweredInside := by
  intro pos hlt
  obtain ⟨ptr, hptr⟩ := h.getPointer hctx pos
  refine ⟨ptr, hptr, ?_⟩
  rw [Context.getPointer] at hptr
  split at hptr
  · cases hptr
  · rename_i key hfloor
    obtain ⟨-, hle, hmax⟩ := PointerMap.floor?_eq_some hfloor
    split at hptr
    · cases hptr
    · rename_i id hid
      obtain ⟨it, hit, rfl, rfl⟩ := h.entries key id hid
      obtain ⟨children, hmem⟩ := Forest.mem_nodes.mp hit
      have hfind := hctx.find?_of_mem hmem
      simp only [get_of_find? hfind, ok_bind, require_of, pure_eq_ok] at hptr
      cases hptr
      refine ⟨it, children, hfind, by dsimp only; omega, ?_⟩
      have hsized := hcovers.sized it children hmem (Nat.lt_of_le_of_lt hle hlt) hid
        (Option.some_ne_none _).symm
      -- otherwise there is an entry where the item ends
      by_contra hnot
      have hend : it.position + it.getSize children ≤ pos := by
        dsimp only at hnot
        omega
      have := hmax _ (hcovers.ends it children hmem (Nat.lt_of_le_of_lt hend hlt)) hend
      omega

/-! A split. -/

section

variable {k : Hole Item} {r n : Item} {src : Source} {pos : Nat} {p : Parts}

/-- The bytes of the parts are those of the item that was split. -/
theorem SplitAt.sizes (h : ctx.SplitAt ctx' k r src pos n .nil p)
    (hlen : pos + n.getSize .nil ≤ src.size) :
    p.front.size = pos ∧ p.back.size = src.size - n.getSize .nil - pos := by
  constructor
  · rw [← Source.length_bytes, h.frontBytes, length_slice_of_le]
    rw [Source.length_bytes]
    omega
  · rw [← Source.length_bytes, h.backBytes, length_slice_of_le]
    rw [Source.length_bytes]
    omega

/-- The parts, with the size of each. -/
theorem SplitAt.mem_parts (h : ctx.SplitAt ctx' k r src pos n .nil p)
    (hlen : pos + n.getSize .nil ≤ src.size) {it : Item} {children : ItemList}
    (hmem : (it, children) ∈ (p.items ctx.nextId r src.size pos n .nil).subtrees) :
    children = .nil ∧
      (pos ≠ 0 ∧ it.id = r.id ∧ it.position = r.position ∧ it.getSize .nil = pos ∨
        it.id = n.id ∧ it.position = r.position + pos ∧ it.getSize .nil = n.getSize .nil ∨
        src.size - n.getSize .nil - pos ≠ 0 ∧ it.position = r.position + (pos + n.getSize .nil) ∧
          it.getSize .nil = src.size - n.getSize .nil - pos) := by
  obtain ⟨hfront, hback⟩ := h.sizes hlen
  rw [Parts.items, Forest.subtrees_append, List.mem_append, Forest.subtrees, List.mem_cons,
    List.mem_append, Parts.frontItems, Parts.backItems] at hmem
  rcases hmem with hmem | heq | hmem | hmem
  · split at hmem
    · cases hmem
    · rename_i hpos
      cases List.mem_singleton.mp hmem
      exact ⟨rfl, .inl ⟨hpos, rfl, rfl, hfront⟩⟩
  · cases heq
    exact ⟨rfl, .inr (.inl ⟨rfl, rfl, rfl⟩)⟩
  · cases hmem
  · split at hmem
    · cases hmem
    · rename_i hrest
      cases List.mem_singleton.mp hmem
      exact ⟨rfl, .inr (.inr ⟨hrest, rfl, hback⟩)⟩

/-- The parts are one after the other in the place of the item. -/
theorem SplitAt.laid_parts (h : ctx.SplitAt ctx' k r src pos n .nil p)
    (hlen : pos + n.getSize .nil ≤ src.size) :
    (p.items ctx.nextId r src.size pos n .nil).Laid r.position ∧
      (p.items ctx.nextId r src.size pos n .nil).getSize = src.size := by
  obtain ⟨hfront, hback⟩ := h.sizes hlen
  have hfirst : (p.frontItems r pos).Laid r.position ∧ (p.frontItems r pos).getSize = pos := by
    rw [Parts.frontItems]
    split
    · rename_i hpos
      exact ⟨trivial, hpos.symm⟩
    · exact ⟨⟨rfl, trivial, trivial⟩, hfront⟩
  have hlast : (p.backItems ctx.nextId r src.size pos (n.getSize .nil)).Laid
        (r.position + pos + n.getSize .nil) ∧
      (p.backItems ctx.nextId r src.size pos (n.getSize .nil)).getSize =
        src.size - n.getSize .nil - pos := by
    rw [Parts.backItems]
    split
    · rename_i hrest
      exact ⟨trivial, hrest.symm⟩
    · exact ⟨⟨(Nat.add_assoc _ _ _).symm, trivial, trivial⟩, hback⟩
  rw [Parts.items]
  constructor
  · refine Forest.laid_append.mpr ⟨hfirst.1, ?_⟩
    change Forest.Laid _ _ (r.position + (p.frontItems r pos).getSize) _
    rw [hfirst.2]
    exact ⟨rfl, trivial, hlast.1⟩
  · rw [ItemList.getSize, Forest.weight_append, Forest.weight_cons]
    change (p.frontItems r pos).getSize + (n.getSize .nil +
      (p.backItems ctx.nextId r src.size pos (n.getSize .nil)).getSize) = src.size
    rw [hfirst.2, hlast.2]
    omega

/-- No entry goes away. -/
theorem SplitAt.mem_pmap (h : ctx.SplitAt ctx' k r src pos n .nil p) (hctx : ctx.Consistent)
    (hpointed : ctx.Pointed) (hr : r ∈ ctx.children.nodes) (hn : n.id ≠ r.id) {key : Nat}
    (hkey : key ∈ ctx.pmap) : key ∈ ctx'.pmap := by
  obtain ⟨id, hid⟩ := PointerMap.exists_lookup hkey
  by_cases heq : id = r.id
  · subst heq
    obtain ⟨it, hit, hsame, rfl⟩ := hpointed.entries key _ hid
    cases hctx.eq_of_id hit hr hsame
    obtain ⟨it', -, -, hfirst⟩ := h.lookup_first hpointed.keys hid hn
    exact PointerMap.mem_of_lookup hfirst
  · exact PointerMap.mem_of_lookup (h.lookup_of_ne hpointed.keys hid heq)

/-- There are entries for the new item and for what is left behind it. -/
theorem SplitAt.starts (h : ctx.SplitAt ctx' k r src pos n .nil p) (hpointed : ctx.Pointed)
    (hnot : ¬ (pos = 0 ∧ src.size - n.getSize .nil - pos = 0)) :
    r.position + pos ∈ ctx'.pmap ∧
      (src.size - n.getSize .nil - pos ≠ 0 → r.position + (pos + n.getSize .nil) ∈ ctx'.pmap) := by
  have hmem {pre post : List Piece} {el : Piece}
      (hseq : splitSeq ctx.nextId r src p.back pos n .nil = pre ++ el :: post) :
      r.position + seqEnd 0 pre ∈ ctx'.pmap := by
    rw [h.sliced hnot hpointed.keys, hseq]
    exact PointerMap.mem_emplaceAll
  rw [splitSeq] at hmem
  by_cases hpos : pos = 0
  · subst hpos
    simp only [if_true, List.nil_append] at hmem
    refine ⟨hmem (List.nil_append _).symm, fun hrest => ?_⟩
    rw [if_neg hrest] at hmem
    exact hmem List.singleton_append.symm
  · rw [if_neg hpos] at hmem
    refine ⟨hmem rfl, fun hrest => ?_⟩
    rw [if_neg hrest, if_neg hpos] at hmem
    exact hmem (List.append_cons _ _ _)

/-- The entry for the place of the new item is for it, if it was not for another item
than the one that was split. -/
theorem SplitAt.lookup_new (h : ctx.SplitAt ctx' k r src pos n .nil p) (hpointed : ctx.Pointed)
    (hnot : ¬ (pos = 0 ∧ src.size - n.getSize .nil - pos = 0)) :
    ctx'.pmap.lookup (r.position + pos) = some n.id ∨
      ∃ i, ctx.pmap.lookup (r.position + pos) = some i ∧ ¬ (pos = 0 ∧ i = r.id) := by
  have hold {i : Nat}
      (hi : (ctx.pmap.removedAll (.single r .nil)).lookup (r.position + pos) = some i) :
      ctx.pmap.lookup (r.position + pos) = some i ∧ ¬ (pos = 0 ∧ i = r.id) := by
    obtain ⟨hi, hr⟩ := PointerMap.lookup_removedAll.mp hi
    refine ⟨hi, fun ⟨hpos, hid⟩ => hr r List.mem_cons_self ⟨?_, hid.symm⟩⟩
    rw [hpos, Nat.add_zero]
  rw [h.sliced hnot hpointed.keys, splitSeq]
  by_cases hpos : pos = 0
  · rw [if_pos hpos, List.nil_append, emplaceAll, Nat.add_zero]
    by_cases hmem : r.position ∈ ctx.pmap.removedAll (.single r .nil)
    · obtain ⟨i, hi⟩ := PointerMap.exists_lookup hmem
      rw [hpos] at hold ⊢
      exact .inr ⟨i, hold hi⟩
    · refine .inl (PointerMap.lookup_emplaceAll_of_some (PointerMap.lookup_emplace.mpr ?_))
      exact .inr ⟨by rw [hpos]; rfl, rfl, hmem⟩
  · simp only [if_neg hpos, List.singleton_append, emplaceAll, Nat.add_zero]
    generalize hfirst : PointerMap.emplace _ r.position r.id = pmap₁
    by_cases hmem : r.position + pos ∈ pmap₁
    · obtain ⟨i, hi⟩ := PointerMap.exists_lookup hmem
      rw [← hfirst, PointerMap.lookup_emplace] at hi
      exact .inr ⟨i, hold (hi.resolve_right fun hnew => hpos (by omega))⟩
    · refine .inl (PointerMap.lookup_emplaceAll_of_some (PointerMap.lookup_emplace.mpr ?_))
      exact .inr ⟨rfl, rfl, hmem⟩

end

end Context

namespace Covers

open Context

variable {ctx ctx' : Context} {grows : Option Nat}

theorem create (h : Covers ctx.pmap grows ctx.children) :
    Covers ({ ctx with nextId := ctx.nextId + 1 } : Context).pmap grows
      ({ ctx with nextId := ctx.nextId + 1 } : Context).children := h

/-- What is below an item weighs as much when a place in it is filled anew. -/
theorem getSize_plug {k : Hole Item} {old loc : ItemList} (hsize : loc.getSize = old.getSize)
    (it : Item) : it.getSize (k.plug loc) = it.getSize (k.plug old) := by
  have hweight : ItemList.getSize (k.plug loc) = ItemList.getSize (k.plug old) := by
    rw [ItemList.getSize, ItemList.getSize, Hole.weight_plug, Hole.weight_plug]
    exact congrArg _ hsize
  rw [Item.getSize, Item.getSize, hweight]

/-- The new item may take the place of the raw one in the map only if it has a size. -/
theorem splitAt {k : Hole Item} {r n : Item} {src : Source} {pos : Nat} {p : Parts}
    (h : Covers ctx.pmap grows ctx.children) (hctx : ctx.Consistent) (hpointed : ctx.Pointed)
    (hk : ctx.children = k.plug (.single r .nil)) (hraw : r.body = .raw src)
    (hlen : pos + n.getSize .nil ≤ src.size) (hn : ∀ it ∈ ctx.children.nodes, it.id ≠ n.id)
    (hsplit : ctx.SplitAt ctx' k r src pos n .nil p) (hctx' : ctx'.Consistent)
    (hsized : 0 < n.getSize .nil ∨ grows = some n.id ∨ ctx.getSize ≤ r.position + pos ∨
      ∃ i, i ≠ r.id ∧ ctx.pmap.lookup (r.position + pos) = some i) :
    Covers ctx'.pmap grows ctx'.children := by
  have hr : (r, .nil) ∈ ctx.children.subtrees := by
    rw [hk, Hole.mem_subtrees_plug]
    exact .inl List.mem_cons_self
  have hrNode : r ∈ ctx.children.nodes := Forest.mem_nodes.mpr ⟨_, hr⟩
  have hrSize : r.getSize .nil = src.size := by
    rw [Item.getSize, hraw]
    rfl
  obtain ⟨hlaidParts, hsizeParts⟩ := hsplit.laid_parts hlen
  have hsame : (p.items ctx.nextId r src.size pos n .nil).getSize =
      ItemList.getSize (.single r .nil) := by
    rw [hsizeParts, ItemList.getSize, Forest.weight_single, hraw]
    rfl
  have htotal : ctx'.children.getSize = ctx.children.getSize := by
    rw [hsplit.children, hk, ItemList.getSize, ItemList.getSize, Hole.weight_plug,
      Hole.weight_plug]
    exact congrArg _ hsame
  have hkeeps {key : Nat} (hkey : key ∈ ctx.pmap) : key ∈ ctx'.pmap :=
    hsplit.mem_pmap hctx hpointed hrNode (hn r hrNode).symm hkey
  have hend (hlt : r.position + src.size < ctx.getSize) : r.position + src.size ∈ ctx'.pmap := by
    rw [← hrSize] at hlt ⊢
    exact hkeeps (h.ends r .nil hr hlt)
  refine ⟨?_, fun it children hmem hlt => ?_, fun it children hmem hlt hkey hgrows => ?_⟩
  · have hlaid := h.laid
    rw [ItemList.Laid, hk] at hlaid
    rw [ItemList.Laid, hsplit.children]
    refine Hole.laid_plug hlaid hsame ?_
    rw [← (Hole.laid_of_plug hlaid).1]
    exact hlaidParts
  · rw [htotal] at hlt
    rw [hsplit.children, Hole.mem_subtrees_plug] at hmem
    rcases hmem with hmem | haside | ⟨⟨a, k'⟩, hspine, heq⟩
    · obtain ⟨rfl, ⟨hpos, -, hposition, hsize⟩ | ⟨-, hposition, hsize⟩ |
        ⟨hrest, hposition, hsize⟩⟩ := hsplit.mem_parts hlen hmem
      · rw [hposition, hsize]
        exact (hsplit.starts hpointed fun hwhole => hpos hwhole.1).1
      · rw [hposition, hsize] at hlt ⊢
        by_cases hrest : src.size - n.getSize .nil - pos = 0
        · have hlast : r.position + pos + n.getSize .nil = r.position + src.size := by omega
          rw [hlast] at hlt ⊢
          exact hend hlt
        · rw [Nat.add_assoc]
          exact (hsplit.starts hpointed fun hwhole => hrest hwhole.2).2 hrest
      · have hlast : r.position + (pos + n.getSize .nil) + (src.size - n.getSize .nil - pos) =
            r.position + src.size := by omega
        rw [hposition, hsize, hlast] at hlt ⊢
        exact hend hlt
    · refine hkeeps (h.ends it children ?_ hlt)
      rw [hk, Hole.mem_subtrees_plug]
      exact .inr (.inl haside)
    · cases heq
      rw [getSize_plug hsame] at hlt ⊢
      refine hkeeps (h.ends a _ ?_ hlt)
      rw [hk, Hole.mem_subtrees_plug]
      exact .inr (.inr ⟨_, hspine, rfl⟩)
  · rw [htotal] at hlt
    -- the new item, if the map leads to it
    have hnew (hid : it.id = n.id) (hposition : it.position = r.position + pos)
        (hsize : it.getSize .nil = n.getSize .nil) : 0 < it.getSize .nil := by
      rcases hsized with hpos | hgrow | hlast | ⟨i, hi, hother⟩
      · exact hsize ▸ hpos
      · exact absurd (hid ▸ hgrow) hgrows
      · exact absurd (hposition ▸ hlt) (Nat.not_lt.mpr hlast)
      · have hlookup := hsplit.lookup_of_ne hpointed.keys hother hi
        rw [← hposition, hkey, hid] at hlookup
        obtain ⟨a, ha, hid', -⟩ := hpointed.entries _ i hother
        exact absurd (hid'.trans (Option.some.inj hlookup).symm) (hn a ha)
    have hpart (hmem : (it, children) ∈ (p.items ctx.nextId r src.size pos n .nil).subtrees) :
        0 < it.getSize children := by
      obtain ⟨rfl, ⟨hpos, -, -, hsize⟩ | ⟨hid, hposition, hsize⟩ | ⟨hrest, -, hsize⟩⟩ :=
        hsplit.mem_parts hlen hmem
      · exact hsize ▸ Nat.pos_of_ne_zero hpos
      · exact hnew hid hposition hsize
      · exact hsize ▸ Nat.pos_of_ne_zero hrest
    rcases hsplit.lookup hpointed.keys hkey with ⟨hold, -⟩ | ⟨it', hit', hid', -⟩
    · rw [hsplit.children, Hole.mem_subtrees_plug] at hmem
      rcases hmem with hmem | haside | ⟨⟨a, k'⟩, hspine, heq⟩
      · exact hpart hmem
      · refine h.sized it children ?_ hlt hold hgrows
        rw [hk, Hole.mem_subtrees_plug]
        exact .inr (.inl haside)
      · cases heq
        rw [getSize_plug hsame]
        refine h.sized a _ ?_ hlt hold hgrows
        rw [hk, Hole.mem_subtrees_plug]
        exact .inr (.inr ⟨_, hspine, rfl⟩)
    · obtain ⟨children', hmem'⟩ := Forest.mem_nodes.mp hit'
      have hsub : (it', children') ∈ ctx'.children.subtrees := by
        rw [hsplit.children, Hole.mem_subtrees_plug]
        exact .inl hmem'
      have hfind := hctx'.find?_of_mem hmem
      rw [← hid', hctx'.find?_of_mem hsub] at hfind
      cases hfind
      exact hpart hmem'

/-- The map does not lead to the piece that is split off for a child, if another item ends
there. -/
theorem lookup_split (h : Covers ctx.pmap grows ctx.children) (hpointed : ctx.Pointed)
    {ctx₁ : Context} {k : Hole Item} {x next n : Item} {src : Source} {p : Parts}
    (hchildren : ctx.children = k.plug (.cons x .nil (.single next .nil)))
    (hraw : next.body = .raw src) (hlen : 0 < src.size)
    (hsplit : ctx.SplitAt ctx₁ (k.behind x .nil) next src 0 n .nil p)
    (hn : ∀ it ∈ ctx.children.nodes, it.id ≠ n.id)
    (hkey : ctx.pmap.lookup next.position ≠ some next.id) :
    ctx₁.pmap.lookup next.position ≠ some n.id := by
  intro hchild
  have hx : (x, .nil) ∈ ctx.children.subtrees := by
    rw [hchildren, Hole.mem_subtrees_plug]
    exact .inl List.mem_cons_self
  have hnext : (next, .nil) ∈ ctx.children.subtrees := by
    rw [hchildren, Hole.mem_subtrees_plug]
    exact .inl (List.mem_cons_of_mem _ List.mem_cons_self)
  have hlaid := h.laid
  rw [ItemList.Laid, hchildren] at hlaid
  obtain ⟨hxPos, -, hnextPos, -⟩ := Hole.laid_of_plug hlaid
  have hend : x.position + x.getSize .nil = next.position := by
    rw [hxPos, hnextPos]
    rfl
  have hlt : next.position < ctx.getSize := by
    have hle := h.le_getSize hnext
    have hnextSize : next.getSize .nil = src.size := by
      rw [Item.getSize, hraw]
      rfl
    rw [hnextSize] at hle
    change next.position < ctx.children.getSize
    omega
  obtain ⟨i, hi⟩ := PointerMap.exists_lookup (hend ▸ h.ends x .nil hx (hend.symm ▸ hlt))
  have hother : i ≠ next.id := fun heq => hkey (heq ▸ hi)
  have hold := hsplit.lookup_of_ne hpointed.keys hi hother
  rw [hchild] at hold
  obtain ⟨a, ha, hid, -⟩ := hpointed.entries _ i hi
  exact hn a ha (hid.trans (Option.some.inj hold).symm)

/-- An item takes the one behind it as its first child. The map does not lead to the child
any more, so there has to be another entry where it starts. -/
theorem nest {k : Hole Item} {x child : Item} (h : Covers ctx.pmap grows ctx.children)
    (hold : ctx.children = k.plug (.cons x .nil (.single child .nil)))
    (hchildren : ctx'.children = k.plug (.single x (.single child .nil)))
    (hpmap : ctx'.pmap = ctx.pmap.removedAll (.single child .nil)) (hctx' : ctx'.Consistent)
    (hgrows : ∀ i, grows = some i → i = x.id) (hsized : 0 < child.getSize .nil)
    (hlookup : 0 < x.body.ownSize ∨ ctx.pmap.lookup child.position ≠ some child.id) :
    Covers ctx'.pmap none ctx'.children := by
  have hlaid := h.laid
  rw [ItemList.Laid, hold] at hlaid
  obtain ⟨hxPos, -, hstart, -⟩ := Hole.laid_of_plug hlaid
  have hend : child.position = x.position + x.body.ownSize := by
    rw [hstart, hxPos]
    rfl
  have hsame : ItemList.getSize (.single x (.single child .nil)) =
      ItemList.getSize (.cons x .nil (.single child .nil)) := by
    simp only [ItemList.getSize, Forest.weight_single, Forest.weight_cons, Forest.weight_nil,
      Nat.add_zero]
  have htotal : ctx'.children.getSize = ctx.children.getSize := by
    rw [hchildren, hold, ItemList.getSize, ItemList.getSize, Hole.weight_plug, Hole.weight_plug]
    exact congrArg _ hsame
  have hxSize : x.getSize (.single child .nil) = x.body.ownSize + child.getSize .nil := rfl
  have hlookup' {key i : Nat} : ctx'.pmap.lookup key = some i ↔
      ctx.pmap.lookup key = some i ∧ ¬ (child.position = key ∧ child.id = i) := by
    rw [hpmap, PointerMap.lookup_removedAll]
    exact and_congr_right fun _ => List.forall_mem_singleton
  have hkeeps {key : Nat} (hmem : key ∈ ctx.pmap)
      (hother : key ≠ child.position ∨ ctx.pmap.lookup key ≠ some child.id) :
      key ∈ ctx'.pmap := by
    obtain ⟨i, hi⟩ := PointerMap.exists_lookup hmem
    refine PointerMap.mem_of_lookup (hlookup'.mpr ⟨hi, fun ⟨hpos, hid⟩ => ?_⟩)
    exact hother.elim (fun hne => hne hpos.symm) fun hne => hne (hid ▸ hi)
  -- around the two, no item ends where the child starts, if the child is in the map
  have haway {e : Nat} (hmem : e ∈ ctx.pmap)
      (he : e ≤ x.position ∨ child.position + child.getSize .nil ≤ e) : e ∈ ctx'.pmap := by
    refine hkeeps hmem ?_
    by_cases heq : e = child.position
    · subst heq
      refine .inr (hlookup.resolve_left fun hown => ?_)
      omega
    · exact .inl heq
  have hmem₁ : (child, .nil) ∈ ctx.children.subtrees := by
    rw [hold, Hole.mem_subtrees_plug]
    exact .inl (List.mem_cons_of_mem _ List.mem_cons_self)
  have hendChild (hlt : child.position + child.getSize .nil < ctx.children.getSize) :
      child.position + child.getSize .nil ∈ ctx'.pmap :=
    haway (h.ends child .nil hmem₁ hlt) (.inr (Nat.le_refl _))
  have hxSub : (x, .single child .nil) ∈ ctx'.children.subtrees := by
    rw [hchildren, Hole.mem_subtrees_plug]
    exact .inl List.mem_cons_self
  have hweight : (Forest.cons x .nil (.single child .nil)).weight (fun it => it.body.ownSize) =
      x.body.ownSize + child.getSize .nil := rfl
  refine ⟨?_, fun it children hmem hlt => ?_, fun it children hmem hlt hkey _ => ?_⟩
  · rw [ItemList.Laid, hchildren]
    exact Hole.laid_plug hlaid hsame ⟨hxPos, ⟨hstart, trivial, trivial⟩, trivial⟩
  · rw [htotal] at hlt
    rw [hchildren, Hole.mem_subtrees_plug] at hmem
    rcases hmem with hmem | haside | ⟨⟨a, k'⟩, hspine, heq⟩
    · rcases List.mem_cons.mp hmem with heq | hmem
      · cases heq
        have hxEnd : x.position + x.getSize (.single child .nil) =
            child.position + child.getSize .nil := by
          rw [hxSize, hend, Nat.add_assoc]
        rw [hxEnd] at hlt ⊢
        exact hendChild hlt
      · cases List.mem_singleton.mp hmem
        exact hendChild hlt
    · have hbounds := Hole.aside_bounds hlaid haside
      have hmem₁ : (it, children) ∈ ctx.children.subtrees := by
        rw [hold, Hole.mem_subtrees_plug]
        exact .inr (.inl haside)
      refine haway (h.ends it children hmem₁ hlt) ?_
      rw [hweight, ← hxPos] at hbounds
      rw [hend, Item.getSize, ItemList.getSize]
      omega
    · cases heq
      have hbounds := (Hole.spine_bounds hlaid hspine).2
      have hmem₁ : (a, k'.plug (.cons x .nil (.single child .nil))) ∈ ctx.children.subtrees := by
        rw [hold, Hole.mem_subtrees_plug]
        exact .inr (.inr ⟨_, hspine, rfl⟩)
      rw [getSize_plug hsame] at hlt ⊢
      refine haway (h.ends a _ hmem₁ hlt) (.inr ?_)
      have hsize : a.getSize (k'.plug (.cons x .nil (.single child .nil))) =
          a.body.ownSize + ItemList.getSize (k'.plug (.cons x .nil (.single child .nil))) := rfl
      rw [hweight, ← hxPos] at hbounds
      rw [hend, hsize, ItemList.getSize]
      dsimp only
      omega
  · rw [htotal] at hlt
    have hkey₁ := (hlookup'.mp hkey).1
    by_cases hid : it.id = x.id
    · have hfind' := hctx'.find?_of_mem hmem
      rw [hid, hctx'.find?_of_mem hxSub] at hfind'
      cases hfind'
      omega
    · have hgrow : grows ≠ some it.id := fun hsome => hid (hgrows _ hsome)
      rw [hchildren, Hole.mem_subtrees_plug] at hmem
      rcases hmem with hmem | haside | ⟨⟨a, k'⟩, hspine, heq⟩
      · rcases List.mem_cons.mp hmem with heq | hmem
        · cases heq
          exact absurd rfl hid
        · cases List.mem_singleton.mp hmem
          exact hsized
      · refine h.sized it children ?_ hlt hkey₁ hgrow
        rw [hold, Hole.mem_subtrees_plug]
        exact .inr (.inl haside)
      · cases heq
        rw [getSize_plug hsame]
        refine h.sized a _ ?_ hlt hkey₁ hgrow
        rw [hold, Hole.mem_subtrees_plug]
        exact .inr (.inr ⟨_, hspine, rfl⟩)

/-- An item that gets its first child ends where the child ends. -/
theorem moveNextToChild (h : Covers ctx.pmap grows ctx.children) (hctx : ctx.Consistent)
    (hpointed : ctx.Pointed) {id size : Nat} {x : Item} (hfind : ctx.find? id = some (x, .nil))
    (hgrows : ∀ i, grows = some i → i = id) (hsize : 0 < size)
    (hkey : 0 < x.body.ownSize ∨ ∀ next, ctx.children.next? (isItem id) = some (next, .nil) →
      ctx.pmap.lookup next.position ≠ some next.id)
    (hmove : ctx.moveNextToChild id size = .ok ctx') (hctx' : ctx'.Consistent) :
    Covers ctx'.pmap none ctx'.children := by
  obtain ⟨ctx₁, k, x', cs, next, src, sub, p, rfl, hnext, hraw, hle, hbytes, hctx₁, hat⟩ :=
    hctx.moveNextToChild_ok hmove
  have hx : (x', cs) ∈ ctx.children.subtrees := by
    rw [hat.children, Hole.mem_subtrees_plug]
    exact .inl List.mem_cons_self
  have hfindX := hctx.find?_of_mem hx
  rw [hfind] at hfindX
  cases hfindX
  have hbehind : ctx.children = (k.behind x .nil).plug (.single next .nil) := by
    rw [Hole.plug_behind, hat.children]
  have hsub : sub.size = size := by
    rw [← Source.length_bytes, hbytes, length_slice_of_le (by rw [Source.length_bytes]; omega)]
  -- first the child is split off
  have hfresh : ∀ it ∈ ctx.children.nodes, it.id ≠ ctx.nextId := fun it hit =>
    Nat.ne_of_lt (hctx.numbered it hit)
  have hcovers₁ := h.create.splitAt hctx.create hpointed.create hbehind hraw
    (by change 0 + sub.size ≤ src.size; omega) hfresh hat.split hctx₁
    (.inl (by change 0 < sub.size; omega))
  have hlookup₁ : 0 < x.body.ownSize ∨ ctx₁.pmap.lookup next.position ≠ some ctx.nextId :=
    hkey.imp_right fun hkey => h.create.lookup_split hpointed.create hat.children hraw (by omega)
      hat.split hfresh (hkey next hnext)
  -- then it becomes one
  refine hcovers₁.nest hat.split_children ?_ ?_ hctx' hgrows ?_ hlookup₁
  · rw [hat.nested]
    rfl
  · rw [hat.nested]
  · change 0 < sub.size
    omega

/-- The entry of the replaced item is for the new one; those of its children are gone. -/
theorem lookup_replacedPmap {pmap : PointerMap} {r : Item} {its : ItemList} {new : Nat}
    (hnew : ∀ d ∈ (Forest.single r its).nodes, d.id ≠ new) {key i : Nat} :
    (replacedPmap pmap r its new).lookup key = some i ↔
      (key = r.position ∧ pmap.lookup r.position = some r.id ∧ i = new) ∨
        pmap.lookup key = some i ∧
          ∀ d ∈ (Forest.single r its).nodes, ¬ (d.position = key ∧ d.id = i) := by
  rw [replacedPmap, PointerMap.lookup_removedAll]
  split
  · rename_i hit
    by_cases hkey : key = r.position
    · subst hkey
      rw [AList.lookup_insert, hit]
      constructor
      · rintro ⟨heq, -⟩
        exact .inl ⟨rfl, rfl, (Option.some.inj heq).symm⟩
      · rintro (⟨-, -, rfl⟩ | ⟨heq, hgone⟩)
        · exact ⟨rfl, fun d hd hsame => hnew d hd hsame.2⟩
        · exact absurd ⟨rfl, Option.some.inj heq⟩ (hgone r List.mem_cons_self)
    · rw [AList.lookup_insert_ne hkey]
      exact (or_iff_right fun h => hkey h.1).symm
  · rename_i hmiss
    exact (or_iff_right fun h => hmiss h.2.1).symm

/-- An entry that is not within the replaced item is still there. -/
theorem mem_replacedPmap (h : Covers ctx.pmap none ctx.children) (hctx : ctx.Consistent)
    (hpointed : ctx.Pointed) {r : Item} {its : ItemList} {new : Nat}
    (hr : (r, its) ∈ ctx.children.subtrees)
    (hnew : ∀ d ∈ (Forest.single r its).nodes, d.id ≠ new)
    (hits : its.Laid (r.position + r.body.ownSize)) (hown : its = .nil ∨ 0 < r.body.ownSize)
    {key : Nat} (hkey : key ∈ ctx.pmap) (hlt : key < ctx.children.getSize)
    (haway : key ≤ r.position ∨ r.position + r.getSize its ≤ key) :
    key ∈ replacedPmap ctx.pmap r its new := by
  obtain ⟨i, hi⟩ := PointerMap.exists_lookup hkey
  by_cases hid : i = r.id
  · subst hid
    obtain ⟨a, ha, hsame, rfl⟩ := hpointed.entries key _ hi
    cases hctx.eq_of_id ha (Forest.mem_nodes.mpr ⟨_, hr⟩) hsame
    exact PointerMap.mem_of_lookup ((lookup_replacedPmap hnew).mpr (.inl ⟨rfl, hi, rfl⟩))
  · refine PointerMap.mem_of_lookup ((lookup_replacedPmap hnew).mpr (.inr ⟨hi, fun d hd => ?_⟩))
    rintro ⟨rfl, rfl⟩
    obtain ⟨ds, hds⟩ := Forest.mem_nodes.mp hd
    rcases List.mem_cons.mp hds with heq | hds
    · cases heq
      exact hid rfl
    · rcases List.mem_append.mp hds with hds | hnil
      · have hbounds := hits.bounds hds
        have hsized := h.sized d ds (Forest.mem_subtrees_trans hr hds) hlt hi (by simp)
        rw [Item.getSize, ItemList.getSize] at haway hsized
        rcases hown with rfl | hown
        · cases hds
        · omega
      · cases hnil

theorem replace (h : Covers ctx.pmap none ctx.children) (hctx : ctx.Consistent)
    (hpointed : ctx.Pointed) {id : Nat} {n r : Item} {its : ItemList}
    (hn : ∀ it ∈ ctx.children.nodes, it.id ≠ n.id) (hget : ctx.get id = .ok (r, its))
    (hsize : n.getSize .nil = r.getSize its) (hown : its = .nil ∨ 0 < r.body.ownSize)
    (hreplace : ctx.replace id n .nil = .ok ctx') : Covers ctx'.pmap none ctx'.children := by
  obtain ⟨rfl, k, hk, hapart⟩ := hctx.registers.exists_hole (get_eq_ok hget)
  obtain ⟨-, -, -, rfl⟩ := (replace_eq_ok hk hapart).mp hreplace
  have hin : ∀ d ∈ (Forest.single r its).nodes, d ∈ ctx.children.nodes := fun d hd => by
    rw [hk, mem_plug]
    exact .inr hd
  have hlookup {key i : Nat} := @lookup_replacedPmap ctx.pmap r its n.id
    (fun d hd => hn d (hin d hd)) key i
  have hr : (r, its) ∈ ctx.children.subtrees := by
    rw [hk, Hole.mem_subtrees_plug]
    exact .inl List.mem_cons_self
  have hsame : ItemList.getSize (.single (replacement r n) .nil) =
      ItemList.getSize (.single r its) := hsize
  have htotal : ItemList.getSize (k.plug (.single (replacement r n) .nil)) =
      ctx.children.getSize := by
    rw [hk, ItemList.getSize, ItemList.getSize, Hole.weight_plug, Hole.weight_plug]
    exact congrArg _ hsame
  have hlaid := h.laid
  rw [ItemList.Laid, hk] at hlaid
  obtain ⟨hrPos, hits, -⟩ := Hole.laid_of_plug hlaid
  rw [← hrPos] at hits
  have hkeeps {key : Nat} (hkey : key ∈ ctx.pmap) (hlt : key < ctx.children.getSize)
      (haway : key ≤ r.position ∨ r.position + r.getSize its ≤ key) :
      key ∈ replacedPmap ctx.pmap r its n.id :=
    h.mem_replacedPmap hctx hpointed hr (fun d hd => hn d (hin d hd)) hits hown hkey hlt haway
  have haside {it : Item} {children : ItemList} (hmem : (it, children) ∈ k.aside) :
      (it, children) ∈ ctx.children.subtrees := by
    rw [hk, Hole.mem_subtrees_plug]
    exact .inr (.inl hmem)
  have hspine {a : Item} {k' : Hole Item} (hmem : (a, k') ∈ k.spine) :
      (a, k'.plug (.single r its)) ∈ ctx.children.subtrees := by
    rw [hk, Hole.mem_subtrees_plug]
    exact .inr (.inr ⟨_, hmem, rfl⟩)
  refine ⟨?_, fun it children hmem hlt => ?_, fun it children hmem hlt hkey _ => ?_⟩
  · exact Hole.laid_plug hlaid hsame ⟨hrPos, trivial, trivial⟩
  · rw [htotal] at hlt
    rcases Hole.mem_subtrees_plug.mp hmem with hmem | hmem | ⟨⟨a, k'⟩, hin', heq⟩
    · cases List.mem_singleton.mp hmem
      change r.position + n.getSize .nil < _ at hlt
      change r.position + n.getSize .nil ∈ _
      rw [hsize] at hlt ⊢
      exact hkeeps (h.ends r its hr hlt) hlt (.inr (Nat.le_refl _))
    · refine hkeeps (h.ends it children (haside hmem) hlt) hlt ?_
      have hbounds := Hole.aside_bounds hlaid hmem
      rw [Forest.weight_single, ← hrPos] at hbounds
      rw [Item.getSize, Item.getSize, ItemList.getSize, ItemList.getSize]
      omega
    · cases heq
      rw [getSize_plug hsame] at hlt ⊢
      refine hkeeps (h.ends a _ (hspine hin') hlt) hlt (.inr ?_)
      have hbounds := (Hole.spine_bounds hlaid hin').2
      rw [Forest.weight_single, ← hrPos] at hbounds
      rw [Item.getSize, Item.getSize, ItemList.getSize, ItemList.getSize]
      dsimp only
      omega
  · rw [htotal] at hlt
    have hgrows {i : Nat} : none ≠ some i := fun hnone => nomatch hnone
    rcases Hole.mem_subtrees_plug.mp hmem with hmem | hmem | ⟨⟨a, k'⟩, hin', heq⟩
    · cases List.mem_singleton.mp hmem
      change 0 < n.getSize .nil
      rw [hsize]
      rcases hlookup.mp hkey with ⟨-, hit, -⟩ | ⟨hold, -⟩
      · exact h.sized r its hr hlt hit hgrows
      · obtain ⟨a, ha, hid, -⟩ := hpointed.entries _ _ hold
        exact absurd hid (hn a ha)
    · have hmem' := haside hmem
      rcases hlookup.mp hkey with ⟨-, -, hid⟩ | ⟨hold, -⟩
      · exact absurd hid (hn it (Forest.mem_nodes.mpr ⟨_, hmem'⟩))
      · exact h.sized it children hmem' hlt hold hgrows
    · cases heq
      have hmem' := hspine hin'
      rw [getSize_plug hsame]
      rcases hlookup.mp hkey with ⟨-, -, hid⟩ | ⟨hold, -⟩
      · exact absurd hid (hn a (Forest.mem_nodes.mpr ⟨_, hmem'⟩))
      · exact h.sized a _ hmem' hlt hold hgrows

end Covers

namespace Context

/-! Each step. -/

/-- A place that no entry of the item's own is for: the map leads to another item there,
or the file ends there. -/
def Passed (ctx : Context) (id offset : Nat) : Prop :=
  ∀ x ∈ ctx.find? id, ctx.getSize ≤ x.1.position + offset ∨
    ctx.pmap.lookup (x.1.position + offset) ≠ none ∧
      ctx.pmap.lookup (x.1.position + offset) ≠ some id

/-- What is put into a file has a size, or the map does not have to lead to it; and items
are replaced by items of their size. Data is put into what has none yet. -/
def FillsPlace (ctx : Context) : ParseOp → Prop
  | .split id pos body => 0 < body.ownSize ∨ ctx.Passed id pos
  | .splitRaw id offset size => 0 < size ∨ ctx.Passed id offset
  | .replace id body => ∀ x ∈ ctx.find? id, body.ownSize = x.1.getSize x.2 ∧
      (x.2.length = 0 ∨ 0 < x.1.body.ownSize)
  | .moveNextToChild id size => 0 < size ∧
      ∀ x ∈ ctx.find? id, x.2.length = 0 ∧ 0 < x.1.body.ownSize
  | .expansions id pos size => 0 < size ∧ ∀ x ∈ ctx.find? id, pos < x.1.getSize x.2
  | .getLabelTo _ | .getLabelToNamed _ _ | .createLabelFallback _ _ | .create _ => True

instance (ctx : Context) (id offset : Nat) : Decidable (ctx.Passed id offset) :=
  inferInstanceAs (Decidable (∀ x ∈ ctx.find? id, _))

instance (ctx : Context) : DecidablePred ctx.FillsPlace
  | .split id pos _ => inferInstanceAs (Decidable (_ ∨ ctx.Passed id pos))
  | .splitRaw id offset _ => inferInstanceAs (Decidable (_ ∨ ctx.Passed id offset))
  | .replace id _ => inferInstanceAs (Decidable (∀ x ∈ ctx.find? id, _))
  | .moveNextToChild id _ | .expansions id _ _ =>
      inferInstanceAs (Decidable (_ ∧ ∀ x ∈ ctx.find? id, _))
  | .getLabelTo _ | .getLabelToNamed _ _ | .createLabelFallback _ _ | .create _ => .isTrue trivial

theorem eq_nil_of_length {f : ItemList} (h : f.length = 0) : f = .nil := by
  cases f with
  | nil => rfl
  | cons it children siblings => cases h

end Context

namespace Covers

open Context

variable {ctx ctx' : Context} {grows : Option Nat}

theorem weaken (h : Covers ctx.pmap none ctx.children) : Covers ctx.pmap grows ctx.children :=
  { h with
    sized := fun it children hmem hlt hkey _ => h.sized it children hmem hlt hkey
      fun hnone => nomatch hnone }

theorem root (src : Source) : Covers (Context.root src).pmap none (Context.root src).children := by
  have hone {it : Item} {children : ItemList}
      (hmem : (it, children) ∈ (Context.root src).children.subtrees) :
      it.position = 0 ∧ it.getSize children = (Context.root src).children.getSize := by
    cases List.mem_singleton.mp hmem
    exact ⟨rfl, rfl⟩
  refine ⟨⟨rfl, trivial, trivial⟩, fun it children hmem hlt => ?_,
    fun it children hmem hlt _ _ => ?_⟩
  · obtain ⟨hpos, hsize⟩ := hone hmem
    omega
  · obtain ⟨hpos, hsize⟩ := hone hmem
    omega

theorem split2 (h : Covers ctx.pmap grows ctx.children) (hctx : ctx.Consistent)
    (hpointed : ctx.Pointed) {id pos : Nat} {n : Item} (hn : ctx.Fresh n)
    (hsplit : ctx.split2 id pos n .nil = .ok ctx') (hctx' : ctx'.Consistent)
    (hsized : 0 < n.getSize .nil ∨ grows = some n.id ∨ ctx.Passed id pos) :
    Covers ctx'.pmap grows ctx'.children := by
  obtain ⟨⟨r, children, src⟩, hraw, -⟩ := bind_eq_ok.mp hsplit
  obtain ⟨rfl, rfl, hbody, k, hk, hapart⟩ := hctx.registers.raw_hole hraw
  have hr : r ∈ ctx.children.nodes := by
    rw [hk, mem_plug]
    exact .inr List.mem_cons_self
  obtain ⟨p, hp⟩ := split2_ok hk hapart hbody (hctx.labelled r hr)
    (fun it hit => by
      rw [List.mem_singleton.mp hit]
      exact decide_eq_false (hn.new r hr).symm) (hctx.numbered r hr) hsplit
  refine h.splitAt hctx hpointed hk hbody (split2_le hk hapart hbody hsplit) hn.new hp hctx' ?_
  refine hsized.imp_right (Or.imp_right fun hpassed => ?_)
  refine (hpassed (r, .nil) (find?_hole hk hapart)).imp_right fun ⟨hsome, hother⟩ => ?_
  obtain ⟨i, hi⟩ := Option.ne_none_iff_exists'.mp hsome
  exact ⟨i, fun heq => hother (heq ▸ hi), hi⟩

/-- An item besides a childless one cannot be at its bytes, unless the other is below it. -/
theorem spine_of_inside (h : Covers ctx.pmap grows ctx.children) {k : Hole Item} {r a : Item}
    {its : ItemList} (hk : ctx.children = k.plug (.single r .nil))
    (ha : (a, its) ∈ ctx.children.subtrees) (hother : a.id ≠ r.id) (hsized : 0 < a.getSize its)
    (hle : r.position ≤ a.position) (hlt : a.position < r.position + r.getSize .nil) :
    ∃ k', (a, k') ∈ k.spine ∧ its = k'.plug (.single r .nil) := by
  have hlaid := h.laid
  rw [ItemList.Laid, hk] at hlaid
  have hrPos := (Hole.laid_of_plug hlaid).1
  have hrWeight : (Forest.single r .nil).weight (fun it => it.body.ownSize) = r.getSize .nil := rfl
  rw [hk, Hole.mem_subtrees_plug] at ha
  rcases ha with ha | haside | ⟨⟨b, k'⟩, hspine, heq⟩
  · cases List.mem_singleton.mp ha
    exact absurd rfl hother
  · have hbounds := Hole.aside_bounds hlaid haside
    rw [hrWeight, ← hrPos] at hbounds
    change 0 < a.body.ownSize + its.getSize at hsized
    rw [ItemList.getSize] at hsized
    omega
  · cases heq
    exact ⟨k', hspine, rfl⟩

/-- Once an item without a size is split off, the map does not lead to the bytes that
follow it. -/
theorem next_passed (h : Covers ctx.pmap none ctx.children) (hctx : ctx.Consistent)
    (hpointed : ctx.Pointed) {id pos : Nat} {body : Body} (hzero : body.ownSize = 0)
    (hraw : body.isRaw = false)
    (hpos : ∀ x ∈ ctx.find? id, pos < x.1.getSize x.2)
    (hsplit : ctx.splitCreate id pos body = .ok ctx') (hctx' : ctx'.Consistent)
    (hlaid : ctx'.children.Laid 0) {next : Item}
    (hnext : ctx'.children.next? (isItem ctx.nextId) = some (next, .nil)) :
    ctx'.pmap.lookup next.position ≠ some next.id := by
  intro hkey
  obtain ⟨k, r, src, p, rfl, hbody, hk, hapart, -, -, hp⟩ := hctx.splitCreate_ok hsplit
  have hr : (r, .nil) ∈ ctx.children.subtrees := by
    rw [hk, Hole.mem_subtrees_plug]
    exact .inl List.mem_cons_self
  have hrSize : r.getSize .nil = src.size := by
    rw [Item.getSize, hbody]
    rfl
  have hlt : pos < src.size := hrSize ▸ hpos (r, .nil) (find?_hole hk hapart)
  have hnot : ¬ (pos = 0 ∧ src.size -
      ({ id := ctx.nextId, position := 0, labels := [], body } : Item).getSize .nil - pos = 0) := by
    rintro ⟨rfl, hrest⟩
    change src.size - body.ownSize - 0 = 0 at hrest
    omega
  obtain ⟨N, hN, hNid, hNpos, hNbody⟩ : ∃ N, (N, .nil) ∈ ctx'.children.subtrees ∧
      N.id = ctx.nextId ∧ N.position = r.position + pos ∧ N.body = body :=
    ⟨_, hp.mem_new, rfl, rfl, rfl⟩
  -- what follows is raw, and at the same position
  obtain ⟨K, x, cs, hx, hK⟩ := Hole.exists_plug_next hnext
  have hxMem : (x, cs) ∈ ctx'.children.subtrees := by
    rw [hK, Hole.mem_subtrees_plug]
    exact .inl List.mem_cons_self
  have hfindX := hctx'.find?_of_mem hxMem
  rw [of_decide_eq_true hx, ← hNid, hctx'.find?_of_mem hN] at hfindX
  cases hfindX
  have hnextMem : (next, .nil) ∈ ctx'.children.subtrees := by
    rw [hK, Hole.mem_subtrees_plug]
    exact .inl (List.mem_cons_of_mem _ List.mem_cons_self)
  have hnextPos : next.position = r.position + pos := by
    rw [ItemList.Laid, hK] at hlaid
    obtain ⟨hxPos, -, hnextPos, -⟩ := Hole.laid_of_plug hlaid
    rw [hnextPos, ← hxPos, hNpos]
    exact congrArg (r.position + pos + Body.ownSize ·) hNbody |>.trans (congrArg _ hzero)
  obtain ⟨src', hnextBody⟩ : ∃ src', next.body = .raw src' := by
    obtain ⟨src', hbodyOf, ⟨heq, -⟩ | ⟨b, back, hb, hback, -⟩⟩ := hctx.splitCreate_next hsplit
    · rw [hctx.bodyOf_of_mem hr] at hbodyOf
      cases hbody.symm.trans (Option.some.inj hbodyOf)
      omega
    · rw [hnext] at hb
      cases hb
      exact ⟨back, hback⟩
  rw [hnextPos] at hkey
  rcases hp.lookup_new hpointed.create hnot with hnew | ⟨i, hi, hother⟩
  · have hid : ctx.nextId = next.id := Option.some.inj (hnew.symm.trans hkey)
    have hfind := hctx'.find?_of_mem hN
    rw [hNid, hid, hctx'.find?_of_mem hnextMem] at hfind
    cases hfind
    rw [← hNbody, hnextBody] at hraw
    cases hraw
  · obtain ⟨a, ha, rfl, haPos⟩ := hpointed.entries _ i hi
    obtain ⟨as, has⟩ := Forest.mem_nodes.mp ha
    have hrNode : r ∈ ctx.children.nodes := Forest.mem_nodes.mpr ⟨_, hr⟩
    have har : a.id ≠ r.id := fun heq => by
      cases hctx.eq_of_id ha hrNode heq
      exact hother ⟨by omega, rfl⟩
    have hsame : a.id = next.id := by
      have hold := hp.lookup_of_ne hpointed.create.keys hi har
      rw [hkey] at hold
      exact (Option.some.inj hold).symm
    have hsized : 0 < a.getSize as := by
      have hle := h.le_getSize hr
      rw [hrSize] at hle
      exact h.sized a as has (by omega) (haPos.symm ▸ hi) fun hnone => nomatch hnone
    obtain ⟨k', hspine, rfl⟩ := h.spine_of_inside hk has har hsized (by omega) (by omega)
    obtain ⟨bs, hspine'⟩ : ∃ bs, (a, bs) ∈ ctx'.children.subtrees := by
      rw [hp.children]
      exact ⟨_, Hole.mem_subtrees_plug.mpr (.inr (.inr ⟨_, hspine, rfl⟩))⟩
    have hfind := hctx'.find?_of_mem hspine'
    rw [hsame, hctx'.find?_of_mem hnextMem] at hfind
    obtain rfl := congrArg Prod.fst (Option.some.inj hfind)
    have hnil := hctx.childless _ _ has (by rw [hnextBody]; rfl)
    have hin : r ∈ (k'.plug (.single r .nil)).nodes := mem_plug.mpr (.inr List.mem_cons_self)
    rw [hnil] at hin
    cases hin

theorem parseStep {op : ParseOp} (h : Covers ctx.pmap none ctx.children) (hctx : ctx.Consistent)
    (hpointed : ctx.Pointed) (halone : ctx.HeadersAlone op) (hfills : ctx.FillsPlace op)
    (hstep : ctx.parseStep op = .ok ctx') : Covers ctx'.pmap none ctx'.children := by
  have hctx' := hctx.parseStep halone hstep
  have hrelabel {ctx'' : Context} (hr : ctx.Relabels ctx'') :
      Covers ctx''.pmap none ctx''.children := hr.pmap ▸ h.of_plain hr.plain
  cases op with
  | getLabelTo pos =>
      obtain ⟨y, hlabel, hstep⟩ := bind_eq_ok.mp hstep
      cases hstep
      exact hrelabel (relabeling_getLabelTo ctx _ _ _ hlabel)
  | getLabelToNamed pos name =>
      obtain ⟨y, hlabel, hstep⟩ := bind_eq_ok.mp hstep
      cases hstep
      exact hrelabel (relabels_getLabelToNamed hlabel)
  | createLabelFallback name ptr =>
      obtain ⟨x, hget, hstep⟩ := bind_eq_ok.mp hstep
      cases hstep
      exact hrelabel (relabels_createLabelFallback name hget)
  | create body =>
      cases hstep
      exact h
  | split id pos body =>
      exact h.create.split2 hctx.create hpointed.create
        (hctx.fresh_create body) hstep hctx' (hfills.imp_right .inr)
  | splitRaw id offset size =>
      obtain ⟨y, hsplit, hstep⟩ := bind_eq_ok.mp hstep
      cases hstep
      obtain ⟨r, src, sub, -, hle, -, hbytes, -, hsplit⟩ := hctx.registers.splitRaw_ok hsplit
      have hsub : sub.size = size := by
        rw [← Source.length_bytes, hbytes, length_slice_of_le (by rwa [Source.length_bytes])]
      refine h.create.split2 hctx.create hpointed.create
        ⟨Nat.lt_succ_self _, fun it hit => Nat.ne_of_lt (hctx.numbered it hit)⟩ hsplit hctx' ?_
      refine hfills.imp (fun hpos => ?_) .inr
      exact Nat.lt_of_lt_of_eq hpos hsub.symm
  | replace id body =>
      obtain ⟨⟨r, its⟩, hget, -⟩ := bind_eq_ok.mp hstep
      obtain ⟨hsize, hown⟩ := hfills (r, its) (get_eq_ok hget)
      exact h.create.replace hctx.create hpointed.create
        (hctx.fresh_create body).new hget hsize (hown.imp_left eq_nil_of_length) hstep
  | moveNextToChild id size =>
      obtain ⟨⟨x, xs⟩, hget, hstep⟩ := bind_eq_ok.mp hstep
      obtain ⟨_, -, hmove⟩ := bind_eq_ok.mp hstep
      obtain ⟨hnone, hown⟩ := hfills.2 (x, xs) (get_eq_ok hget)
      cases eq_nil_of_length hnone
      exact h.moveNextToChild hctx hpointed (get_eq_ok hget) (fun _ hgrows => nomatch hgrows)
        hfills.1 (.inl hown) hmove hctx'
  | expansions id pos size =>
      obtain ⟨ctx₁, hsplit, hnest⟩ := bind_eq_ok.mp hstep
      have hctx₁ := hctx.splitCreate (fun hheader => by cases hheader) hsplit
      have hfresh := hctx.fresh_create .expansions
      have h₁ := h.weaken.create.split2 hctx.create
        hpointed.create hfresh hsplit hctx₁ (.inr (.inl rfl))
      have hpointed₁ := hpointed.create.split2 hctx.create hfresh hsplit
      obtain ⟨n, hfind, -⟩ := hctx.splitCreate_find? rfl hsplit
      obtain ⟨_, -, hmove⟩ := bind_eq_ok.mp hnest
      obtain ⟨_, -, hmove⟩ := bind_eq_ok.mp hmove
      refine h₁.moveNextToChild hctx₁ hpointed₁ hfind (fun i hi => (Option.some.inj hi).symm)
        hfills.1 (.inr fun next hnext => ?_) hmove hctx'
      exact h.next_passed hctx hpointed rfl rfl hfills.2 hsplit hctx₁ h₁.laid hnext

end Covers

namespace Context

/-- In a parse that puts no item of size zero where the map leads to unparsed bytes, and
that replaces items by items of their size, every position is answered with the item that
has the byte. -/
theorem run_answeredInside {src : Source} {ops : List ParseOp} {ctx : Context}
    (halone : EveryStep Context.parseStep HeadersAlone (root src) ops)
    (hfills : EveryStep Context.parseStep FillsPlace (root src) ops)
    (hrun : run Context.parseStep (root src) ops = .ok ctx) : ctx.AnsweredInside := by
  have hinv := run_preserves_of_everyStep Context.parseStep
    (P := fun ctx op => ctx.HeadersAlone op ∧ ctx.FillsPlace op)
    (I := fun ctx => ctx.Consistent ∧ ctx.Pointed ∧ Covers ctx.pmap none ctx.children)
    (fun _ _ _ ⟨hctx, hpointed, h⟩ ⟨halone, hfills⟩ hstep =>
      ⟨hctx.parseStep halone hstep, hpointed.parseStep hctx hstep,
        h.parseStep hctx hpointed halone hfills hstep⟩)
    ⟨.root src, pointed_root src, .root src⟩ (halone.and hfills) hrun
  exact hinv.2.1.answeredInside hinv.1 hinv.2.2

end Context

/-- The header of a table of links, of which there are none, in the middle of the four
bytes that follow. -/
def emptyLinkSource : Source :=
  .fromMemory ([0, 0, 0, 0, 0x42, 0, 0, 0] ++ List.replicate 0x38 0 ++ [0x41, 0, 0x42, 0])

def emptyLinkOps : List ParseOp :=
  [.split 0 0x44 .eof,
    .createLabelFallback Stcm.CollectionLinkHeaderItem.dataName { item := 0, offset := 0x42 },
    .split 0 0 (.collectionLinkHeader Stcm.CollectionLinkHeaderItem.dataName),
    .split 0 2 (.collectionLink [])]

def emptyLinkFile : Context :=
  ((run Context.parseStep (.root emptyLinkSource) emptyLinkOps).toOption).getD .empty

theorem not_answeredInside {ctx : Context} {pos : Nat} {ptr : ItemPointer} {n : Nat}
    (hlt : pos < ctx.getSize) (hptr : (ctx.getPointer pos).toOption = some ptr)
    (hsize : (ctx.find? ptr.item).map (fun x => x.1.getSize x.2) = some n)
    (hle : n ≤ ptr.offset) : ¬ ctx.AnsweredInside := by
  intro h
  obtain ⟨ptr', hptr', it, children, hfind, -, hoffset⟩ := h pos hlt
  rw [hptr'] at hptr
  obtain rfl := Option.some.inj hptr
  rw [hfind] at hsize
  obtain rfl := Option.some.inj hsize
  exact Nat.not_lt.mpr hle hoffset

/-- The table has the place of the bytes that follow it in the map, after these steps
and when the parser makes them. -/
theorem emptyLinkFile_not_answeredInside :
    (EveryStep Context.parseStep Context.HeadersAlone (.root emptyLinkSource) emptyLinkOps ∧
      run Context.parseStep (.root emptyLinkSource) emptyLinkOps = .ok emptyLinkFile ∧
      ¬ emptyLinkFile.AnsweredInside) ∧
    ∃ ctx, (Context.parseStep (.root emptyLinkSource) (.split 0 0x44 .eof) >>= fun ctx =>
        Stcm.CollectionLinkHeaderItem.createAndInsert ctx { item := 0, offset := 0 }) = .ok ctx ∧
      ¬ ctx.AnsweredInside := by
  refine ⟨⟨by decide +kernel, rfl, ?_⟩, ?_⟩
  · exact @not_answeredInside _ 0x42 { item := 3, offset := 0 } 0
      (by decide +kernel) (by decide +kernel) (by decide +kernel) (Nat.le_refl _)
  · obtain ⟨ctx, hctx, hsees⟩ := @exists_ok_of_toOption _ _ _
      (Context.parseStep (.root emptyLinkSource) (.split 0 0x44 .eof) >>= fun ctx =>
        Stcm.CollectionLinkHeaderItem.createAndInsert ctx { item := 0, offset := 0 })
      (fun ctx : Context => (ctx.getSize, (ctx.getPointer 0x42).toOption,
        (ctx.find? 3).map fun x => x.1.getSize x.2))
      (0x44, some { item := 3, offset := 0 }, some 0) (by decide +kernel)
    simp only [Prod.mk.injEq] at hsees
    obtain ⟨hsize, hptr, hempty⟩ := hsees
    exact ⟨ctx, hctx, not_answeredInside (by rw [hsize]; decide) hptr hempty (Nat.le_refl _)⟩

/-- A record of data of four bytes, and two bytes behind it. -/
def dataSource : Source := .fromMemory (List.replicate 22 0)

/-- The data gets its bytes, and a table without entries is put at the end of the file. -/
def dataOps : List ParseOp :=
  [.split 0 22 .eof, .split 0 0 (.data { type := 0, offsetUnit := 0, field8 := 1 }),
    .moveNextToChild 2 4, .getLabelTo 18, .replace 1 (.collectionLink []), .getLabelTo 21]

def dataFile : Context :=
  ((run Context.parseStep (.root dataSource) dataOps).toOption).getD .empty

theorem dataFile_answeredInside : dataFile.AnsweredInside :=
  @Context.run_answeredInside dataSource dataOps dataFile (by decide +kernel) (by decide +kernel)
    rfl

end Neptools

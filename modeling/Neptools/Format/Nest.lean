import Neptools.Format.SplitDump

/-!
Moving the first bytes of a raw item into the item before it moves no label:
every position that is asked for is answered as before.
-/

namespace Neptools

open Lib

theorem LabelView.Extends.trans {counts : Prop} {v v₁ v' : LabelView} (h : v.Extends counts v₁)
    (h' : v₁.Extends counts v') : v.Extends counts v' where
  toFilePos l pos hl := h'.toFilePos l pos (h.toFilePos l pos hl)
  exportCount l n hl := h'.exportCount l n (h.exportCount l n hl)
  linkCount l n hl := h'.linkCount l n (h.linkCount l n hl)
  expansionCount hcounts l n hl := h'.expansionCount hcounts l n (h.expansionCount hcounts l n hl)

theorem LabelView.Extends.weaken {counts : Prop} {v v' : LabelView} (h : v.Extends counts v') :
    v.Extends False v' :=
  { h with expansionCount := fun hfalse => hfalse.elim }

namespace Context

section

variable {ctx ctx₁ ctx' : Context} {k : Hole Item} {x next n : Item} {cs : ItemList} {src : Source}
  {p : Parts}

/-- The item that has a new child. -/
theorem NestedAt.mem_nested (h : ctx.NestedAt ctx₁ ctx' k x cs next n src p) :
    (x, cs ++ .single (p.newItem next 0 n) .nil) ∈ ctx'.children.subtrees := by
  rw [h.nested, Hole.mem_subtrees_plug]
  exact .inl List.mem_cons_self

/-- All items are still there. -/
theorem NestedAt.mem_subtrees (h : ctx.NestedAt ctx₁ ctx' k x cs next n src p) {it : Item}
    {children : ItemList} (hmem : (it, children) ∈ ctx₁.children.subtrees) :
    ∃ children', (it, children') ∈ ctx'.children.subtrees := by
  rw [h.split_children, Hole.mem_subtrees_plug] at hmem
  rw [h.nested]
  rcases hmem with hmem | haside | ⟨⟨a, k'⟩, hspine, heq⟩
  · rcases List.mem_cons.mp hmem with heq | hmem
    · cases heq
      exact ⟨_, Hole.mem_subtrees_plug.mpr (.inl List.mem_cons_self)⟩
    · refine ⟨children, Hole.mem_subtrees_plug.mpr (.inl (List.mem_cons_of_mem _ ?_))⟩
      rwa [Forest.subtrees_append, Forest.subtrees, List.append_nil]
  · exact ⟨children, Hole.mem_subtrees_plug.mpr (.inr (.inl haside))⟩
  · cases heq
    exact ⟨_, Hole.mem_subtrees_plug.mpr (.inr (.inr ⟨_, hspine, rfl⟩))⟩

theorem NestedAt.target (h : ctx.NestedAt ctx₁ ctx' k x cs next n src p)
    (hctx' : ctx'.Consistent) {l : LabelPtr} {it : Item} {children : ItemList} {offset : Nat}
    (htarget : ctx₁.target l = .ok (it, children, offset)) :
    ∃ children', ctx'.target l = .ok (it, children', offset) := by
  obtain ⟨ptr, hptr, hfind, hoffset⟩ := target_eq_ok htarget
  obtain ⟨hmem, hid⟩ := find?_some hfind
  obtain ⟨children', hmem'⟩ := h.mem_subtrees hmem
  have hlabels : ctx'.labels = ctx₁.labels := by rw [h.nested]
  refine ⟨children', ?_⟩
  rw [target_of_find? (hlabels ▸ hptr) (hid ▸ hctx'.find?_of_mem hmem'), hoffset]

/-- Only the number of the children is another one. -/
theorem NestedAt.extends (h : ctx.NestedAt ctx₁ ctx' k x cs next n src p) (hctx : ctx.Consistent)
    (hctx' : ctx'.Consistent) (hbody : next.body = .raw src)
    (hn : ({ ctx with nextId := ctx.nextId + 1 } : Context).FreshList (.single n .nil)) :
    ctx.view.Extends False ctx'.view := by
  have hbehind : Context.children { ctx with nextId := ctx.nextId + 1 } =
      (k.behind x cs).plug (.single next .nil) := by
    rw [Hole.plug_behind]
    exact h.children
  refine (h.split.extends hctx.create hbehind hbody hn).weaken.trans ?_
  refine extends_of_targets (fun l pos hpos => ?_) fun l it children htarget _ => ?_
  · obtain ⟨⟨it, children, offset⟩, htarget, hpos⟩ := bind_eq_ok.mp hpos
    cases hpos
    obtain ⟨children', htarget'⟩ := h.target hctx' htarget
    rw [toFilePos, htarget']
    rfl
  · obtain ⟨children', htarget'⟩ := h.target hctx' htarget
    exact ⟨it, children', htarget', rfl, False.elim⟩

end

/-- The new child of an item is the beginning of what followed it. -/
theorem Consistent.moveNextToChild_spec {ctx ctx' : Context} (h : ctx.Consistent) {id size : Nat}
    {it : Item} {children : ItemList} (hfind : ctx.find? id = some (it, children))
    (hkind : it.body.hasChildren = true) (hmove : ctx.moveNextToChild id size = .ok ctx') :
    ∃ next src sub child, ctx.children.next? (isItem id) = some (next, .nil) ∧
      next.body = .raw src ∧ size ≤ src.size ∧ sub.bytes = Lib.slice src.bytes 0 size ∧
      child.body = .raw sub ∧ ctx'.Consistent ∧
      ctx'.find? id = some (it, children ++ .single child .nil) ∧
      ctx.view.Extends False ctx'.view := by
  have hctx' : ctx'.Consistent := by
    have hnest : ctx.nest id size = .ok ctx' := by
      rw [Context.nest, get_of_find? hfind, ok_bind]
      dsimp only
      rw [require_of hkind, ok_bind, hmove]
    exact h.nest hnest
  obtain ⟨ctx₁, k, x, cs, next, src, sub, p, rfl, hnext, hbody, hle, hbytes, -, hat⟩ :=
    h.moveNextToChild_ok hmove
  have hx : (x, cs) ∈ ctx.children.subtrees := by
    rw [hat.children, Hole.mem_subtrees_plug]
    exact .inl List.mem_cons_self
  cases (h.find?_of_mem hx).symm.trans hfind
  refine ⟨next, src, sub, _, hnext, hbody, hle, hbytes, rfl, hctx',
    hctx'.find?_of_mem hat.mem_nested, hat.extends h hctx' hbody ⟨List.nodup_singleton _, ?_⟩⟩
  intro a ha
  rw [List.mem_singleton.mp ha]
  exact ⟨Nat.lt_succ_self _, fun it' hit' => Nat.ne_of_lt (h.numbered it' hit')⟩

end Context

end Neptools

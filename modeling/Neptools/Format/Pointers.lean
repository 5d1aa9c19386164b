import Neptools.Format.Keeps

/-!
The map from positions to items, while a file is read: each entry leads to the item
at its position, and there is one for the start of the file. So every position leads
to an item.
-/

namespace Neptools

open Lib

namespace PointerMap

variable {pmap : PointerMap} {pos id : Nat}

theorem lookup_removed {it : Item} :
    (removed pmap it).lookup pos = some id ↔
      pmap.lookup pos = some id ∧ ¬ (it.position = pos ∧ it.id = id) := by
  rw [removed]
  split
  · rename_i hit
    by_cases hpos : pos = it.position
    · subst hpos
      rw [AList.lookup_erase, hit]
      refine iff_of_false (fun h => nomatch h) fun ⟨heq, hnot⟩ => ?_
      exact hnot ⟨rfl, Option.some.inj heq⟩
    · rw [AList.lookup_erase_ne hpos]
      exact ⟨fun h => ⟨h, fun hit => hpos hit.1.symm⟩, And.left⟩
  · rename_i hit
    refine ⟨fun h => ⟨h, ?_⟩, And.left⟩
    rintro ⟨rfl, rfl⟩
    exact hit h

theorem lookup_removedAll {f : ItemList} :
    (removedAll pmap f).lookup pos = some id ↔
      pmap.lookup pos = some id ∧ ∀ it ∈ f.nodes, ¬ (it.position = pos ∧ it.id = id) := by
  rw [removedAll]
  induction f.nodes generalizing pmap with
  | nil => exact (and_iff_left fun _ hit => nomatch hit).symm
  | cons it its ih =>
      rw [List.foldl_cons, ih, lookup_removed, List.forall_mem_cons, and_assoc]

theorem lookup_emplace {p i : Nat} :
    (emplace pmap p i).lookup pos = some id ↔
      pmap.lookup pos = some id ∨ pos = p ∧ id = i ∧ p ∉ pmap := by
  rw [emplace]
  split
  · rename_i hmem
    exact (or_iff_left fun h => h.2.2 hmem).symm
  · rename_i hnot
    by_cases hpos : pos = p
    · subst hpos
      rw [AList.lookup_insert, AList.lookup_eq_none.mpr hnot]
      constructor
      · intro h
        exact .inr ⟨rfl, (Option.some.inj h).symm, hnot⟩
      · rintro (h | ⟨-, rfl, -⟩)
        · cases h
        · rfl
    · rw [AList.lookup_insert_ne hpos]
      exact (or_iff_left fun h => hpos h.1).symm

theorem lookup_emplaceAll_of_some {basePos offset : Nat} {seq : List Context.Piece}
    (h : pmap.lookup pos = some id) :
    (Context.emplaceAll basePos offset seq pmap).lookup pos = some id := by
  induction seq generalizing offset pmap with
  | nil => exact h
  | cons el seq ih => exact ih (lookup_emplace.mpr (.inl h))

end PointerMap

namespace Context

/-- The map is in order. -/
structure Pointed (ctx : Context) : Prop where
  first : ∃ it, ctx.children.nodes.head? = some it ∧ it.position = 0 ∧
    ctx.pmap.lookup 0 = some it.id
  entries : ∀ pos id, ctx.pmap.lookup pos = some id →
    ∃ it ∈ ctx.children.nodes, it.id = id ∧ it.position = pos

variable {ctx ctx' : Context}

theorem Pointed.getPointer (h : ctx.Pointed) (hctx : ctx.Consistent) (pos : Nat) :
    ∃ ptr, ctx.getPointer pos = .ok ptr := by
  obtain ⟨_, -, -, hzero⟩ := h.first
  have hmem : 0 ∈ ctx.pmap.keys.filter (· ≤ pos) :=
    List.mem_filter.mpr ⟨AList.mem_keys.mp (AList.lookup_isSome.mp (by rw [hzero]; rfl)),
      decide_eq_true (Nat.zero_le pos)⟩
  rw [Context.getPointer, PointerMap.floor?]
  cases hmax : (ctx.pmap.keys.filter (· ≤ pos)).max? with
  | none =>
      rw [List.max?_eq_none_iff.mp hmax] at hmem
      cases hmem
  | some key =>
      have hkey := (List.mem_filter.mp (List.max?_mem hmax)).1
      obtain ⟨id, hid⟩ := Option.isSome_iff_exists.mp
        (AList.lookup_isSome.mpr (AList.mem_keys.mpr hkey))
      obtain ⟨it, hit, rfl, rfl⟩ := h.entries key id hid
      obtain ⟨children, hsub⟩ := Forest.mem_nodes.mp hit
      simp only [hid, get_of_find? (hctx.find?_of_mem hsub), ok_bind, require_of, pure_eq_ok]
      exact ⟨_, rfl⟩

/-! A split. -/

section

variable {k : Hole Item} {r n : Item} {src : Source} {pos : Nat} {p : Parts}

/-- An entry leads to what was there before, apart from `r`, or to one of the parts. -/
theorem SplitAt.lookup (h : ctx.SplitAt ctx' k r src pos n .nil p)
    (hne : ctx.pmap.keys.isEmpty = false) {key id : Nat} (hl : ctx'.pmap.lookup key = some id) :
    (ctx.pmap.lookup key = some id ∧ ¬ (r.position = key ∧ r.id = id)) ∨
      ∃ it ∈ (p.items ctx.nextId r src.size pos n .nil).nodes, it.id = id ∧ it.position = key := by
  by_cases hwhole : pos = 0 ∧ src.size - n.getSize .nil - pos = 0
  · obtain ⟨rfl, hrest⟩ := hwhole
    rw [h.replaced rfl hrest, replacedPmap, PointerMap.lookup_removedAll] at hl
    obtain ⟨hl, hr⟩ := hl
    split at hl
    · by_cases hkey : key = r.position
      · subst hkey
        rw [AList.lookup_insert] at hl
        refine .inr ⟨p.newItem r 0 n, ?_, Option.some.inj hl, rfl⟩
        rw [Parts.items, Parts.frontItems, if_pos rfl]
        exact List.mem_cons_self
      · rw [AList.lookup_insert_ne hkey] at hl
        exact .inl ⟨hl, hr r List.mem_cons_self⟩
    · exact .inl ⟨hl, hr r List.mem_cons_self⟩
  · have hold (hl : (ctx.pmap.removedAll (.single r .nil)).lookup key = some id) :
        ctx.pmap.lookup key = some id ∧ ¬ (r.position = key ∧ r.id = id) :=
      (PointerMap.lookup_removedAll.mp hl).imp_right fun hr => hr r List.mem_cons_self
    rw [h.sliced hwhole hne] at hl
    rw [Parts.items, Parts.frontItems, Parts.backItems]
    by_cases hpos : pos = 0
    · have hrest : ¬ src.size - n.getSize .nil - pos = 0 := fun h => hwhole ⟨hpos, h⟩
      simp only [splitSeq, if_pos hpos, if_neg hrest, List.nil_append, emplaceAll] at hl ⊢
      rcases PointerMap.lookup_emplace.mp hl with hl | ⟨rfl, rfl, -⟩
      · rcases PointerMap.lookup_emplace.mp hl with hl | ⟨rfl, rfl, -⟩
        · exact .inl (hold hl)
        · exact .inr ⟨p.newItem r pos n, List.mem_cons_self, rfl, by rw [hpos]; rfl⟩
      · exact .inr ⟨_, List.mem_cons_of_mem _ List.mem_cons_self, rfl, rfl⟩
    · simp only [splitSeq, if_neg hpos] at hl ⊢
      split at hl
      · rename_i hrest
        simp only [List.cons_append, List.nil_append, emplaceAll, if_pos hrest] at hl ⊢
        rcases PointerMap.lookup_emplace.mp hl with hl | ⟨rfl, rfl, -⟩
        · rcases PointerMap.lookup_emplace.mp hl with hl | ⟨rfl, rfl, -⟩
          · exact .inl (hold hl)
          · exact .inr ⟨_, List.mem_cons_self, rfl, rfl⟩
        · exact .inr ⟨p.newItem r pos n, List.mem_cons_of_mem _ List.mem_cons_self, rfl, rfl⟩
      · rename_i hrest
        simp only [List.cons_append, List.nil_append, emplaceAll, if_neg hrest] at hl ⊢
        rcases PointerMap.lookup_emplace.mp hl with hl | ⟨rfl, rfl, -⟩
        · rcases PointerMap.lookup_emplace.mp hl with hl | ⟨rfl, rfl, -⟩
          · rcases PointerMap.lookup_emplace.mp hl with hl | ⟨rfl, rfl, -⟩
            · exact .inl (hold hl)
            · exact .inr ⟨_, List.mem_cons_self, rfl, rfl⟩
          · exact .inr ⟨p.newItem r pos n, List.mem_cons_of_mem _ List.mem_cons_self, rfl, rfl⟩
        · exact .inr ⟨_, List.mem_cons_of_mem _ (List.mem_cons_of_mem _ List.mem_cons_self), rfl,
            rfl⟩

theorem SplitAt.lookup_of_ne (h : ctx.SplitAt ctx' k r src pos n .nil p)
    (hne : ctx.pmap.keys.isEmpty = false) {key id : Nat} (hl : ctx.pmap.lookup key = some id)
    (hid : id ≠ r.id) : ctx'.pmap.lookup key = some id := by
  have hr : ∀ it ∈ (Forest.single r .nil).nodes, ¬ (it.position = key ∧ it.id = id) :=
    fun it hit heq => hid (List.mem_singleton.mp hit ▸ heq.2.symm)
  by_cases hwhole : pos = 0 ∧ src.size - n.getSize .nil - pos = 0
  · rw [h.replaced hwhole.1 hwhole.2, replacedPmap, PointerMap.lookup_removedAll]
    refine ⟨?_, hr⟩
    split
    · rename_i hposition
      have hkey : key ≠ r.position := fun heq => by
        rw [heq] at hl
        exact hid (Option.some.inj (hl.symm.trans hposition))
      rwa [AList.lookup_insert_ne hkey]
    · exact hl
  · rw [h.sliced hwhole hne]
    exact PointerMap.lookup_emplaceAll_of_some (PointerMap.lookup_removedAll.mpr ⟨hl, hr⟩)

/-- The first of the parts takes the place of `r` in the map. -/
theorem SplitAt.lookup_first (h : ctx.SplitAt ctx' k r src pos n .nil p)
    (hne : ctx.pmap.keys.isEmpty = false) (hl : ctx.pmap.lookup r.position = some r.id)
    (hn : n.id ≠ r.id) :
    ∃ it, (p.items ctx.nextId r src.size pos n .nil).nodes.head? = some it ∧
      it.position = r.position ∧ ctx'.pmap.lookup r.position = some it.id := by
  by_cases hwhole : pos = 0 ∧ src.size - n.getSize .nil - pos = 0
  · obtain ⟨rfl, hrest⟩ := hwhole
    rw [h.replaced rfl hrest, replacedPmap, if_pos hl, Parts.items, Parts.frontItems, if_pos rfl]
    refine ⟨p.newItem r 0 n, rfl, rfl, PointerMap.lookup_removedAll.mpr ⟨?_, ?_⟩⟩
    · exact AList.lookup_insert _
    · exact fun it hit heq => hn (List.mem_singleton.mp hit ▸ heq.2.symm)
  · have hfree : r.position ∉ ctx.pmap.removedAll (.single r .nil) := fun hmem => by
      obtain ⟨id, hid⟩ := Option.isSome_iff_exists.mp (AList.lookup_isSome.mpr hmem)
      obtain ⟨hl', hr⟩ := PointerMap.lookup_removedAll.mp hid
      exact hr r List.mem_cons_self ⟨rfl, Option.some.inj (hl.symm.trans hl')⟩
    rw [h.sliced hwhole hne, Parts.items, Parts.frontItems, splitSeq]
    by_cases hpos : pos = 0
    · simp only [if_pos hpos, List.nil_append, emplaceAll]
      refine ⟨p.newItem r pos n, rfl, by rw [hpos]; rfl, ?_⟩
      exact PointerMap.lookup_emplaceAll_of_some
        (PointerMap.lookup_emplace.mpr (.inr ⟨rfl, rfl, hfree⟩))
    · simp only [if_neg hpos, List.cons_append, emplaceAll]
      refine ⟨{ r with labels := p.frontLabels, body := .raw p.front }, rfl, rfl, ?_⟩
      exact PointerMap.lookup_emplaceAll_of_some
        (PointerMap.lookup_emplace.mpr (.inr ⟨rfl, rfl, hfree⟩))

end

/-! Each step. -/

theorem Pointed.keys (h : ctx.Pointed) : ctx.pmap.keys.isEmpty = false := by
  obtain ⟨_, -, -, hzero⟩ := h.first
  have hmem : 0 ∈ ctx.pmap.keys := AList.mem_keys.mp (AList.lookup_isSome.mp (by rw [hzero]; rfl))
  exact List.isEmpty_eq_false_iff_exists_mem.mpr ⟨0, hmem⟩

theorem pointed_root (src : Source) : (root src).Pointed where
  first := ⟨_, rfl, rfl, rfl⟩
  entries pos id h := by
    have hpmap : (root src).pmap = (∅ : PointerMap).insert 0 0 := rfl
    rw [hpmap] at h
    by_cases hpos : pos = 0
    · subst hpos
      rw [AList.lookup_insert] at h
      exact ⟨_, List.mem_cons_self, Option.some.inj h, rfl⟩
    · rw [AList.lookup_insert_ne hpos] at h
      cases h

theorem Relabels.pointed (h : ctx.Relabels ctx') (hpointed : ctx.Pointed) : ctx'.Pointed where
  first := by
    obtain ⟨it, hhead, hpos, hzero⟩ := hpointed.first
    have hplain := congrArg (fun f => (Forest.nodes f).head?) h.plain
    simp only [Forest.nodes_map, List.head?_map, hhead] at hplain
    obtain ⟨it', hhead', heq⟩ := Option.map_eq_some_iff.mp hplain
    rw [h.pmap, hzero]
    exact ⟨it', hhead', (congrArg Item.position heq :).trans hpos,
      congrArg some (congrArg Item.id heq.symm :)⟩
  entries pos id hid := by
    rw [h.pmap] at hid
    obtain ⟨it, hit, rfl, rfl⟩ := hpointed.entries pos id hid
    obtain ⟨it', hit', heq⟩ := exists_of_plain h.plain hit
    exact ⟨it', hit', (congrArg Item.id heq :), (congrArg Item.position heq :)⟩

/-- Only the entries for what is in the hole can change. -/
theorem Pointed.splitAt (h : ctx.Pointed) {k : Hole Item} {r n : Item} {src : Source} {pos : Nat}
    {p : Parts} (hk : ctx.children = k.plug (.single r .nil)) (hapart : Apart r.id k)
    (hn : n.id ≠ r.id) (hsplit : ctx.SplitAt ctx' k r src pos n .nil p) : ctx'.Pointed where
  first := by
    obtain ⟨it, hhead, hpos, hzero⟩ := h.first
    rw [hk, Hole.nodes_plug, List.append_assoc] at hhead
    rw [hsplit.children, Hole.nodes_plug, List.append_assoc]
    cases hbefore : k.before with
    | nil =>
        rw [hbefore] at hhead
        cases hhead
        rw [← hpos] at hzero
        obtain ⟨it', hhead', hpos', hlookup⟩ := hsplit.lookup_first h.keys hzero hn
        refine ⟨it', ?_, hpos'.trans hpos, hpos ▸ hlookup⟩
        rw [List.nil_append, List.head?_append, hhead']
        rfl
    | cons a as =>
        rw [hbefore] at hhead
        obtain rfl : a = it := Option.some.inj hhead
        refine ⟨a, rfl, hpos, hsplit.lookup_of_ne h.keys hzero ?_⟩
        exact of_decide_eq_false (hapart.before a (hbefore ▸ List.mem_cons_self))
  entries key id hid := by
    rw [hsplit.children]
    rcases hsplit.lookup h.keys hid with ⟨hold, hr⟩ | ⟨it, hit, hid⟩
    · obtain ⟨it, hit, rfl, rfl⟩ := h.entries key id hold
      rw [hk, mem_plug] at hit
      refine ⟨it, mem_plug.mpr (.inl (hit.resolve_right fun hin => ?_)), rfl, rfl⟩
      rw [List.mem_singleton.mp hin] at hr
      exact hr ⟨rfl, rfl⟩
    · exact ⟨it, mem_plug.mpr (.inr hit), hid⟩

theorem Pointed.split2 (h : ctx.Pointed) (hctx : ctx.Consistent) {id pos : Nat} {n : Item}
    (hn : ctx.Fresh n) (hsplit : ctx.split2 id pos n .nil = .ok ctx') : ctx'.Pointed := by
  obtain ⟨⟨r, children, src⟩, hraw, -⟩ := bind_eq_ok.mp hsplit
  obtain ⟨rfl, rfl, hbody, k, hk, hapart⟩ := hctx.registers.raw_hole hraw
  have hr : r ∈ ctx.children.nodes := by
    rw [hk, mem_plug]
    exact .inr List.mem_cons_self
  have hne := hn.new r hr
  obtain ⟨p, hp⟩ := split2_ok hk hapart hbody (hctx.labelled r hr)
    (fun it hit => by
      rw [List.mem_singleton.mp hit]
      exact decide_eq_false hne.symm) (hctx.numbered r hr) hsplit
  exact h.splitAt hk hapart hne.symm hp

theorem Pointed.create (h : ctx.Pointed) :
    ({ ctx with nextId := ctx.nextId + 1 } : Context).Pointed := ⟨h.first, h.entries⟩

/-- The item that becomes a child is not the first one. -/
theorem Pointed.moveNextToChild (h : ctx.Pointed) (hctx : ctx.Consistent) {id size : Nat}
    (hmove : ctx.moveNextToChild id size = .ok ctx') : ctx'.Pointed := by
  obtain ⟨ctx₁, k, x, cs, next, src, sub, p, -, -, -, -, -, hctx₁, hat⟩ :=
    hctx.moveNextToChild_ok hmove
  have hbehind : ctx.children = (k.behind x cs).plug (.single next .nil) := by
    rw [Hole.plug_behind, hat.children]
  have hnext : next ∈ ctx.children.nodes := by
    rw [hbehind, mem_plug]
    exact .inr List.mem_cons_self
  have hpointed₁ := h.create.splitAt hbehind (hctx.registers.apart hbehind List.mem_cons_self)
    (Nat.ne_of_gt (hctx.numbered next hnext)) hat.split
  have hpair := hat.split_children
  rw [hat.nested]
  generalize p.newItem next 0 _ = child at hpair ⊢
  generalize p.backItems (ctx.nextId + 1) next src.size 0 _ = back at hpair ⊢
  have hnodes : ((k.followed back).plug (.single x (cs ++ .single child .nil))).nodes =
      ctx₁.children.nodes := by
    rw [hpair, Hole.nodes_plug, Hole.nodes_plug, Forest.single, Forest.nodes, Forest.nodes,
      Forest.nodes_append, Forest.nodes, List.append_nil]
  obtain ⟨it, hhead, hpos, hzero⟩ := hpointed₁.first
  have hother : it.id ≠ child.id := by
    have hdistinct := hctx₁.distinct
    rw [hpair, Hole.nodes_plug, Forest.nodes, nodes_single] at hhead hdistinct
    cases hbefore : (k.followed back).before with
    | nil =>
        rw [hbefore] at hhead hdistinct
        obtain rfl : x = it := Option.some.inj hhead
        refine fun heq => (List.nodup_cons.mp hdistinct).1 (heq ▸ List.mem_map_of_mem ?_)
        exact List.mem_append_left _ (List.mem_append_right _ List.mem_cons_self)
    | cons a as =>
        rw [hbefore] at hhead hdistinct
        obtain rfl : a = it := Option.some.inj hhead
        refine fun heq => (List.nodup_cons.mp hdistinct).1 (heq ▸ List.mem_map_of_mem ?_)
        exact List.mem_append_left _ (List.mem_append_right _
          (List.mem_cons_of_mem _ (List.mem_append_right _ List.mem_cons_self)))
  refine ⟨⟨it, hnodes.symm ▸ hhead, hpos, PointerMap.lookup_removedAll.mpr ⟨hzero, ?_⟩⟩,
    fun key i hi => ?_⟩
  · exact fun c hc heq => hother (List.mem_singleton.mp hc ▸ heq.2.symm)
  · change ∃ c ∈ ((k.followed back).plug (.single x (cs ++ .single child .nil))).nodes, _
    rw [hnodes]
    exact hpointed₁.entries key i (PointerMap.lookup_removedAll.mp hi).1

/-- The children of an item that is replaced are not in the map any more. -/
theorem Pointed.replace (h : ctx.Pointed) (hctx : ctx.Consistent) {id : Nat} {n : Item}
    (hn : ∀ it ∈ ctx.children.nodes, it.id ≠ n.id) (hreplace : ctx.replace id n .nil = .ok ctx') :
    ctx'.Pointed := by
  obtain ⟨⟨it, children⟩, hget, -⟩ := bind_eq_ok.mp hreplace
  obtain ⟨rfl, k, hk, hapart⟩ := hctx.registers.exists_hole (get_eq_ok hget)
  obtain ⟨-, -, -, rfl⟩ := (replace_eq_ok hk hapart).mp hreplace
  have hmid : ∀ c ∈ (Forest.single it children).nodes, c.id ≠ n.id := fun c hc => hn c (by
    rw [hk, mem_plug]
    exact .inr hc)
  refine ⟨?_, fun key i hi => ?_⟩
  · obtain ⟨first, hhead, hpos, hzero⟩ := h.first
    have hdistinct := hctx.distinct
    rw [hk, Hole.nodes_plug, List.append_assoc] at hhead hdistinct
    rw [Hole.nodes_plug, List.append_assoc, replacedPmap]
    cases hbefore : k.before with
    | nil =>
        rw [hbefore, List.nil_append] at hhead
        obtain rfl : it = first := Option.some.inj hhead
        refine ⟨replacement it n, rfl, hpos, PointerMap.lookup_removedAll.mpr ⟨?_, ?_⟩⟩
        · rw [hpos, if_pos hzero]
          exact AList.lookup_insert _
        · exact fun c hc heq => hmid c hc heq.2
    | cons a as =>
        rw [hbefore] at hhead hdistinct
        obtain rfl : a = first := Option.some.inj hhead
        have hother : ∀ c ∈ (Forest.single it children).nodes, c.id ≠ a.id := fun c hc heq => by
          refine (List.nodup_cons.mp hdistinct).1 (heq ▸ List.mem_map_of_mem ?_)
          exact List.mem_append_right _ (List.mem_append_left _ hc)
        refine ⟨a, rfl, hpos, PointerMap.lookup_removedAll.mpr ⟨?_, ?_⟩⟩
        · split
          · rename_i hit
            have hkey : 0 ≠ it.position := fun heq => by
              rw [← heq, hzero] at hit
              exact hother it List.mem_cons_self (Option.some.inj hit).symm
            rwa [AList.lookup_insert_ne hkey]
          · exact hzero
        · exact fun c hc heq => hother c hc heq.2
  · obtain ⟨hi, hgone⟩ := PointerMap.lookup_removedAll.mp hi
    have hold (hi : ctx.pmap.lookup key = some i) :
        ∃ c ∈ (k.plug (.single (replacement it n) .nil)).nodes, c.id = i ∧ c.position = key := by
      obtain ⟨c, hc, rfl, rfl⟩ := h.entries key i hi
      rw [hk, mem_plug] at hc
      exact ⟨c, mem_plug.mpr (.inl (hc.resolve_right fun hin => hgone c hin ⟨rfl, rfl⟩)), rfl, rfl⟩
    split at hi
    · by_cases hkey : key = it.position
      · subst hkey
        rw [AList.lookup_insert] at hi
        exact ⟨replacement it n, mem_plug.mpr (.inr List.mem_cons_self), Option.some.inj hi, rfl⟩
      · rw [AList.lookup_insert_ne hkey] at hi
        exact hold hi
    · exact hold hi

theorem Pointed.parseStep {op : ParseOp} (h : ctx.Pointed) (hctx : ctx.Consistent)
    (hstep : ctx.parseStep op = .ok ctx') : ctx'.Pointed := by
  cases op with
  | getLabelTo pos =>
      obtain ⟨y, hlabel, hstep⟩ := bind_eq_ok.mp hstep
      cases hstep
      exact (relabeling_getLabelTo ctx _ _ _ hlabel).pointed h
  | getLabelToNamed pos name =>
      obtain ⟨y, hlabel, hstep⟩ := bind_eq_ok.mp hstep
      cases hstep
      exact (relabels_getLabelToNamed hlabel).pointed h
  | createLabelFallback name ptr =>
      obtain ⟨x, hget, hstep⟩ := bind_eq_ok.mp hstep
      cases hstep
      exact (relabels_createLabelFallback name hget).pointed h
  | create body =>
      cases hstep
      exact h.create
  | split id pos body => exact h.create.split2 hctx.create (hctx.fresh_create body) hstep
  | splitRaw id offset size =>
      obtain ⟨y, hsplit, hstep⟩ := bind_eq_ok.mp hstep
      cases hstep
      obtain ⟨r, src, sub, -, -, -, -, -, hsplit⟩ := hctx.registers.splitRaw_ok hsplit
      exact h.create.split2 hctx.create
        ⟨Nat.lt_succ_self _, fun it hit => Nat.ne_of_lt (hctx.numbered it hit)⟩ hsplit
  | replace id body =>
      exact h.create.replace hctx.create (hctx.fresh_create body).new hstep
  | moveNextToChild id size =>
      obtain ⟨_, -, hstep⟩ := bind_eq_ok.mp hstep
      obtain ⟨_, -, hstep⟩ := bind_eq_ok.mp hstep
      exact h.moveNextToChild hctx hstep
  | expansions id pos size =>
      obtain ⟨ctx₁, hsplit, hstep⟩ := bind_eq_ok.mp hstep
      obtain ⟨_, -, hstep⟩ := bind_eq_ok.mp hstep
      obtain ⟨_, -, hstep⟩ := bind_eq_ok.mp hstep
      have hctx₁ := hctx.splitCreate (fun hheader => by cases hheader) hsplit
      have h₁ := h.create.split2 hctx.create (hctx.fresh_create .expansions) hsplit
      exact h₁.moveNextToChild hctx₁ hstep

theorem UnderParse.pointed (h : ctx.UnderParse) : ctx.Pointed := by
  obtain ⟨src, ops, halone, hrun⟩ := h
  have hboth := run_preserves_of_everyStep (I := fun ctx => ctx.Consistent ∧ ctx.Pointed) _
    (fun _ _ _ hs hop hstep => ⟨hs.1.parseStep hop hstep, hs.2.parseStep hs.1 hstep⟩)
    ⟨.root src, pointed_root src⟩ halone hrun
  exact hboth.2

/-- There is a label for every position, or one can be made. -/
theorem Pointed.getLabelTo (h : ctx.Pointed) (hctx : ctx.Consistent) (pos : Nat) :
    ∃ ctx' l, ctx.getLabelTo pos = .ok (ctx', l) := by
  obtain ⟨ptr, hptr⟩ := h.getPointer hctx pos
  obtain ⟨it, children, hfind, -⟩ := getPointer_ok hptr
  rw [Context.getLabelTo, hptr, ok_bind, getLabelToPtr, get_of_find? hfind, ok_bind]
  dsimp only
  split
  · exact ⟨_, _, rfl⟩
  · exact ⟨_, _, rfl⟩

end Context

end Neptools

import Neptools.Format.Consistent

/-!
Where the labels of a split item are afterwards. `Split2` slices the raw item into
up to three pieces; each label goes to the piece that has its place, and a new
item without bytes has the place where it is.
-/

namespace Neptools

open Lib

namespace Context

/-- A piece, with its beginning and its end in the item that is sliced. -/
structure Span where
  item : Nat
  start : Nat
  stop : Nat

def spans : Nat → List Piece → List Span
  | _, [] => []
  | offset, el :: seq => ⟨el.item.id, offset, el.pieceEnd⟩ :: spans el.pieceEnd seq

theorem item_of_mem_spans {offset : Nat} {seq : List Piece} {s : Span}
    (h : s ∈ spans offset seq) : s.item ∈ seq.map fun el => el.item.id := by
  induction seq generalizing offset with
  | nil => cases h
  | cons el seq ih =>
      cases List.mem_cons.mp h with
      | inl heq => exact heq ▸ List.mem_cons_self
      | inr hmem => exact List.mem_cons_of_mem _ (ih hmem)

theorem le_start_of_mem_spans {offset : Nat} {seq : List Piece}
    (hends : (offset :: seq.map Piece.pieceEnd).Pairwise (· ≤ ·)) {s : Span}
    (h : s ∈ spans offset seq) : offset ≤ s.start := by
  induction seq generalizing offset with
  | nil => cases h
  | cons el seq ih =>
      rw [List.map_cons] at hends
      cases List.mem_cons.mp h with
      | inl heq => exact heq ▸ Nat.le_refl _
      | inr hmem =>
          have hle := List.rel_of_pairwise_cons hends List.mem_cons_self
          exact Nat.le_trans hle (ih hends.of_cons hmem)

/-- A label of an item that is sliced at `basePos` is on the piece `s`, on no other
of `items`, and at its place in the file. -/
structure OnPiece (labels labels' : LabelsMap) (basePos : Nat) (items : List Item) (l : LabelPtr)
    (s : Span) : Prop where
  attached : labels'.lookup l = some (some { item := s.item, offset := labels.offset l - s.start })
  start_le : s.start ≤ labels.offset l
  le_stop : labels.offset l ≤ s.stop
  item_iff : ∀ it ∈ items, l ∈ it.labels ↔ it.id = s.item
  place : ∃ it ∈ items, it.id = s.item ∧
    it.position + (labels.offset l - s.start) = basePos + labels.offset l

theorem placed_ids {basePos offset : Nat} {seq : List Piece} {lss : List (List LabelPtr)}
    (hnil : ∀ el ∈ seq, el.children = .nil) {it : Item}
    (h : it ∈ (placed basePos offset seq lss).nodes) :
    it.id ∈ (seq.map fun el => el.item.id) ∧ ∀ l ∈ it.labels, l ∈ lss.flatten := by
  induction seq generalizing offset lss with
  | nil => cases h
  | cons el seq ih =>
      cases lss with
      | nil => cases h
      | cons ls lss =>
          rw [List.forall_mem_cons] at hnil
          rw [placed, Forest.nodes, hnil.1] at h
          rw [List.map_cons, List.flatten_cons]
          cases List.mem_cons.mp h with
          | inl heq =>
              subst heq
              exact ⟨List.mem_cons_self, fun l hl => List.mem_append_left _ hl⟩
          | inr hmem =>
              obtain ⟨hid, hlabels⟩ := ih hnil.2 hmem
              exact ⟨List.mem_cons_of_mem _ hid, fun l hl => List.mem_append_right _ (hlabels l hl)⟩

theorem exists_span (basePos : Nat) {labels : LabelsMap} {offset : Nat} {seq : List Piece}
    {lss : List (List LabelPtr)} {l : LabelPtr} (hwithin : Within labels offset seq lss)
    (hhomes : Homes labels offset seq lss) (hnodup : lss.flatten.Nodup)
    (hids : (seq.map fun el => el.item.id).Nodup) (hnil : ∀ el ∈ seq, el.children = .nil)
    (hends : (offset :: seq.map Piece.pieceEnd).Pairwise (· ≤ ·)) (hl : l ∈ lss.flatten) :
    ∃ s ∈ spans offset seq, OnPiece labels (dealt labels offset seq lss) basePos
        (placed basePos offset seq lss).nodes l s ∧
      ∀ z ∈ spans offset seq, z.start = z.stop → labels.offset l = z.start → s.start = s.stop := by
  induction seq generalizing labels offset lss with
  | nil =>
      cases lss with
      | nil => cases hl
      | cons ls lss => exact hwithin.elim
  | cons el seq ih =>
      cases lss with
      | nil => cases hl
      | cons ls lss =>
          obtain ⟨hls, hwithin⟩ := hwithin
          obtain ⟨htakes, hnot, hhomes⟩ := hhomes
          rw [List.flatten_cons] at hnodup hl
          rw [List.map_cons] at hids hends
          rw [List.forall_mem_cons] at hnil
          obtain ⟨-, hnodup, hdisjoint⟩ := List.nodup_append.mp hnodup
          obtain ⟨hid, hids⟩ := List.nodup_cons.mp hids
          have hkeep : ∀ l' ∈ lss.flatten,
              (moveLabels labels el.item.id offset ls).offset l' = labels.offset l' :=
            fun l' hl' => offset_moveLabels_of_not_mem fun h => hdisjoint l' h l' hl' rfl
          have hnodes : (placed basePos offset (el :: seq) (ls :: lss)).nodes =
              { el.item with position := basePos + offset, labels := ls } ::
                (placed basePos el.pieceEnd seq lss).nodes := by
            rw [placed, Forest.nodes, hnil.1]
            rfl
          rw [hnodes]
          cases List.mem_append.mp hl with
          | inl hl =>
              have hlater : l ∉ lss.flatten := fun h => hdisjoint l hl l h rfl
              refine ⟨_, List.mem_cons_self, ⟨?_, (hls l hl).1, (hls l hl).2, ?_, ?_⟩, ?_⟩
              · rw [dealt, dealt_of_not_mem hlater, lookup_moveLabels, if_pos hl]
              · intro it hit
                cases List.mem_cons.mp hit with
                | inl heq => exact heq ▸ iff_of_true hl rfl
                | inr hmem =>
                    obtain ⟨hitId, hitLabels⟩ := placed_ids hnil.2 hmem
                    refine iff_of_false (fun h => hlater (hitLabels l h)) fun h => hid ?_
                    exact (show it.id = el.item.id from h) ▸ hitId
              · refine ⟨_, List.mem_cons_self, rfl, ?_⟩
                have := (hls l hl).1
                change basePos + offset + (labels.offset l - offset) = _
                omega
              · intro z hz hzero hoff
                cases List.mem_cons.mp hz with
                | inl heq => exact heq ▸ hzero
                | inr hmem =>
                    have hge := le_start_of_mem_spans hends.of_cons hmem
                    cases htakes l hl with
                    | inl hlt => omega
                    | inr hend =>
                        change offset = el.pieceEnd
                        omega
          | inr hl =>
              have hls' : l ∉ ls := fun h => hdisjoint l h l hl rfl
              obtain ⟨s, hs, hon, hzeros⟩ := ih ((within_congr hkeep).mpr hwithin)
                ((homes_congr hkeep).mpr hhomes) hnodup hids hnil.2 hends.of_cons hl
              obtain ⟨hattached, hstart, hstop, hitems, it, hit, hitId, hpos⟩ := hon
              rw [hkeep l hl] at hattached hstart hstop hpos
              refine ⟨s, List.mem_cons_of_mem _ hs, ⟨hattached, hstart, hstop, ?_, it,
                List.mem_cons_of_mem _ hit, hitId, hpos⟩, ?_⟩
              · intro it' hit'
                cases List.mem_cons.mp hit' with
                | inl heq =>
                    have hne : el.item.id ≠ s.item := fun h => hid (h ▸ item_of_mem_spans hs)
                    exact heq ▸ iff_of_false hls' hne
                | inr hmem => exact hitems it' hmem
              · intro z hz hzero hoff
                cases List.mem_cons.mp hz with
                | inl heq =>
                    -- the head would have taken the label
                    subst heq
                    exact absurd (Or.inr ⟨hoff.trans hzero, hoff⟩) (hnot l hl)
                | inr hmem => exact hzeros z hmem hzero (hkeep l hl ▸ hoff)

theorem splitSeq_ids {nextId : Nat} {r n : Item} (pos : Nat) (src back : Source)
    (nchildren : ItemList) (hne : n.id ≠ r.id) (hr : r.id < nextId) (hn : n.id < nextId) :
    ((splitSeq nextId r src back pos n nchildren).map fun el => el.item.id).Nodup ∧
      ∀ el ∈ splitSeq nextId r src back pos n nchildren,
        el.item.id = r.id ∨ el.item.id = n.id ∨ el.item.id = nextId := by
  obtain ⟨rest, hrest⟩ : ∃ rest, src.size - n.getSize nchildren - pos = rest := ⟨_, rfl⟩
  have hr' := Nat.ne_of_lt hr
  have hn' := Nat.ne_of_lt hn
  simp only [splitSeq, hrest]
  by_cases hpos : pos = 0 <;> by_cases hzero : rest = 0 <;>
    simp [hpos, hzero, hne, hne.symm, hr', hn']

/-- Only the new item can be a piece without bytes. -/
theorem splitSeq_zero {nextId pos : Nat} {r n : Item} {src back : Source} {nchildren : ItemList}
    {s z : Span} (hs : s ∈ spans 0 (splitSeq nextId r src back pos n nchildren))
    (hz : z ∈ spans 0 (splitSeq nextId r src back pos n nchildren))
    (hszero : s.start = s.stop) (hzzero : z.start = z.stop) : z = s := by
  obtain ⟨rest, hrest⟩ : ∃ rest, src.size - n.getSize nchildren - pos = rest := ⟨_, rfl⟩
  have hnew : ∀ x ∈ spans 0 (splitSeq nextId r src back pos n nchildren), x.start = x.stop →
      x = ⟨n.id, pos, pos + n.getSize nchildren⟩ := by
    intro x hx hzero
    simp only [splitSeq, hrest] at hx
    by_cases hpos : pos = 0 <;> by_cases hfull : rest = 0 <;> simp [hpos, hfull, spans] at hx ⊢
    · exact hx
    · obtain rfl | rfl := hx
      · rfl
      · exact absurd hzero (show ¬ n.getSize nchildren = src.size by omega)
    · obtain rfl | rfl := hx
      · exact absurd hzero (show ¬ 0 = pos by omega)
      · rfl
    · obtain rfl | rfl | rfl := hx
      · exact absurd hzero (show ¬ 0 = pos by omega)
      · rfl
      · exact absurd hzero (show ¬ pos + n.getSize nchildren = src.size by omega)
  rw [hnew s hs hszero, hnew z hz hzzero]

theorem splitSeq_childless {nextId pos : Nat} {r n : Item} {src back : Source} :
    ∀ el ∈ splitSeq nextId r src back pos n .nil, el.children = .nil := by
  obtain ⟨rest, hrest⟩ : ∃ rest, src.size - n.getSize .nil - pos = rest := ⟨_, rfl⟩
  simp only [splitSeq, hrest]
  by_cases hpos : pos = 0 <;> by_cases hzero : rest = 0 <;> simp [hpos, hzero]

theorem splitSeq_offset_le {nextId pos : Nat} {r n : Item} {src back : Source}
    {nchildren : ItemList} (hlen : pos + n.getSize nchildren ≤ src.size) :
    (0 :: (splitSeq nextId r src back pos n nchildren).map Piece.pieceEnd).Pairwise (· ≤ ·) :=
  List.pairwise_cons.mpr ⟨fun _ _ => Nat.zero_le _, (splitSeq_ends nextId r back hlen).1⟩

/-- Slicing a raw item as `Split2` does deals out all of its labels: each is on one
piece, at its place in the file, and on the piece without bytes if there is one at
its place. -/
theorem slice_deals {ctx : Context} (h : ctx.Consistent) {id pos : Nat} {r n : Item}
    {children : ItemList} {src : Source} (back : Source)
    (hraw : ctx.getRaw id = .ok (r, children, src)) (hnew : ctx.Fresh n) (hnone : n.labels = [])
    (hlen : pos + n.getSize .nil ≤ src.size)
    (hlt : ∀ l ∈ r.labels, ctx.labels.offset l < src.size) :
    ∃ ctx', ctx.slice id (splitSeq ctx.nextId r src back pos n .nil) = .ok ctx' ∧
      (∀ l ∈ r.labels, ∃ s ∈ spans 0 (splitSeq ctx.nextId r src back pos n .nil),
        OnPiece ctx.labels ctx'.labels r.position ctx'.children.nodes l s ∧
          ∀ z ∈ spans 0 (splitSeq ctx.nextId r src back pos n .nil), z.start = z.stop →
            ctx.labels.offset l = z.start → z = s) ∧
      ∀ l, l ∉ r.labels → ctx'.labels.lookup l = ctx.labels.lookup l := by
  obtain ⟨-, rfl, hbody, k, hk, hapart⟩ := h.registers.raw_hole hraw
  have hr : r ∈ ctx.children.nodes := by
    rw [hk, mem_plug]
    exact .inr List.mem_cons_self
  have hlabelled := h.labelled r hr
  obtain ⟨hends, hend⟩ := splitSeq_ends ctx.nextId r back hlen
  obtain ⟨hids, hidOf⟩ := splitSeq_ids pos src back .nil
    (hnew.new r hr).symm (h.numbered r hr) hnew.numbered
  obtain ⟨ctx', hslice⟩ := exists_slice hk hapart hlabelled hends
    (splitSeq_labels ctx.nextId pos r src back .nil hnone) (hend ▸ hlt)
  obtain ⟨lss, hflat, hwithin, hhomes, hctx'⟩ := slice_ok hk hapart hlabelled hslice
  refine ⟨ctx', hslice, fun l hl => ?_, fun l hl => ?_⟩
  · obtain ⟨s, hs, hon, hzeros⟩ := exists_span r.position hwithin hhomes
      (hflat ▸ hlabelled.nodup) hids splitSeq_childless (splitSeq_offset_le hlen) (hflat ▸ hl)
    have hplug : ∀ it, it ∈ ctx'.children.nodes ↔ (it ∈ k.before ∨ it ∈ k.after) ∨
        it ∈ (placed r.position 0 (splitSeq ctx.nextId r src back pos n .nil) lss).nodes := by
      intro it
      rw [hctx', mem_plug]
    -- what is around the item has neither its labels nor the number of a piece
    have haround : ∀ it, it ∈ k.before ∨ it ∈ k.after → l ∉ it.labels ∧ it.id ≠ s.item := by
      intro it hit
      have hitMem : it ∈ ctx.children.nodes := by
        rw [hk, mem_plug]
        exact .inl hit
      have hne : it.id ≠ r.id := ne_of_apart hapart hit
      refine ⟨fun hmem => hne ?_, ?_⟩
      · obtain ⟨o, ho⟩ := (h.labelled it hitMem).attached l hmem
        obtain ⟨o', ho'⟩ := hlabelled.attached l hl
        have heq := ho.symm.trans ho'
        simp only [Option.some.injEq, ItemPointer.mk.injEq] at heq
        exact heq.1
      · obtain ⟨el, hel, hid⟩ := List.mem_map.mp (item_of_mem_spans hs)
        rw [← hid]
        obtain heq | heq | heq := hidOf el hel
        · exact heq ▸ hne
        · exact heq ▸ hnew.new it hitMem
        · exact heq ▸ Nat.ne_of_lt (h.numbered it hitMem)
    obtain ⟨it, hit, hid, hpos⟩ := hon.place
    refine ⟨s, hs, ⟨?_, hon.start_le, hon.le_stop, fun it' hit' => ?_, it, (hplug it).mpr (.inr hit),
      hid, hpos⟩, fun z hz hzero hoff => splitSeq_zero hs hz (hzeros z hz hzero hoff) hzero⟩
    · rw [hctx']
      exact hon.attached
    · cases (hplug it').mp hit' with
      | inl hout => exact iff_of_false (haround it' hout).1 (haround it' hout).2
      | inr hin => exact hon.item_iff it' hin
  · rw [hctx']
    exact dealt_of_not_mem (hflat ▸ hl)

/-- A label goes to the piece that takes it, if no piece before that one does. -/
theorem dealt_of_takes {labels : LabelsMap} {offset : Nat} {pre post : List Piece} {el : Piece}
    {lss : List (List LabelPtr)} {l : LabelPtr}
    (hwithin : Within labels offset (pre ++ el :: post) lss)
    (hhomes : Homes labels offset (pre ++ el :: post) lss) (hnodup : lss.flatten.Nodup)
    (hl : l ∈ lss.flatten)
    (hpre : ∀ s ∈ spans offset pre, ¬ Takes s.start s.stop (labels.offset l))
    (htakes : Takes (seqEnd offset pre) el.pieceEnd (labels.offset l)) :
    (dealt labels offset (pre ++ el :: post) lss).lookup l =
      some (some { item := el.item.id, offset := labels.offset l - seqEnd offset pre }) := by
  induction pre generalizing labels offset lss with
  | nil =>
      cases lss with
      | nil => cases hl
      | cons ls lss =>
          obtain ⟨-, hnot, -⟩ := hhomes
          rw [List.flatten_cons] at hnodup hl
          obtain ⟨-, -, hdisjoint⟩ := List.nodup_append.mp hnodup
          have hhere : l ∈ ls := (List.mem_append.mp hl).resolve_right fun h => hnot l h htakes
          have hlater : l ∉ lss.flatten := fun h => hdisjoint l hhere l h rfl
          rw [List.nil_append, dealt, dealt_of_not_mem hlater, lookup_moveLabels, if_pos hhere]
          rfl
  | cons p pre ih =>
      cases lss with
      | nil => cases hl
      | cons ls lss =>
          obtain ⟨-, hwithin⟩ := hwithin
          obtain ⟨hls, -, hhomes⟩ := hhomes
          rw [List.flatten_cons] at hnodup hl
          rw [spans, List.forall_mem_cons] at hpre
          obtain ⟨-, hnodup, hdisjoint⟩ := List.nodup_append.mp hnodup
          have hlater : l ∈ lss.flatten :=
            (List.mem_append.mp hl).resolve_left fun h => hpre.1 (hls l h)
          have hkeep : ∀ l' ∈ lss.flatten,
              (moveLabels labels p.item.id offset ls).offset l' = labels.offset l' :=
            fun l' hl' => offset_moveLabels_of_not_mem fun h => hdisjoint l' h l' hl' rfl
          have hoffset := hkeep l hlater
          rw [List.cons_append, dealt,
            ih ((within_congr hkeep).mpr hwithin) ((homes_congr hkeep).mpr hhomes) hnodup hlater
              (hoffset.symm ▸ hpre.2) (hoffset.symm ▸ htakes), hoffset]
          rfl

/-- The pieces before the new item take nothing at its place. -/
theorem splitSeq_takes {nextId pos : Nat} {r n : Item} {src back : Source}
    {nchildren : ItemList} {labels : LabelsMap} {lss : List (List LabelPtr)} {l : LabelPtr}
    (hwithin : Within labels 0 (splitSeq nextId r src back pos n nchildren) lss)
    (hhomes : Homes labels 0 (splitSeq nextId r src back pos n nchildren) lss)
    (hnodup : lss.flatten.Nodup) (hl : l ∈ lss.flatten) (hle : pos ≤ labels.offset l)
    (htakes : Takes pos (pos + n.getSize nchildren) (labels.offset l)) :
    (dealt labels 0 (splitSeq nextId r src back pos n nchildren) lss).lookup l =
      some (some { item := n.id, offset := labels.offset l - pos }) := by
  rw [splitSeq] at hwithin hhomes ⊢
  dsimp only at hwithin hhomes ⊢
  by_cases hpos : pos = 0
  · rw [if_pos hpos] at hwithin hhomes ⊢
    subst hpos
    refine dealt_of_takes hwithin hhomes hnodup hl (List.forall_mem_nil _) ?_
    exact htakes
  · rw [if_neg hpos] at hwithin hhomes ⊢
    refine dealt_of_takes hwithin hhomes hnodup hl (fun s hs => ?_) ?_
    · rw [List.mem_singleton.mp hs]
      simp only [Takes]
      omega
    · exact htakes

theorem splitSeq_span {nextId pos : Nat} {r n : Item} {src back : Source} {nchildren : ItemList}
    (hne : n.id ≠ r.id) (hn : n.id < nextId) {s : Span}
    (hs : s ∈ spans 0 (splitSeq nextId r src back pos n nchildren)) (hitem : s.item = n.id) :
    s = ⟨n.id, pos, pos + n.getSize nchildren⟩ := by
  obtain ⟨rest, hrest⟩ : ∃ rest, src.size - n.getSize nchildren - pos = rest := ⟨_, rfl⟩
  have hne' := Nat.ne_of_gt hn
  simp only [splitSeq, hrest] at hs
  by_cases hpos : pos = 0 <;> by_cases hzero : rest = 0 <;> simp [hpos, hzero, spans] at hs ⊢
  · exact hs
  · obtain rfl | rfl := hs
    · rfl
    · exact absurd hitem.symm hne
  · obtain rfl | rfl := hs
    · exact absurd hitem.symm hne
    · rfl
  · obtain rfl | rfl | rfl := hs
    · exact absurd hitem.symm hne
    · rfl
    · exact absurd hitem hne'

/-- The labels of a new item: it takes what is at its place, and has nothing
behind its end. -/
theorem Consistent.split2_labels {ctx ctx' : Context} (h : ctx.Consistent) {id pos : Nat}
    {r n : Item} {children : ItemList} {src : Source}
    (hraw : ctx.getRaw id = .ok (r, children, src)) (hnew : ctx.Fresh n)
    (hsplit : ctx.split2 id pos n .nil = .ok ctx') :
    (∀ l ∈ r.labels, pos ≤ ctx.labels.offset l →
      Takes pos (pos + n.getSize .nil) (ctx.labels.offset l) →
        ctx'.labels.lookup l = some (some { item := n.id, offset := ctx.labels.offset l - pos })) ∧
    ∀ l o, ctx'.labels.lookup l = some (some { item := n.id, offset := o }) →
      o ≤ n.getSize .nil := by
  obtain ⟨-, rfl, hbody, k, hk, hapart⟩ := h.registers.raw_hole hraw
  have hr : r ∈ ctx.children.nodes := by
    rw [hk, mem_plug]
    exact .inr List.mem_cons_self
  have hlabelled := h.labelled r hr
  have hlen := split2_le hk hapart hbody hsplit
  have hne : n.id ≠ r.id := (hnew.new r hr).symm
  -- no label was at the new item
  have hold : ∀ l o, ctx.labels.lookup l ≠ some (some { item := n.id, offset := o }) := by
    intro l o hl
    obtain ⟨it, hit, hid, -⟩ := h.attached l _ hl
    exact hnew.new it hit hid
  by_cases hwhole : pos = 0 ∧ src.size - n.getSize .nil - pos = 0
  · obtain ⟨rfl, hrest⟩ := hwhole
    rw [split2_whole hk hapart hbody hlen rfl hrest] at hsplit
    obtain ⟨hoffsets, -, -, rfl⟩ := (replace_eq_ok hk hapart).mp hsplit
    refine ⟨fun l hl _ _ => ?_, fun l o hl => ?_⟩
    · exact (lookup_moveLabels _ _ _ _ l).trans (if_pos hl)
    · change (moveLabels ctx.labels n.id 0 r.labels).lookup l = _ at hl
      rw [lookup_moveLabels] at hl
      split at hl
      · rename_i hmem
        cases hl
        exact hoffsets l hmem
      · exact absurd hl (hold l o)
  · obtain ⟨front, back, -, -, hsplit'⟩ := split2_sliced hk hapart hbody hlen hwhole
    rw [hsplit'] at hsplit
    obtain ⟨ctx₁, hslice, hsplit⟩ := bind_eq_ok.mp hsplit
    cases hsplit
    have hk₁ : Context.children { ctx with
        nextId := splitNextId ctx.nextId src.size (n.getSize .nil) pos } =
        k.plug (.single r .nil) := hk
    obtain ⟨lss, hflat, hwithin, hhomes, rfl⟩ := slice_ok hk₁ hapart hlabelled hslice
    have hnodup : lss.flatten.Nodup := hflat ▸ hlabelled.nodup
    refine ⟨fun l hl hle htakes => ?_, fun l o hl => ?_⟩
    · exact splitSeq_takes hwithin hhomes hnodup (hflat ▸ hl) hle htakes
    · change (dealt ctx.labels 0 _ lss).lookup l = _ at hl
      by_cases hmem : l ∈ lss.flatten
      · obtain ⟨hids, -⟩ := splitSeq_ids pos src back .nil hne (h.numbered r hr) hnew.numbered
        obtain ⟨s, hs, hon, -⟩ := exists_span r.position hwithin hhomes hnodup hids
          splitSeq_childless (splitSeq_offset_le hlen) hmem
        have hat := hon.attached.symm.trans hl
        simp only [Option.some.injEq, ItemPointer.mk.injEq] at hat
        have hspan := splitSeq_span hne hnew.numbered hs hat.1
        have hstop : ctx.labels.offset l ≤ s.stop := hon.le_stop
        rw [hspan] at hstop hat
        rw [← hat.2]
        exact Nat.sub_le_iff_le_add'.mpr hstop
      · rw [dealt_of_not_mem hmem] at hl
        exact absurd hl (hold l o)

/-- Three bytes with a label at the second one, and an item without bytes. -/
def secondByteLabelled : Context :=
  (((root (.fromMemory [1, 2, 3])).createLabelFallback [0x61] { item := 0, offset := 1 }).1.create
    .eof).2

def labelledRaw : Item :=
  { id := 0, position := 0, labels := [[0x61]], body := .raw (.fromMemory [1, 2, 3]) }

def newEof : Item := { id := 1, position := 0, labels := [], body := .eof }

theorem consistent_secondByteLabelled : secondByteLabelled.Consistent :=
  ((Consistent.root (.fromMemory [1, 2, 3])).createLabelFallback [0x61]
    (show (root (.fromMemory [1, 2, 3])).get 0 = .ok _ from rfl)).create

theorem slice_deals_zero :
    ∃ ctx', secondByteLabelled.slice 0
        (splitSeq 2 labelledRaw (.fromMemory [1, 2, 3]) (.fromMemory [2, 3]) 1 newEof .nil) =
          .ok ctx' ∧
      (∀ l ∈ labelledRaw.labels, ∃ s ∈ spans 0
          (splitSeq 2 labelledRaw (.fromMemory [1, 2, 3]) (.fromMemory [2, 3]) 1 newEof .nil),
        OnPiece secondByteLabelled.labels ctx'.labels 0 ctx'.children.nodes l s ∧
          ∀ z ∈ spans 0
              (splitSeq 2 labelledRaw (.fromMemory [1, 2, 3]) (.fromMemory [2, 3]) 1 newEof .nil),
            z.start = z.stop → secondByteLabelled.labels.offset l = z.start → z = s) ∧
      ∀ l, l ∉ labelledRaw.labels →
        ctx'.labels.lookup l = secondByteLabelled.labels.lookup l :=
  slice_deals consistent_secondByteLabelled (.fromMemory [2, 3])
    (show secondByteLabelled.getRaw 0 = .ok (labelledRaw, .nil, .fromMemory [1, 2, 3]) from rfl)
    ⟨by decide, by decide⟩ rfl (by decide) (by decide)

end Context

end Neptools

import Mathlib.Data.List.TakeWhile
import Neptools.Format.Context

/-!
What `Slice` does with the labels of the item: they are dealt out to the pieces
in order, and each stays at its place in the file.
-/

namespace Neptools

open Lib

theorem lookup_foldl_insert {g : LabelPtr → Option ItemPointer} (m : LabelsMap)
    (ls : List LabelPtr) (l : LabelPtr) :
    (ls.foldl (fun m l => m.insert l (g l)) m).lookup l =
      if l ∈ ls then some (g l) else m.lookup l := by
  induction ls generalizing m with
  | nil => rfl
  | cons l' ls ih =>
      rw [List.foldl_cons, ih]
      by_cases hmem : l ∈ ls
      · rw [if_pos hmem, if_pos (List.mem_cons_of_mem _ hmem)]
      · rw [if_neg hmem]
        by_cases heq : l = l'
        · subst heq
          rw [AList.lookup_insert, if_pos List.mem_cons_self]
        · rw [AList.lookup_insert_ne heq, if_neg fun h => (List.mem_cons.mp h).elim heq hmem]

namespace Context

theorem lookup_moveLabels (labels : LabelsMap) (id delta : Nat) (ls : List LabelPtr)
    (l : LabelPtr) : (moveLabels labels id delta ls).lookup l =
      if l ∈ ls then some (some { item := id, offset := labels.offset l - delta })
      else labels.lookup l :=
  lookup_foldl_insert labels ls l

theorem offset_moveLabels_of_mem {labels : LabelsMap} {id delta : Nat} {ls : List LabelPtr}
    {l : LabelPtr} (h : l ∈ ls) :
    (moveLabels labels id delta ls).offset l = labels.offset l - delta := by
  rw [LabelsMap.offset, lookup_moveLabels, if_pos h]

theorem offset_moveLabels_of_not_mem {labels : LabelsMap} {id delta : Nat} {ls : List LabelPtr}
    {l : LabelPtr} (h : l ∉ ls) :
    (moveLabels labels id delta ls).offset l = labels.offset l := by
  rw [LabelsMap.offset, lookup_moveLabels, if_neg h]
  rfl

end Context

/-- Labels that are inserted in order end up behind the others. -/
theorem Item.foldl_insertLabel (labels : LabelsMap) (it : Item) (ls : List LabelPtr)
    (h : (it.labels ++ ls).Pairwise fun a b => labels.offset a ≤ labels.offset b) :
    ls.foldl (fun it l => it.insertLabel labels l) it =
      { it with labels := it.labels ++ ls } := by
  induction ls generalizing it with
  | nil => rw [List.append_nil, List.foldl_nil]
  | cons l ls ih =>
      have hlast : it.labels.orderedInsert (fun a b => labels.offset a < labels.offset b) l =
          it.labels ++ [l] := by
        have hle : ∀ a ∈ it.labels, ¬ labels.offset l < labels.offset a := fun a ha =>
          Nat.not_lt.mpr ((List.pairwise_append.mp h).2.2 a ha l List.mem_cons_self)
        generalize it.labels = all at hle
        induction all with
        | nil => rfl
        | cons a as iha =>
            rw [List.orderedInsert_cons, if_neg (hle a List.mem_cons_self),
              iha fun b hb => hle b (List.mem_cons_of_mem _ hb)]
            rfl
      have hinsert : it.insertLabel labels l = { it with labels := it.labels ++ [l] } :=
        congrArg (fun ls => { it with labels := ls }) hlast
      rw [List.foldl_cons, hinsert, ih]
      · simp only [List.append_assoc, List.singleton_append]
      · rwa [List.append_assoc]

namespace Context

/-- The pieces in their places, with their labels. -/
def placed (basePos : Nat) : Nat → List Piece → List (List LabelPtr) → ItemList
  | offset, el :: seq, ls :: lss =>
      .cons { el.item with position := basePos + offset, labels := ls } el.children
        (placed basePos el.pieceEnd seq lss)
  | _, _, _ => .nil

/-- The labels as they are dealt out to the pieces. -/
def dealt (labels : LabelsMap) : Nat → List Piece → List (List LabelPtr) → LabelsMap
  | offset, el :: seq, ls :: lss =>
      dealt (moveLabels labels el.item.id offset ls) el.pieceEnd seq lss
  | _, _, _ => labels

def emplaceAll (basePos : Nat) : Nat → List Piece → PointerMap → PointerMap
  | _, [], pmap => pmap
  | offset, el :: seq, pmap =>
      emplaceAll basePos el.pieceEnd seq (pmap.emplace (basePos + offset) el.item.id)

/-- Every label is on the piece it is dealt out to. -/
def Within (labels : LabelsMap) : Nat → List Piece → List (List LabelPtr) → Prop
  | offset, el :: seq, ls :: lss =>
      (∀ l ∈ ls, offset ≤ labels.offset l ∧ labels.offset l ≤ el.pieceEnd) ∧
        Within labels el.pieceEnd seq lss
  | _, [], [] => True
  | _, _, _ => False

theorem within_nil {labels : LabelsMap} {offset : Nat} {lss : List (List LabelPtr)}
    (h : Within labels offset [] lss) : lss = [] := by
  cases lss with
  | nil => rfl
  | cons ls lss => exact h.elim

theorem within_cons {labels : LabelsMap} {offset : Nat} {el : Piece} {seq : List Piece}
    {lss : List (List LabelPtr)} (h : Within labels offset (el :: seq) lss) :
    ∃ ls rest, lss = ls :: rest ∧ Within labels el.pieceEnd seq rest := by
  cases lss with
  | nil => exact h.elim
  | cons ls rest => exact ⟨ls, rest, rfl, h.2⟩

theorem within_congr {labels labels' : LabelsMap} {offset : Nat} {seq : List Piece}
    {lss : List (List LabelPtr)} (h : ∀ l ∈ lss.flatten, labels'.offset l = labels.offset l) :
    Within labels' offset seq lss ↔ Within labels offset seq lss := by
  induction lss generalizing offset seq with
  | nil => cases seq <;> rfl
  | cons ls lss ih =>
      cases seq with
      | nil => rfl
      | cons el seq =>
          rw [List.flatten_cons, List.forall_mem_append] at h
          rw [Within, Within, ih h.2]
          refine and_congr_left fun _ => forall₂_congr fun l hl => ?_
          rw [h.1 l hl]

/-- A label at `o` goes to the first piece from `offset` to `pieceEnd` that has the
place, where a piece without bytes has the place at its end. -/
def Takes (offset pieceEnd o : Nat) : Prop := o < pieceEnd ∨ o = pieceEnd ∧ o = offset

instance (offset pieceEnd o : Nat) : Decidable (Takes offset pieceEnd o) :=
  inferInstanceAs (Decidable (_ ∨ _))

/-- Every label is on the first piece that takes it. -/
def Homes (labels : LabelsMap) : Nat → List Piece → List (List LabelPtr) → Prop
  | offset, el :: seq, ls :: lss =>
      (∀ l ∈ ls, Takes offset el.pieceEnd (labels.offset l)) ∧
        (∀ l ∈ lss.flatten, ¬ Takes offset el.pieceEnd (labels.offset l)) ∧
          Homes labels el.pieceEnd seq lss
  | _, _, _ => True

theorem homes_congr {labels labels' : LabelsMap} {offset : Nat} {seq : List Piece}
    {lss : List (List LabelPtr)} (h : ∀ l ∈ lss.flatten, labels'.offset l = labels.offset l) :
    Homes labels' offset seq lss ↔ Homes labels offset seq lss := by
  induction lss generalizing offset seq with
  | nil => cases seq <;> rfl
  | cons ls lss ih =>
      cases seq with
      | nil => rfl
      | cons el seq =>
          rw [List.flatten_cons, List.forall_mem_append] at h
          rw [Homes, Homes, ih h.2]
          refine and_congr (forall₂_congr fun l hl => ?_)
            (and_congr_left fun _ => forall₂_congr fun l hl => ?_)
          · rw [h.1 l hl]
          · rw [h.2 l hl]

def seqEnd : Nat → List Piece → Nat
  | offset, [] => offset
  | _, el :: seq => seqEnd el.pieceEnd seq

theorem exists_slicePieces (emptyMap : Bool) (basePos : Nat) {seq : List Piece}
    (hnone : ∀ el ∈ seq, el.item.labels = []) (offset : Nat) (labels : LabelsMap)
    (pmap : PointerMap) (rest : List LabelPtr) :
    ∃ s, slicePieces emptyMap basePos offset seq labels pmap rest = .ok s := by
  induction seq generalizing offset labels pmap rest with
  | nil => exact ⟨_, rfl⟩
  | cons el seq ih =>
      rw [List.forall_mem_cons] at hnone
      have hrest := ih hnone.2
      exact ⟨_, bind_eq_ok.mpr ⟨(), require_of hnone.1 _,
        bind_eq_ok.mpr ⟨_, (hrest _ _ _ _).choose_spec, rfl⟩⟩⟩

theorem slicePieces_unlabelled {emptyMap : Bool} {basePos offset : Nat} {seq : List Piece}
    {labels : LabelsMap} {pmap : PointerMap} {rest : List LabelPtr} {s : Sliced}
    (h : slicePieces emptyMap basePos offset seq labels pmap rest = .ok s) :
    ∀ el ∈ seq, el.item.labels = [] := by
  induction seq generalizing offset labels pmap rest s with
  | nil => exact fun el hel => nomatch hel
  | cons el seq ih =>
      obtain ⟨_, hlabels, h⟩ := bind_eq_ok.mp h
      obtain ⟨s', hs', -⟩ := bind_eq_ok.mp h
      exact List.forall_mem_cons.mpr ⟨require_eq_ok.mp hlabels, ih hs'⟩

theorem slicePieces_ok {emptyMap : Bool} {basePos : Nat} {seq : List Piece} :
    ∀ {offset : Nat} {labels : LabelsMap} {pmap : PointerMap} {rest : List LabelPtr} {s : Sliced},
      slicePieces emptyMap basePos offset seq labels pmap rest = .ok s →
      rest.Nodup → rest.Pairwise (fun a b => labels.offset a ≤ labels.offset b) →
      (∀ l ∈ rest, offset ≤ labels.offset l) →
      ∃ lss : List (List LabelPtr), rest = lss.flatten ++ s.rest ∧
        s.items = placed basePos offset seq lss ∧ s.labels = dealt labels offset seq lss ∧
        s.pmap = (if emptyMap then pmap else emplaceAll basePos offset seq pmap) ∧
        Within labels offset seq lss ∧ Homes labels offset seq lss ∧
        ∀ l ∈ s.rest, seqEnd offset seq ≤ labels.offset l := by
  induction seq with
  | nil =>
      intro offset labels pmap rest s h _ _ hge
      cases h
      refine ⟨[], rfl, rfl, rfl, ?_, trivial, trivial, hge⟩
      rw [emplaceAll, ite_self]
  | cons el seq ih =>
      intro offset labels pmap rest s h hnodup hsorted hge
      obtain ⟨_, hlabels, h⟩ := bind_eq_ok.mp h
      have hnone : el.item.labels = [] := require_eq_ok.mp hlabels
      set mine : LabelPtr → Bool := fun l => decide (labels.offset l < el.pieceEnd ∨
        labels.offset l = el.pieceEnd ∧ labels.offset l = offset) with hmine
      obtain ⟨s', hs', h⟩ := bind_eq_ok.mp h
      cases h
      have hsplit : rest = rest.takeWhile mine ++ rest.dropWhile mine :=
        (List.takeWhile_append_dropWhile).symm
      generalize htaken : rest.takeWhile mine = taken at *
      generalize hleft : rest.dropWhile mine = left at *
      have htake : ∀ l ∈ taken, mine l = true := fun l hl =>
        List.mem_takeWhile_imp (htaken ▸ hl)
      subst hsplit
      obtain ⟨hnodupT, hnodupL, hdisjoint⟩ := List.nodup_append.mp hnodup
      obtain ⟨hsortedT, hsortedL, hcross⟩ := List.pairwise_append.mp hsorted
      rw [List.forall_mem_append] at hge
      have hkeep : ∀ l ∈ left,
          (moveLabels labels el.item.id offset taken).offset l = labels.offset l := fun l hl =>
        offset_moveLabels_of_not_mem fun hmem => hdisjoint l hmem l hl rfl
      -- What was not taken is behind the piece: so is its first label, and the rest is in order.
      have hbehind : ∀ l ∈ left, el.pieceEnd ≤ labels.offset l ∧
          ¬ Takes offset el.pieceEnd (labels.offset l) := by
        cases left with
        | nil => exact fun l hl => nomatch hl
        | cons first left =>
            have hfirst : mine first = false := by
              have hdrop := List.head_dropWhile_not mine (l := taken ++ first :: left)
                (by rw [hleft]; exact List.cons_ne_nil _ _)
              simpa only [hleft, List.head_cons] using hdrop
            have hnot : ¬ Takes offset el.pieceEnd (labels.offset first) := of_decide_eq_false hfirst
            have hle : ∀ l ∈ first :: left, labels.offset first ≤ labels.offset l := fun l hl =>
              (List.mem_cons.mp hl).elim (fun h => h ▸ Nat.le_refl _)
                (List.rel_of_pairwise_cons hsortedL)
            intro l hl
            have := hle l hl
            simp only [Takes] at hnot ⊢
            omega
      obtain ⟨lss, hflat, hitems, hdealt, hpmap, hwithin, hhomes, hrest⟩ := ih hs' hnodupL
        (hsortedL.imp_of_mem fun ha hb hle => by rwa [hkeep _ ha, hkeep _ hb])
        (fun l hl => by rw [hkeep l hl]; exact (hbehind l hl).1)
      have hitem := Item.foldl_insertLabel (moveLabels labels el.item.id offset taken)
        { el.item with position := basePos + offset } taken (by
          rw [hnone, List.nil_append]
          refine hsortedT.imp_of_mem fun ha hb hle => ?_
          rw [offset_moveLabels_of_mem ha, offset_moveLabels_of_mem hb]
          omega)
      rw [hnone, List.nil_append] at hitem
      rw [hitem] at hpmap ⊢
      have hlater : ∀ l ∈ lss.flatten, l ∈ left := fun l hl => hflat ▸ List.mem_append_left _ hl
      refine ⟨taken :: lss, ?_, ?_, hdealt, ?_, ⟨?_, ?_⟩, ⟨?_, ?_, ?_⟩, ?_⟩
      · rw [List.flatten_cons, List.append_assoc, ← hflat]
      · rw [hitems]
        rfl
      · rw [hpmap]
        cases emptyMap with
        | true => rfl
        | false => rfl
      · intro l hl
        have hmineL := of_decide_eq_true (htake l hl)
        exact ⟨hge.1 l hl, by omega⟩
      · exact (within_congr fun l hl => hkeep l (hlater l hl)).mp hwithin
      · exact fun l hl => of_decide_eq_true (htake l hl)
      · exact fun l hl => (hbehind l (hlater l hl)).2
      · exact (homes_congr fun l hl => hkeep l (hlater l hl)).mp hhomes
      · intro l hl
        rw [← hkeep l (hflat ▸ List.mem_append_right _ hl)]
        exact hrest l hl

end Context

/-- The labels of an item, as the registry has them. -/
structure Item.Labelled (labels : LabelsMap) (it : Item) : Prop where
  nodup : it.labels.Nodup
  sorted : it.labels.Pairwise fun a b => labels.offset a ≤ labels.offset b
  attached : ∀ l ∈ it.labels,
    ∃ offset, labels.lookup l = some (some { item := it.id, offset })

theorem Item.Labelled.of_nil {labels : LabelsMap} {it : Item} (h : it.labels = []) :
    it.Labelled labels :=
  { nodup := by rw [h]; exact List.nodup_nil
    sorted := by rw [h]; exact List.Pairwise.nil
    attached := by rw [h]; exact fun _ hl => nomatch hl }

theorem Item.Labelled.congr {labels labels' : LabelsMap} {it : Item} (h : it.Labelled labels)
    (hsame : ∀ l ∈ it.labels, labels'.lookup l = labels.lookup l) : it.Labelled labels' := by
  have hoffset : ∀ l ∈ it.labels, labels'.offset l = labels.offset l := fun l hl => by
    rw [LabelsMap.offset, hsame l hl]
    rfl
  refine ⟨h.nodup, h.sorted.imp_of_mem fun ha hb hle => ?_, fun l hl => ?_⟩
  · rwa [hoffset _ ha, hoffset _ hb]
  · rw [hsame l hl]
    exact h.attached l hl

/-- The labels of `r` are on the items of `f`, where they were in the file, and
all other labels are where they were. -/
structure LabelsMoved (labels labels' : LabelsMap) (r : Item) (f : ItemList) : Prop where
  other : ∀ l, l ∉ r.labels → labels'.lookup l = labels.lookup l
  moved : ∀ l ∈ r.labels, ∃ it ∈ f.nodes, l ∈ it.labels ∧ ∃ offset,
    labels'.lookup l = some (some { item := it.id, offset }) ∧
      it.position + offset = r.position + labels.offset l

namespace Context

theorem dealt_of_not_mem {labels : LabelsMap} {offset : Nat} {seq : List Piece}
    {lss : List (List LabelPtr)} {l : LabelPtr} (hl : l ∉ lss.flatten) :
    (dealt labels offset seq lss).lookup l = labels.lookup l := by
  induction seq generalizing labels offset lss with
  | nil => rfl
  | cons el seq ih =>
      cases lss with
      | nil => rfl
      | cons ls lss =>
          rw [List.flatten_cons, List.mem_append, not_or] at hl
          rw [dealt, ih hl.2, lookup_moveLabels, if_neg hl.1]

theorem dealt_of_mem {labels : LabelsMap} {basePos offset : Nat} {seq : List Piece}
    {lss : List (List LabelPtr)} {l : LabelPtr} (hwithin : Within labels offset seq lss)
    (hnodup : lss.flatten.Nodup) (hl : l ∈ lss.flatten) :
    ∃ it ∈ (placed basePos offset seq lss).nodes, l ∈ it.labels ∧ ∃ o,
      (dealt labels offset seq lss).lookup l = some (some { item := it.id, offset := o }) ∧
        it.position + o = basePos + labels.offset l := by
  induction seq generalizing labels offset lss with
  | nil =>
      cases lss with
      | nil => cases hl
      | cons ls lss => exact hwithin.elim
  | cons el seq ih =>
      cases lss with
      | nil => cases hl
      | cons ls lss =>
          obtain ⟨hls, hrest⟩ := hwithin
          rw [List.flatten_cons] at hnodup hl
          obtain ⟨-, hnodup, hdisjoint⟩ := List.nodup_append.mp hnodup
          have hkeep : ∀ l' ∈ lss.flatten,
              (moveLabels labels el.item.id offset ls).offset l' = labels.offset l' :=
            fun l' hl' => offset_moveLabels_of_not_mem fun h => hdisjoint l' h l' hl' rfl
          rcases List.mem_append.mp hl with hl | hl
          · refine ⟨_, List.mem_cons_self, hl, labels.offset l - offset, ?_, ?_⟩
            · rw [dealt, dealt_of_not_mem fun h => hdisjoint l hl l h rfl, lookup_moveLabels,
                if_pos hl]
            · have := (hls l hl).1
              change basePos + offset + (labels.offset l - offset) = _
              omega
          · obtain ⟨it, hit, hmem, o, hlookup, hpos⟩ :=
              ih ((within_congr hkeep).mpr hrest) hnodup hl
            refine ⟨it, ?_, hmem, o, hlookup, by rw [hpos, hkeep l hl]⟩
            exact List.mem_cons_of_mem _ (List.mem_append_right _ hit)

/-- The labels of each piece, apart from what is below it. -/
theorem labelled_placed {labels : LabelsMap} {basePos offset : Nat} {seq : List Piece}
    {lss : List (List LabelPtr)} (hnodup : lss.flatten.Nodup)
    (hsorted : lss.flatten.Pairwise fun a b => labels.offset a ≤ labels.offset b)
    {it : Item} (hit : it ∈ (placed basePos offset seq lss).nodes) :
    (it.Labelled (dealt labels offset seq lss) ∧ ∀ l ∈ it.labels, l ∈ lss.flatten) ∨
      ∃ el ∈ seq, it ∈ el.children.nodes := by
  induction seq generalizing labels offset lss with
  | nil => cases hit
  | cons el seq ih =>
      cases lss with
      | nil => cases hit
      | cons ls lss =>
          rw [List.flatten_cons] at hnodup hsorted
          obtain ⟨hnodupLs, hnodup, hdisjoint⟩ := List.nodup_append.mp hnodup
          obtain ⟨hsortedLs, hsorted, -⟩ := List.pairwise_append.mp hsorted
          have hkeep : ∀ l' ∈ lss.flatten,
              (moveLabels labels el.item.id offset ls).offset l' = labels.offset l' :=
            fun l' hl' => offset_moveLabels_of_not_mem fun h => hdisjoint l' h l' hl' rfl
          have hlookup : ∀ l ∈ ls, (dealt labels offset (el :: seq) (ls :: lss)).lookup l =
              some (some { item := el.item.id, offset := labels.offset l - offset }) :=
            fun l hl => by
              rw [dealt, dealt_of_not_mem fun h => hdisjoint l hl l h rfl, lookup_moveLabels,
                if_pos hl]
          rw [placed, Forest.nodes, List.mem_cons, List.mem_append] at hit
          rw [List.flatten_cons]
          rcases hit with rfl | hit | hit
          · refine .inl ⟨⟨hnodupLs, hsortedLs.imp_of_mem fun ha hb hle => ?_, fun l hl => ?_⟩,
              fun l hl => List.mem_append_left _ hl⟩
            · rw [LabelsMap.offset, LabelsMap.offset, hlookup _ ha, hlookup _ hb]
              change labels.offset _ - offset ≤ labels.offset _ - offset
              omega
            · exact ⟨_, hlookup l hl⟩
          · exact .inr ⟨el, List.mem_cons_self, hit⟩
          · have hsorted' : lss.flatten.Pairwise fun a b =>
                (moveLabels labels el.item.id offset ls).offset a ≤
                  (moveLabels labels el.item.id offset ls).offset b :=
              hsorted.imp_of_mem fun ha hb hle => by rwa [hkeep _ ha, hkeep _ hb]
            rcases ih hnodup hsorted' hit with ⟨hlabelled, hmem⟩ | ⟨el', hel', hit⟩
            · exact .inl ⟨hlabelled, fun l hl => List.mem_append_right _ (hmem l hl)⟩
            · exact .inr ⟨el', List.mem_cons_of_mem _ hel', hit⟩

end Context

/-- What a label sees of an item. -/
def Item.place (it : Item) : Nat × Nat × List LabelPtr := (it.id, it.position, it.labels)

theorem exists_place {f f' : ItemList}
    (h : f'.nodes.map Item.place = f.nodes.map Item.place) {it : Item} (hit : it ∈ f.nodes) :
    ∃ it' ∈ f'.nodes, it'.id = it.id ∧ it'.position = it.position ∧ it'.labels = it.labels := by
  have hmem : it.place ∈ f'.nodes.map Item.place := h ▸ List.mem_map_of_mem hit
  obtain ⟨it', hit', heq⟩ := List.mem_map.mp hmem
  obtain ⟨hid, heq⟩ := Prod.mk.inj heq
  obtain ⟨hpos, hlabels⟩ := Prod.mk.inj heq
  exact ⟨it', hit', hid, hpos, hlabels⟩

theorem LabelsMoved.congr {labels labels' : LabelsMap} {r : Item} {f f' : ItemList}
    (h : LabelsMoved labels labels' r f)
    (hplace : f'.nodes.map Item.place = f.nodes.map Item.place) :
    LabelsMoved labels labels' r f' := by
  refine ⟨h.other, fun l hl => ?_⟩
  obtain ⟨it, hit, hmem, offset, hlookup, hpos⟩ := h.moved l hl
  obtain ⟨it', hit', hid, hpos', hlabels⟩ := exists_place hplace hit
  exact ⟨it', hit', hlabels ▸ hmem, offset, hid ▸ hlookup, hpos' ▸ hpos⟩

theorem Context.labelsMoved_placed {labels : LabelsMap} {r : Item} {seq : List Piece}
    {lss : List (List LabelPtr)} (hflat : lss.flatten = r.labels) (hnodup : r.labels.Nodup)
    (hwithin : Within labels 0 seq lss) :
    LabelsMoved labels (dealt labels 0 seq lss) r (placed r.position 0 seq lss) := by
  refine ⟨fun l hl => dealt_of_not_mem (hflat ▸ hl), fun l hl => ?_⟩
  rw [← hflat] at hnodup hl
  exact dealt_of_mem hwithin hnodup hl

end Neptools

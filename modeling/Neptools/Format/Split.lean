import Neptools.Format.Fixup
import Neptools.Format.RawItem
import Neptools.Format.Slice

/-!
What is at the place of an item after it was replaced, sliced or split: the
place is a hole among the items, and only what fills it changes.
-/

namespace Neptools

open Lib

/-- No item around the hole has the number. -/
structure Apart (id : Nat) (k : Hole Item) : Prop where
  before : ∀ it ∈ k.before, Context.isItem id it = false
  after : ∀ it ∈ k.after, Context.isItem id it = false

namespace Context

theorem isItem_self (it : Item) : isItem it.id it = true := decide_eq_true rfl

/-- The place of an item. -/
theorem exists_hole {ctx : Context} {id : Nat} {it : Item} {children : ItemList}
    (hids : (ctx.children.nodes.map Item.id).Nodup) (h : ctx.find? id = some (it, children)) :
    it.id = id ∧ ∃ k : Hole Item, ctx.children = k.plug (.single it children) ∧ Apart id k := by
  obtain ⟨hmem, rfl⟩ := find?_some h
  obtain ⟨k, hk⟩ := Hole.exists_plug hmem
  rw [hk, Hole.nodes_plug, Forest.single, Forest.nodes, List.append_assoc, List.map_append,
    List.cons_append, List.map_cons, List.nodup_append] at hids
  obtain ⟨-, hin, hcross⟩ := hids
  refine ⟨rfl, k, hk, fun a ha => decide_eq_false fun heq => ?_,
    fun a ha => decide_eq_false fun heq => ?_⟩
  · exact hcross _ (List.mem_map_of_mem ha) _ List.mem_cons_self heq
  · refine (List.nodup_cons.mp hin).1 ?_
    rw [← heq]
    exact List.mem_map_of_mem (List.mem_append_right _ ha)

/-- An item with the labels of the one it replaces. -/
def replacement (r n : Item) : Item := { n with labels := r.labels, position := r.position }

/-- What is left of the map when an item is replaced. -/
def replacedPmap (pmap : PointerMap) (it : Item) (children : ItemList) (id : Nat) : PointerMap :=
  PointerMap.removedAll
    (if pmap.lookup it.position = some it.id then pmap.insert it.position id else pmap)
    (.single it children)

section

variable {ctx : Context} {k : Hole Item} {it : Item} {children : ItemList}
  (hk : ctx.children = k.plug (.single it children)) (hapart : Apart it.id k)

include hk hapart

theorem find?_hole : ctx.find? it.id = some (it, children) := by
  rw [find?, hk, Hole.find?_plug hapart.before (isItem_self it)]

theorem get_hole : ctx.get it.id = .ok (it, children) := by
  rw [get, find?_hole hk hapart]
  rfl

theorem update_hole (g : Item → ItemList → ItemList) :
    ctx.children.update (isItem it.id) g = k.plug (g it children) := by
  rw [hk, Hole.update_plug hapart.before hapart.after, Hole.update_single (isItem_self it)]

theorem replace_eq_ok {n : Item} {nchildren : ItemList} {ctx' : Context} :
    ctx.replace it.id n nchildren = .ok ctx' ↔
      (∀ l ∈ it.labels, ctx.labels.offset l ≤ n.getSize nchildren) ∧ n.labels = [] ∧
        (∀ child ∈ children.nodes, child.labels = []) ∧
        ctx' = { ctx with
          children := k.plug (.single (replacement it n) nchildren)
          labels := moveLabels ctx.labels n.id 0 it.labels
          pmap := replacedPmap ctx.pmap it children n.id } := by
  rw [replace, get_hole hk hapart, ok_bind]
  simp only [bind_eq_ok, require_eq_ok, exists_const, pure_eq_ok, Except.ok.injEq,
    update_hole hk hapart, replacedPmap]
  exact and_congr_right fun _ => and_congr_right fun _ => and_congr_right fun _ => eq_comm

theorem slice_ok (hlabelled : it.Labelled ctx.labels) {seq : List Piece} {ctx' : Context}
    (h : ctx.slice it.id seq = .ok ctx') :
    ∃ lss : List (List LabelPtr), lss.flatten = it.labels ∧ Within ctx.labels 0 seq lss ∧
      Homes ctx.labels 0 seq lss ∧ ctx' = { ctx with
        children := k.plug (placed it.position 0 seq lss)
        labels := dealt ctx.labels 0 seq lss
        pmap := if ctx.pmap.keys.isEmpty then ctx.pmap.removedAll (.single it children)
          else emplaceAll it.position 0 seq (ctx.pmap.removedAll (.single it children)) } := by
  obtain ⟨_, -, h⟩ := bind_eq_ok.mp h
  rw [get_hole hk hapart, ok_bind] at h
  obtain ⟨s, hs, h⟩ := bind_eq_ok.mp h
  obtain ⟨_, hrest, h⟩ := bind_eq_ok.mp h
  cases h
  obtain ⟨lss, hflat, hitems, hlabels, hpmap, hwithin, hhomes, -⟩ :=
    slicePieces_ok hs hlabelled.nodup hlabelled.sorted fun _ _ => Nat.zero_le _
  rw [require_eq_ok.mp hrest, List.append_nil] at hflat
  refine ⟨lss, hflat.symm, hwithin, hhomes, ?_⟩
  rw [update_hole hk hapart, hitems, hlabels, hpmap]

/-- `Slice` refuses only labels that are behind all pieces. -/
theorem exists_slice (hlabelled : it.Labelled ctx.labels) {seq : List Piece}
    (hends : (seq.map Piece.pieceEnd).Pairwise (· ≤ ·)) (hnone : ∀ el ∈ seq, el.item.labels = [])
    (hlt : ∀ l ∈ it.labels, ctx.labels.offset l < seqEnd 0 seq) :
    ∃ ctx', ctx.slice it.id seq = .ok ctx' := by
  obtain ⟨s, hs⟩ := exists_slicePieces ctx.pmap.keys.isEmpty it.position hnone 0 ctx.labels
    (ctx.pmap.removedAll (.single it children)) it.labels
  obtain ⟨lss, hflat, -, -, -, -, -, hge⟩ :=
    slicePieces_ok hs hlabelled.nodup hlabelled.sorted fun _ _ => Nat.zero_le _
  have hrest : s.rest = [] := List.eq_nil_iff_forall_not_mem.mpr fun l hl => by
    have := hge l hl
    have := hlt l (hflat ▸ List.mem_append_right _ hl)
    omega
  rw [slice, require_of hends, ok_bind, get_hole hk hapart, ok_bind]
  simp only [hs, ok_bind, require_of hrest]
  exact ⟨_, rfl⟩

end

theorem replacement_labels {labels : LabelsMap} {r n : Item} {nchildren : ItemList}
    (hlabelled : r.Labelled labels)
    (hoffsets : ∀ l ∈ r.labels, labels.offset l ≤ n.getSize nchildren) :
    LabelsMoved labels (moveLabels labels n.id 0 r.labels) r
        (.single (replacement r n) nchildren) ∧
      (replacement r n).Labelled (moveLabels labels n.id 0 r.labels) := by
  -- It is as if the item was sliced into one piece.
  have hflat : [r.labels].flatten = r.labels := List.flatten_singleton
  have hwithin : ∀ children : ItemList,
      Within labels 0 [⟨n, children, n.getSize nchildren⟩] [r.labels] := fun _ =>
    ⟨fun l hl => ⟨Nat.zero_le _, hoffsets l hl⟩, trivial⟩
  refine ⟨labelsMoved_placed hflat hlabelled.nodup (hwithin nchildren), ?_⟩
  have hplaced : replacement r n ∈ (placed r.position 0 [⟨n, .nil, n.getSize nchildren⟩]
      [r.labels]).nodes := List.mem_cons_self
  rcases labelled_placed (hflat.symm ▸ hlabelled.nodup) (hflat.symm ▸ hlabelled.sorted) hplaced
    with hl | ⟨el, hel, hit⟩
  · exact hl.1
  · rw [List.mem_singleton.mp hel] at hit
    cases hit

/-- The pieces `Split2` puts in place of `r`, whose bytes are `src`, with the
labels taken off. -/
def splitSeq (nextId : Nat) (r : Item) (src back : Source) (pos : Nat) (n : Item)
    (nchildren : ItemList) : List Piece :=
  let len := n.getSize nchildren
  let this (pieceEnd : Nat) : Piece := { item := { r with labels := [] }, children := .nil, pieceEnd }
  (if pos = 0 then [] else [this pos]) ++
    { item := n, children := nchildren, pieceEnd := pos + len } ::
    if src.size - len - pos = 0 then []
    else if pos = 0 then [this src.size]
    else
      [{ item := { id := nextId, position := r.position + (pos + len), labels := []
                   body := .raw back }
         children := .nil, pieceEnd := src.size }]

def splitNextId (nextId size len pos : Nat) : Nat :=
  if pos = 0 ∨ size - len - pos = 0 then nextId else nextId + 1

section

variable {ctx : Context} {k : Hole Item} {r : Item} {src : Source}
  (hk : ctx.children = k.plug (.single r .nil)) (hapart : Apart r.id k)
  (hraw : r.body = .raw src) {pos : Nat} {n : Item} {nchildren : ItemList}
  (hlen : pos + n.getSize nchildren ≤ src.size)

include hk hapart hraw

theorem getRaw_hole : ctx.getRaw r.id = .ok (r, .nil, src) := by
  rw [getRaw, get_hole hk hapart, ok_bind]
  simp only [hraw, pure_eq_ok]

include hlen

theorem split2_whole (hpos : pos = 0) (hrest : src.size - n.getSize nchildren - pos = 0) :
    ctx.split2 r.id pos n nchildren = ctx.replace r.id n nchildren := by
  rw [split2, getRaw_hole hk hapart hraw, ok_bind]
  simp only []
  rw [require_of ⟨by omega, hlen⟩, ok_bind, if_pos ⟨hpos, hrest⟩]

theorem split2_sliced (hnot : ¬ (pos = 0 ∧ src.size - n.getSize nchildren - pos = 0)) :
    ∃ front back : Source, front.bytes = Lib.slice src.bytes 0 pos ∧
      back.bytes = Lib.slice src.bytes (pos + n.getSize nchildren)
        (src.size - n.getSize nchildren - pos) ∧
      ctx.split2 r.id pos n nchildren = (do
        let nextId := splitNextId ctx.nextId src.size (n.getSize nchildren) pos
        let ctx' ← { ctx with nextId }.slice r.id
          (splitSeq ctx.nextId r src back pos n nchildren)
        pure (ctx'.updateItem r.id fun it =>
          { it with body := .raw (if pos = 0 then back else front) })) := by
  have hzero : 0 + pos ≤ src.size := by omega
  obtain ⟨front, hfront, hfrontBytes⟩ := Source.slice_of_le hzero
  have hback : pos + n.getSize nchildren + (src.size - n.getSize nchildren - pos) ≤ src.size := by
    omega
  rw [split2, getRaw_hole hk hapart hraw, ok_bind]
  simp only []
  rw [require_of ⟨by omega, hlen⟩, ok_bind, if_neg hnot]
  by_cases hpos : pos = 0
  · have hrest : ¬ src.size - n.getSize nchildren - pos = 0 := fun h => hnot ⟨hpos, h⟩
    obtain ⟨back, hsub, hbackBytes⟩ := Source.slice_of_le hback
    refine ⟨front, back, hfrontBytes, hbackBytes, ?_⟩
    subst hpos
    rw [Nat.zero_add] at hsub
    simp only [splitSeq, splitNextId, if_neg hrest, ok_bind, hsub, if_true, true_or,
      pure_eq_ok, List.nil_append, Nat.zero_add]
    rfl
  · obtain ⟨back, hsub, hbackBytes⟩ := Source.sub_of_le hback
    refine ⟨front, back, hfrontBytes, hbackBytes, ?_⟩
    by_cases hrest : src.size - n.getSize nchildren - pos = 0
    · have hnext : pos = 0 ∨ src.size - n.getSize nchildren - pos = 0 := .inr hrest
      simp only [splitSeq, splitNextId, if_pos hrest, if_neg hpos, if_pos hnext, ok_bind, hfront,
        pure_eq_ok]
      rfl
    · simp only [splitSeq, splitNextId, internalSlice, create, ok_bind, hfront, hsub,
        require_of hback, hpos, hrest, or_self, if_false, pure_eq_ok]
      rfl

end

theorem splitSeq_ends (nextId : Nat) {pos : Nat} (r : Item) {n : Item} {src : Source}
    (back : Source) {nchildren : ItemList} (hlen : pos + n.getSize nchildren ≤ src.size) :
    ((splitSeq nextId r src back pos n nchildren).map Piece.pieceEnd).Pairwise (· ≤ ·) ∧
      seqEnd 0 (splitSeq nextId r src back pos n nchildren) = src.size := by
  obtain ⟨rest, hrest⟩ : ∃ rest, src.size - n.getSize nchildren - pos = rest := ⟨_, rfl⟩
  simp only [splitSeq, hrest]
  by_cases hpos : pos = 0 <;> by_cases hzero : rest = 0 <;>
    simp [hpos, hzero, seqEnd] <;> omega

theorem splitSeq_labels (nextId pos : Nat) (r : Item) {n : Item} (src back : Source)
    (nchildren : ItemList) (hnone : n.labels = []) :
    ∀ el ∈ splitSeq nextId r src back pos n nchildren, el.item.labels = [] := by
  obtain ⟨rest, hrest⟩ : ∃ rest, src.size - n.getSize nchildren - pos = rest := ⟨_, rfl⟩
  simp only [splitSeq, hrest]
  by_cases hpos : pos = 0 <;> by_cases hzero : rest = 0 <;> simp [hpos, hzero, hnone]

theorem splitSeq_children {nextId pos : Nat} {r n it : Item} {src back : Source}
    {nchildren : ItemList} {el : Piece} (hel : el ∈ splitSeq nextId r src back pos n nchildren)
    (hit : it ∈ el.children.nodes) : it ∈ nchildren.nodes := by
  obtain ⟨rest, hrest⟩ : ∃ rest, src.size - n.getSize nchildren - pos = rest := ⟨_, rfl⟩
  have hnil : (Forest.nil : ItemList).nodes = [] := rfl
  simp only [splitSeq, hrest] at hel
  by_cases hpos : pos = 0 <;> by_cases hzero : rest = 0 <;> simp [hpos, hzero] at hel
  all_goals
    rcases hel with rfl | rfl | rfl
    all_goals first | exact hit | exact absurd hit (hnil ▸ List.not_mem_nil)

/-- The raw parts around a new item, and the labels of the three parts. -/
structure Parts where
  front : Source
  back : Source
  frontLabels : List LabelPtr
  newLabels : List LabelPtr
  backLabels : List LabelPtr

def Parts.frontItems (p : Parts) (r : Item) (pos : Nat) : ItemList :=
  if pos = 0 then .nil else .single { r with labels := p.frontLabels, body := .raw p.front } .nil

def Parts.newItem (p : Parts) (r : Item) (pos : Nat) (n : Item) : Item :=
  { n with position := r.position + pos, labels := p.newLabels }

def Parts.backItems (p : Parts) (nextId : Nat) (r : Item) (size pos len : Nat) : ItemList :=
  if size - len - pos = 0 then .nil
  else
    .single { id := if pos = 0 then r.id else nextId, position := r.position + (pos + len)
              labels := p.backLabels, body := .raw p.back } .nil

/-- What takes the place of `r`. -/
def Parts.items (p : Parts) (nextId : Nat) (r : Item) (size pos : Nat) (n : Item)
    (nchildren : ItemList) : ItemList :=
  p.frontItems r pos ++
    .cons (p.newItem r pos n) nchildren (p.backItems nextId r size pos (n.getSize nchildren))

/-- `n` was split out of `r`, whose bytes are `src`. -/
structure SplitAt (ctx ctx' : Context) (k : Hole Item) (r : Item) (src : Source) (pos : Nat)
    (n : Item) (nchildren : ItemList) (p : Parts) : Prop where
  frontBytes : p.front.bytes = Lib.slice src.bytes 0 pos
  backBytes : p.back.bytes = Lib.slice src.bytes (pos + n.getSize nchildren)
    (src.size - n.getSize nchildren - pos)
  children : ctx'.children = k.plug (p.items ctx.nextId r src.size pos n nchildren)
  nextId : ctx'.nextId = splitNextId ctx.nextId src.size (n.getSize nchildren) pos
  moved : LabelsMoved ctx.labels ctx'.labels r (p.items ctx.nextId r src.size pos n nchildren)
  labelled : ∀ it ∈ (p.items ctx.nextId r src.size pos n nchildren).nodes,
    it.Labelled ctx'.labels ∨ ∃ it' ∈ nchildren.nodes, it'.id = it.id ∧ it'.labels = it.labels
  replaced : pos = 0 → src.size - n.getSize nchildren - pos = 0 →
    ctx'.pmap = replacedPmap ctx.pmap r .nil n.id
  sliced : ¬ (pos = 0 ∧ src.size - n.getSize nchildren - pos = 0) →
    ctx.pmap.keys.isEmpty = false →
      ctx'.pmap = emplaceAll r.position 0 (splitSeq ctx.nextId r src p.back pos n nchildren)
        (ctx.pmap.removedAll (.single r .nil))

theorem SplitAt.mem_new {ctx ctx' : Context} {k : Hole Item} {r : Item} {src : Source} {pos : Nat}
    {n : Item} {nchildren : ItemList} {p : Parts} (h : ctx.SplitAt ctx' k r src pos n nchildren p) :
    (p.newItem r pos n, nchildren) ∈ ctx'.children.subtrees := by
  rw [h.children, Hole.mem_subtrees_plug, Parts.items, Forest.subtrees_append]
  exact .inl (List.mem_append_right _ List.mem_cons_self)

/-- The raw parts keep the bytes around the new item. -/
theorem SplitAt.bytes {ctx ctx' : Context} {k : Hole Item} {r : Item} {src : Source} {pos : Nat}
    {n : Item} {nchildren : ItemList} {p : Parts} (h : ctx.SplitAt ctx' k r src pos n nchildren p)
    (hlen : pos + n.getSize nchildren ≤ src.size) :
    p.front.bytes ++ Lib.slice src.bytes pos (n.getSize nchildren) ++ p.back.bytes =
      src.bytes := by
  have hfirst := slice_append_slice src.bytes 0 pos (n.getSize nchildren)
  have hall := slice_append_slice src.bytes 0 (pos + n.getSize nchildren)
    (src.size - n.getSize nchildren - pos)
  rw [Nat.zero_add] at hfirst hall
  rw [h.frontBytes, h.backBytes, hfirst, hall, Lib.slice, List.drop_zero, List.take_of_length_le]
  rw [Source.length_bytes]
  omega

/-- The raw body of the part that is still `r`, and the bodies of the others. -/
theorem update_splitSeq {nextId pos : Nat} {r n : Item} {src front back : Source}
    {nchildren : ItemList} {lss : List (List LabelPtr)} {labels : LabelsMap}
    (hnew : ∀ it ∈ (Forest.single n nchildren).nodes, isItem r.id it = false)
    (hid : r.id < nextId) (hnot : ¬ (pos = 0 ∧ src.size - n.getSize nchildren - pos = 0))
    (hwithin : Within labels 0 (splitSeq nextId r src back pos n nchildren) lss) :
    ∃ p : Parts, p.front = front ∧ p.back = back ∧
      (placed r.position 0 (splitSeq nextId r src back pos n nchildren) lss).update (isItem r.id)
        (fun it cs => .single { it with body := .raw (if pos = 0 then back else front) } cs) =
          p.items nextId r src.size pos n nchildren := by
  have hn : isItem r.id n = false := hnew n List.mem_cons_self
  have hnchildren := Forest.update_eq_self (p := isItem r.id)
    (g := fun it cs => .single { it with body := .raw (if pos = 0 then back else front) } cs)
    fun it hit => hnew it (List.mem_cons_of_mem _ (List.mem_append_left _ hit))
  have hn' : decide (n.id = r.id) = false := hn
  have hfresh : decide (nextId = r.id) = false := decide_eq_false (by omega)
  by_cases hpos : pos = 0
  · subst hpos
    have hrest : ¬ src.size - n.getSize nchildren - 0 = 0 := fun h => hnot ⟨rfl, h⟩
    simp only [splitSeq, if_true, if_neg hrest, List.nil_append] at hwithin hnchildren ⊢
    obtain ⟨ls₂, lss₂, rfl, hwithin₂⟩ := within_cons hwithin
    obtain ⟨ls₃, lss₃, rfl, hwithin₃⟩ := within_cons hwithin₂
    obtain rfl := within_nil hwithin₃
    refine ⟨{ front, back, frontLabels := [], newLabels := ls₂, backLabels := ls₃ }, rfl, rfl, ?_⟩
    simp only [placed, Forest.update, isItem, hn', hnchildren, Parts.items,
      Parts.frontItems, Parts.newItem, Parts.backItems, if_neg hrest,
      if_true, decide_true, Bool.false_eq_true, if_false]
    rfl
  · by_cases hrest : src.size - n.getSize nchildren - pos = 0
    · simp only [splitSeq, if_neg hpos, if_pos hrest] at hwithin hnchildren ⊢
      obtain ⟨ls₁, lss₁, rfl, hwithin₁⟩ := within_cons hwithin
      obtain ⟨ls₂, lss₂, rfl, hwithin₂⟩ := within_cons hwithin₁
      obtain rfl := within_nil hwithin₂
      refine ⟨{ front, back, frontLabels := ls₁, newLabels := ls₂, backLabels := [] }, rfl, rfl,
        ?_⟩
      simp only [List.cons_append, List.nil_append, placed, Forest.update, isItem, hn',
        hnchildren, Parts.items, Parts.frontItems, Parts.newItem, Parts.backItems,
        if_neg hpos, if_pos hrest, Bool.false_eq_true, if_false]
      rfl
    · simp only [splitSeq, if_neg hpos, if_neg hrest] at hwithin hnchildren ⊢
      obtain ⟨ls₁, lss₁, rfl, hwithin₁⟩ := within_cons hwithin
      obtain ⟨ls₂, lss₂, rfl, hwithin₂⟩ := within_cons hwithin₁
      obtain ⟨ls₃, lss₃, rfl, hwithin₃⟩ := within_cons hwithin₂
      obtain rfl := within_nil hwithin₃
      refine ⟨{ front, back, frontLabels := ls₁, newLabels := ls₂, backLabels := ls₃ }, rfl, rfl,
        ?_⟩
      simp only [List.cons_append, List.nil_append, placed, Forest.update, isItem, hn',
        hfresh, hnchildren, Parts.items, Parts.frontItems, Parts.newItem, Parts.backItems,
        if_neg hpos, if_neg hrest, Bool.false_eq_true, if_false]
      rfl

section

variable {ctx : Context} {k : Hole Item} {r : Item} {src : Source}
  (hk : ctx.children = k.plug (.single r .nil)) (hapart : Apart r.id k)
  (hraw : r.body = .raw src) (hlabelled : r.Labelled ctx.labels)
  {pos : Nat} {n : Item} {nchildren : ItemList}

include hk hapart hraw

theorem split2_le {ctx' : Context} (h : ctx.split2 r.id pos n nchildren = .ok ctx') :
    pos + n.getSize nchildren ≤ src.size := by
  rw [split2, getRaw_hole hk hapart hraw, ok_bind] at h
  obtain ⟨_, hle, -⟩ := bind_eq_ok.mp h
  exact (require_eq_ok.mp hle).2

/-- The new item has no labels yet. -/
theorem split2_unlabelled {ctx' : Context} (h : ctx.split2 r.id pos n nchildren = .ok ctx') :
    n.labels = [] := by
  have hlen := split2_le hk hapart hraw h
  by_cases hwhole : pos = 0 ∧ src.size - n.getSize nchildren - pos = 0
  · rw [split2_whole hk hapart hraw hlen hwhole.1 hwhole.2] at h
    exact ((replace_eq_ok hk hapart).mp h).2.1
  · obtain ⟨front, back, -, -, hsplit⟩ := split2_sliced hk hapart hraw hlen hwhole
    rw [hsplit] at h
    obtain ⟨ctx₁, hslice, -⟩ := bind_eq_ok.mp h
    obtain ⟨_, -, hslice⟩ := bind_eq_ok.mp hslice
    obtain ⟨_, -, hslice⟩ := bind_eq_ok.mp hslice
    obtain ⟨s, hs, -⟩ := bind_eq_ok.mp hslice
    refine slicePieces_unlabelled hs
      { item := n, children := nchildren, pieceEnd := pos + n.getSize nchildren } ?_
    exact List.mem_append_right _ List.mem_cons_self

include hlabelled

/-- What `Split2` does. -/
theorem split2_ok (hnew : ∀ it ∈ (Forest.single n nchildren).nodes, isItem r.id it = false)
    (hid : r.id < ctx.nextId) {ctx' : Context}
    (h : ctx.split2 r.id pos n nchildren = .ok ctx') :
    ∃ p, ctx.SplitAt ctx' k r src pos n nchildren p := by
  have hlen := split2_le hk hapart hraw h
  by_cases hwhole : pos = 0 ∧ src.size - n.getSize nchildren - pos = 0
  · obtain ⟨hpos, hrest⟩ := hwhole
    rw [split2_whole hk hapart hraw hlen hpos hrest] at h
    obtain ⟨hoffsets, hnone, -, rfl⟩ := (replace_eq_ok hk hapart).mp h
    have hfrontLe : 0 + pos ≤ src.size := by omega
    have hbackLe : pos + n.getSize nchildren + (src.size - n.getSize nchildren - pos) ≤ src.size := by
      omega
    obtain ⟨front, -, hfront⟩ := Source.slice_of_le hfrontLe
    obtain ⟨back, -, hback⟩ := Source.slice_of_le hbackLe
    obtain ⟨hmoved, hlabelled'⟩ := replacement_labels hlabelled hoffsets
    have hitems : Parts.items ⟨front, back, [], r.labels, []⟩ ctx.nextId r src.size pos n nchildren =
        .single (replacement r n) nchildren := by
      simp only [Parts.items, Parts.frontItems, Parts.newItem, Parts.backItems, if_pos hpos,
        if_pos hrest, Forest.nil_append]
      rw [hpos]
      rfl
    refine ⟨⟨front, back, [], r.labels, []⟩, hfront, hback, ?_, ?_, ?_, ?_, fun _ _ => rfl,
      fun hnot => absurd ⟨hpos, hrest⟩ hnot⟩
    · rw [hitems]
    · rw [splitNextId, if_pos (.inl hpos)]
    · rwa [hitems]
    · rw [hitems]
      intro it hit
      rcases List.mem_cons.mp hit with rfl | hit
      · exact .inl hlabelled'
      · rw [Forest.nodes, List.append_nil] at hit
        exact .inr ⟨it, hit, rfl, rfl⟩
  · obtain ⟨front, back, hfront, hback, hsplit⟩ := split2_sliced hk hapart hraw hlen hwhole
    rw [hsplit] at h
    obtain ⟨ctx₁, hslice, h⟩ := bind_eq_ok.mp h
    cases h
    have hk₁ : Context.children { ctx with
        nextId := splitNextId ctx.nextId src.size (n.getSize nchildren) pos } =
        k.plug (.single r .nil) := hk
    obtain ⟨lss, hflat, hwithin, -, rfl⟩ := slice_ok hk₁ hapart hlabelled hslice
    obtain ⟨p, hpfront, hpback, hitems⟩ :=
      @update_splitSeq _ _ _ _ _ front _ _ _ _ hnew hid hwhole hwithin
    have hplace := Forest.map_nodes_update (p := isItem r.id) (f := Item.place)
      (g := fun it => { it with body := .raw (if pos = 0 then back else front) }) (fun _ => rfl)
      (placed r.position 0 (splitSeq ctx.nextId r src back pos n nchildren) lss)
    rw [hitems] at hplace
    refine ⟨p, hpfront ▸ hfront, hpback ▸ hback, ?_, rfl, ?_, ?_, fun hpos hrest =>
      absurd ⟨hpos, hrest⟩ hwhole, fun _ hmap => ?_⟩
    · rw [updateItem, ← hitems]
      exact Hole.update_plug hapart.before hapart.after _ _
    · exact (labelsMoved_placed hflat hlabelled.nodup hwithin).congr hplace
    · intro it hit
      obtain ⟨it', hit', hid', -, hlabels'⟩ := exists_place hplace.symm hit
      rcases labelled_placed (hflat.symm ▸ hlabelled.nodup) (hflat.symm ▸ hlabelled.sorted) hit'
        with ⟨hl, -⟩ | ⟨el, hel, hchild⟩
      · refine .inl ⟨hlabels' ▸ hl.nodup, hlabels' ▸ hl.sorted, ?_⟩
        rw [← hid', ← hlabels']
        exact hl.attached
      · exact .inr ⟨it', splitSeq_children hel hchild, hid', hlabels'⟩
    · change (if ctx.pmap.keys.isEmpty = true then _ else _) = _
      rw [hmap, hpback]
      rfl

/-- `Split2` refuses only labels at the end of the item, or behind it. -/
theorem exists_split2 (hnone : n.labels = []) (hlen : pos + n.getSize nchildren ≤ src.size)
    (hlt : ∀ l ∈ r.labels, ctx.labels.offset l < src.size) :
    ∃ ctx', ctx.split2 r.id pos n nchildren = .ok ctx' := by
  by_cases hwhole : pos = 0 ∧ src.size - n.getSize nchildren - pos = 0
  · rw [split2_whole hk hapart hraw hlen hwhole.1 hwhole.2]
    refine ⟨_, (replace_eq_ok hk hapart).mpr ⟨fun l hl => ?_, hnone, fun _ h => (nomatch h), rfl⟩⟩
    have := hlt l hl
    omega
  · obtain ⟨front, back, -, -, hsplit⟩ := split2_sliced hk hapart hraw hlen hwhole
    obtain ⟨hends, hend⟩ := splitSeq_ends ctx.nextId r back hlen
    have hk₁ : Context.children { ctx with
        nextId := splitNextId ctx.nextId src.size (n.getSize nchildren) pos } =
        k.plug (.single r .nil) := hk
    obtain ⟨ctx₁, hslice⟩ := exists_slice hk₁ hapart hlabelled hends
      (splitSeq_labels ctx.nextId pos r src back nchildren hnone) (hend ▸ hlt)
    rw [hsplit]
    exact ⟨_, bind_eq_ok.mpr ⟨ctx₁, hslice, rfl⟩⟩

end

end Context

end Neptools

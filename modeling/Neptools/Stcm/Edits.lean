import Neptools.Format.Keeps
import Neptools.Stcm.File
import Neptools.Stcm.Relabel

/-!
Reading an STCM file edits the items: the tables are split off, and an instruction
or data touches nothing but the raw item it is in, and what it makes itself.
-/

namespace Neptools

open Lib

namespace Context

variable {ctx ctx' : Context}

theorem relabels_createLabelFallbackAt {name : LabelPtr} {pos : Nat} {y : Context × LabelPtr}
    (h : ctx.createLabelFallbackAt name pos = .ok y) : ctx.Relabels y.1 := by
  obtain ⟨ptr, hptr, h⟩ := bind_eq_ok.mp h
  cases h
  obtain ⟨it, children, hfind, -⟩ := getPointer_ok hptr
  exact relabels_createLabelFallback name (get_of_find? hfind)

/-- The new label is at its position. -/
theorem Consistent.createLabelFallbackAt_toFilePos {name : LabelPtr} {pos : Nat}
    {y : Context × LabelPtr} (h : ctx.createLabelFallbackAt name pos = .ok y) :
    y.1.toFilePos y.2 = .ok pos := by
  have hrelabels := relabels_createLabelFallbackAt h
  obtain ⟨ptr, hptr, h⟩ := bind_eq_ok.mp h
  cases h
  obtain ⟨it, children, hfind, hpos⟩ := getPointer_ok hptr
  obtain ⟨it', children', hfind', hplain, -⟩ := hrelabels.find? hfind
  have hlookup : (ctx.createLabelFallback name ptr).1.labels.lookup
      (ctx.createLabelFallback name ptr).2 = some (some ptr) := AList.lookup_insert _
  rw [toFilePos, target_of_find? hlookup hfind', ok_bind]
  exact congrArg Except.ok (position_of_plain hplain ▸ hpos)

end Context

open Context

theorem CStringItem.edits_maybeCreate {own : Nat → Prop} {ctx : Context} {ptr : ItemPointer}
    {y : Context × Bytes} (h : maybeCreate ctx ptr = .ok y) : Edits own Body.Leaf ctx y.1 := by
  rw [maybeCreate] at h
  split at h
  · obtain ⟨src, -, h⟩ := bind_eq_ok.mp h
    obtain ⟨string, -, h⟩ := bind_eq_ok.mp h
    obtain ⟨ctx', hsplit, h⟩ := bind_eq_ok.mp h
    cases h
    exact .leaf hsplit rfl rfl rfl
  · obtain ⟨x, -, h⟩ := bind_eq_ok.mp h
    obtain ⟨_, -, h⟩ := bind_eq_ok.mp h
    split at h
    · cases h
      exact .refl ctx
    · cases h

namespace Stcm

theorem CollectionLinkItem.edits_parseName {own : Nat → Prop} {ctx : Context} {name : UInt32}
    {y : Context × Option LabelPtr} (h : parseName ctx name = .ok y) : Edits own Body.Leaf ctx y.1 := by
  rw [parseName] at h
  split at h
  · cases h
    exact .refl ctx
  · obtain ⟨ptr, -, h⟩ := bind_eq_ok.mp h
    obtain ⟨⟨ctx₁, str⟩, hcreate, h⟩ := bind_eq_ok.mp h
    obtain ⟨⟨ctx₂, l⟩, hlabel, h⟩ := bind_eq_ok.mp h
    cases h
    exact (CStringItem.edits_maybeCreate hcreate).trans
      (.single (.relabel (relabels_getLabelToNamed hlabel)))

theorem CollectionLinkItem.edits_parse {own : Nat → Prop} {ctx : Context} {src : Source} {n : Nat}
    {y : Context × List LinkEntry} (h : parse ctx src n = .ok y) : Edits own Body.Leaf ctx y.1 := by
  induction n generalizing ctx src y with
  | zero =>
      cases h
      exact .refl ctx
  | succ n ih =>
      obtain ⟨⟨e, src'⟩, -, h⟩ := bind_eq_ok.mp h
      obtain ⟨_, -, h⟩ := bind_eq_ok.mp h
      obtain ⟨⟨ctx₁, name0⟩, h0, h⟩ := bind_eq_ok.mp h
      obtain ⟨⟨ctx₂, name1⟩, h1, h⟩ := bind_eq_ok.mp h
      obtain ⟨⟨ctx₃, es⟩, hrest, h⟩ := bind_eq_ok.mp h
      cases h
      have hedits : Edits own Body.Leaf ctx₂ ctx₃ := ih hrest
      exact (edits_parseName h0).trans ((edits_parseName h1).trans hedits)

theorem CollectionLinkHeaderItem.edits_createAndInsert {ctx ctx' : Context}
    (hctx : ctx.Consistent) {ptr : ItemPointer} (h : createAndInsert ctx ptr = .ok ctx') :
    Edits (fun _ => True) Body.Leaf ctx ctx' := by
  obtain ⟨raw, -, h⟩ := bind_eq_ok.mp h
  obtain ⟨_, -, h⟩ := bind_eq_ok.mp h
  obtain ⟨⟨ctx₁, data⟩, hlabel, h⟩ := bind_eq_ok.mp h
  obtain ⟨ctx₂, hsplit, h⟩ := bind_eq_ok.mp h
  obtain ⟨ptr₂, -, h⟩ := bind_eq_ok.mp h
  have hrelabels := relabels_createLabelFallbackAt hlabel
  have hctx₂ := ((hrelabels.consistent hctx).splitCreate_keeps rfl hsplit).consistent
  refine (Edits.single (.relabel hrelabels)).trans
    ((Edits.leaf hsplit rfl rfl rfl).trans ?_)
  split at h
  · obtain ⟨src, -, h⟩ := bind_eq_ok.mp h
    obtain ⟨⟨ctx₃, entries⟩, hparse, h⟩ := bind_eq_ok.mp h
    exact (CollectionLinkItem.edits_parse hparse).trans (.leaf h rfl rfl rfl)
  · obtain ⟨_, -, h⟩ := bind_eq_ok.mp h
    obtain ⟨⟨it, children⟩, hget, h⟩ := bind_eq_ok.mp h
    dsimp only at h
    split at h
    · rename_i hbody
      have hnil := hctx₂.childless it children (find?_some (get_eq_ok hget)).1 (by rw [hbody]; rfl)
      rw [hnil] at hget
      exact .single (.replace h trivial rfl rfl rfl hget (by rw [hbody]; rfl) (by rw [hbody]; rfl)
        fun c hc => nomatch hc)
    · cases h

theorem ExpansionItem.edits_createAndInsert {own : Nat → Prop} {ctx : Context} {ptr : ItemPointer}
    {y : Context × Nat} (h : createAndInsert ctx ptr = .ok y) : Edits own Body.Leaf ctx y.1 := by
  obtain ⟨raw, -, h⟩ := bind_eq_ok.mp h
  obtain ⟨_, -, h⟩ := bind_eq_ok.mp h
  obtain ⟨⟨ctx₁, name⟩, hlabel, h⟩ := bind_eq_ok.mp h
  obtain ⟨ctx₂, hsplit, h⟩ := bind_eq_ok.mp h
  obtain ⟨ptr₂, -, h⟩ := bind_eq_ok.mp h
  obtain ⟨⟨ctx₃, str⟩, hcreate, h⟩ := bind_eq_ok.mp h
  cases h
  refine (Edits.single (.relabel ?_)).trans
    ((Edits.leaf hsplit rfl rfl rfl).trans (CStringItem.edits_maybeCreate hcreate))
  exact relabeling_getLabelTo ctx _ _ _ hlabel

theorem ExpansionsItem.edits_createAll {own : Nat → Prop} {ctx ctx' : Context}
    (hctx : ctx.Consistent) {next : Option (Item × ItemList)}
    (hnext : ∀ x, next = some x → x ∈ ctx.children.subtrees) {n : Nat}
    (h : createAll ctx next n = .ok ctx') : Edits own Body.Leaf ctx ctx' := by
  induction n generalizing ctx next with
  | zero =>
      rw [createAll] at h
      cases h
      exact .refl _
  | succ n ih =>
      cases next with
      | none => cases h
      | some x =>
          obtain ⟨it, children⟩ := x
          obtain ⟨ptr, -, h⟩ := bind_eq_ok.mp h
          obtain ⟨⟨ctx₁, exp⟩, hexp, h⟩ := bind_eq_ok.mp h
          have hrelabels := @relabels_createLabelFallback ctx expansionName
            { item := it.id, offset := 0 } _ (get_of_find? (hctx.find?_of_mem (hnext _ rfl)))
          have hedits : Edits own Body.Leaf ctx ctx₁ :=
            (Edits.single (.relabel hrelabels)).trans (ExpansionItem.edits_createAndInsert hexp)
          refine hedits.trans (ih (hedits.keeps hctx).consistent (fun x hx => ?_) h)
          exact Forest.mem_of_next? hx

theorem ExpansionsItem.edits_createAndInsert {ctx ctx' : Context} (hctx : ctx.Consistent)
    {ptr : ItemPointer} {count : UInt32} (h : createAndInsert ctx ptr count = .ok ctx') :
    Edits (ctx.nextId ≤ ·) (fun _ => True) ctx ctx' := by
  obtain ⟨ctx₁, hsplit, h⟩ := bind_eq_ok.mp h
  obtain ⟨ctx₂, hmove, h⟩ := bind_eq_ok.mp h
  obtain ⟨⟨it, children⟩, hget, h⟩ := bind_eq_ok.mp h
  obtain ⟨n, hfind, hbody⟩ := hctx.splitCreate_find? rfl hsplit
  have hkind : n.body.hasChildren = true := by rw [hbody]; rfl
  have hedits : Edits (ctx.nextId ≤ ·) (fun _ => True) ctx ctx₂ :=
    (Edits.single (.split hsplit trivial rfl rfl)).trans
      (.single (.nest (Nat.le_refl _) hfind hkind hmove))
  have hall : Edits (ctx.nextId ≤ ·) Body.Leaf ctx₂ ctx' := by
    refine edits_createAll (hedits.keeps hctx).consistent (fun x hx => ?_) h
    cases children with
    | nil => cases hx
    | cons child ds ts =>
        cases hx
        exact Forest.mem_subtrees_trans (find?_some (get_eq_ok hget)).1 List.mem_cons_self
  exact hedits.trans (hall.mono (fun _ h => h) fun _ _ => trivial)

theorem ExportsItem.relabels_parse [FixedString] {size : Nat} {ctx : Context} {src : Source}
    {n : Nat} {y : Context × List EntryType} (h : parse size ctx src n = .ok y) :
    ctx.Relabels y.1 ∧ y.2.length = n := by
  induction n generalizing ctx src y with
  | zero =>
      cases h
      exact ⟨.refl ctx, rfl⟩
  | succ n ih =>
      obtain ⟨⟨e, src'⟩, -, h⟩ := bind_eq_ok.mp h
      obtain ⟨_, -, h⟩ := bind_eq_ok.mp h
      obtain ⟨⟨ctx₁, lbl⟩, hlabel, h⟩ := bind_eq_ok.mp h
      obtain ⟨⟨ctx₂, es⟩, hrest, h⟩ := bind_eq_ok.mp h
      cases h
      obtain ⟨hrelabels, hlength⟩ := ih hrest
      exact ⟨(relabels_createLabelFallbackAt hlabel).trans hrelabels, congrArg (· + 1) hlength⟩

theorem ExportsItem.edits_insert [FixedString] {own : Nat → Prop} {ctx : Context}
    {ptr : ItemPointer} {count : UInt32} {y : Context × List EntryType}
    (h : insert ctx ptr count = .ok y) : Edits own Body.Leaf ctx y.1 := by
  obtain ⟨src, -, h⟩ := bind_eq_ok.mp h
  obtain ⟨⟨ctx₁, entries⟩, hparse, h⟩ := bind_eq_ok.mp h
  obtain ⟨ctx₂, hsplit, h⟩ := bind_eq_ok.mp h
  cases h
  exact (Edits.single (.relabel (relabels_parse hparse).1)).trans
    (.leaf hsplit rfl rfl rfl)

/-! What is visited. -/

theorem InstructionItem.edits_insert {ctx : Context} (hctx : ctx.Consistent) {ptr : ItemPointer}
    {y : Context × Nat × InstructionItem} (h : insert ctx ptr = .ok y) :
    Edits (ctx.nextId ≤ ·) Body.Lasting ctx y.1 ∧ y.2.1 = ctx.nextId := by
  obtain ⟨ctx₁, ctx₂, remData, hrelabels, hid, hsplit, hmove⟩ := insert_ok h
  have hctx₁ := hrelabels.consistent hctx
  have hctx₂ := hctx₁.splitCreate (fun hheader => by cases hheader) hsplit
  obtain ⟨n, hfind, hbody⟩ := hctx₁.splitCreate_find? rfl hsplit
  have hsize : 0 < (Body.instruction y.2.2).ownSize :=
    Nat.add_pos_left (show 0 < Pod.size InstructionItem.Header by decide) _
  have hedits : Edits (ctx.nextId ≤ ·) Body.Lasting ctx ctx₂ :=
    (Edits.single (.relabel hrelabels)).trans (.single (.split hsplit (.inr hsize) rfl rfl))
  rw [← hid] at hfind
  refine ⟨?_, hid.trans hrelabels.nextId⟩
  rcases hmove with heq | hmove
  · exact heq ▸ hedits
  · refine hedits.trans (.single (.nest ?_ hfind (by rw [hbody]; rfl) hmove))
    rw [hid, hrelabels.nextId]

/-- What data are made of, with what became their child. -/
theorem DataItem.insert_ok {ctx ctx' : Context} {ptr : ItemPointer} {id : Nat}
    (h : insert ctx ptr = .ok (ctx', id)) :
    ∃ raw ctx₁, ctx.getRecord Header ptr = .ok raw ∧ id = ctx.nextId ∧
      ctx.splitCreate ptr.item ptr.offset
        (.data { type := raw.type, offsetUnit := raw.offsetUnit, field8 := raw.field8 }) =
          .ok ctx₁ ∧
      (raw.length.toNat = 0 ∧ ctx' = ctx₁ ∨
        0 < raw.length.toNat ∧ ctx₁.moveNextToChild id raw.length.toNat = .ok ctx') := by
  obtain ⟨_, -, h⟩ := bind_eq_ok.mp h
  obtain ⟨raw, hraw, h⟩ := bind_eq_ok.mp h
  obtain ⟨_, -, h⟩ := bind_eq_ok.mp h
  obtain ⟨ctx₁, hsplit, h⟩ := bind_eq_ok.mp h
  refine ⟨raw, ctx₁, hraw, ?_⟩
  dsimp only at h
  split at h
  · rename_i hpos
    obtain ⟨ctx₂, hmove, h⟩ := bind_eq_ok.mp h
    obtain ⟨_, -, h⟩ := bind_eq_ok.mp h
    obtain ⟨_, -, h⟩ := bind_eq_ok.mp h
    cases h
    exact ⟨rfl, hsplit, .inr ⟨hpos, hmove⟩⟩
  · rename_i hzero
    obtain ⟨ctx₂, heq, h⟩ := bind_eq_ok.mp h
    obtain ⟨_, -, h⟩ := bind_eq_ok.mp h
    obtain ⟨_, -, h⟩ := bind_eq_ok.mp h
    cases heq
    cases h
    exact ⟨rfl, hsplit, .inl ⟨Nat.eq_zero_of_not_pos hzero, rfl⟩⟩

theorem DataItem.edits_insert {ctx ctx' : Context} (hctx : ctx.Consistent) {ptr : ItemPointer}
    {id : Nat} (h : insert ctx ptr = .ok (ctx', id)) :
    Edits (ctx.nextId ≤ ·) Body.Lasting ctx ctx' ∧ id = ctx.nextId := by
  obtain ⟨raw, ctx₁, -, rfl, hsplit, hmove⟩ := insert_ok h
  have hsize (d : DataItem) : 0 < (Body.data d).ownSize := show 0 < Pod.size Header by decide
  have hedits : Edits (ctx.nextId ≤ ·) Body.Lasting ctx ctx₁ :=
    .single (.split hsplit (.inr (hsize _)) rfl rfl)
  obtain ⟨n, hfind, hbody⟩ := hctx.splitCreate_find? rfl hsplit
  have hctx₁ := hctx.splitCreate (fun hheader => by cases hheader) hsplit
  refine ⟨?_, rfl⟩
  rcases hmove with ⟨-, heq⟩ | ⟨-, hmove⟩
  · exact heq ▸ hedits
  · exact hedits.trans (.single (.nest (Nat.le_refl _) hfind (by rw [hbody]; rfl) hmove))

theorem DataFactory.edits_checkFun {own : Nat → Prop} {ctx : Context} {body : UInt32 → Body}
    (hbody : ∀ value, (body value).hasChildren = false ∧ (body value).isHeader = false ∧
      (body value).isRaw = false) {typeId : UInt32} {id : Nat} {y : Context × Bool}
    (h : checkFun body typeId ctx id = .ok y) : Edits own Body.Leaf ctx y.1 := by
  obtain ⟨⟨it, children⟩, hget, h⟩ := bind_eq_ok.mp h
  dsimp only at h
  split at h
  · split at h
    · obtain ⟨ctx', hinsert, h⟩ := bind_eq_ok.mp h
      cases h
      obtain ⟨src, -, hinsert⟩ := bind_eq_ok.mp hinsert
      obtain ⟨value, -, hinsert⟩ := bind_eq_ok.mp hinsert
      obtain ⟨hkind, hheader, hraw⟩ := hbody value
      exact .leaf hinsert hkind hheader hraw
    · cases h
      exact .refl ctx
  · cases h
    exact .refl ctx

theorem DataFactory.edits_apply {own : Nat → Prop} {ctx : Context} (hctx : ctx.Consistent)
    {id : Nat} (hown : own id) {f : DataFactory} {y : Context × Bool}
    (h : f.apply ctx id = .ok y) : Edits own Body.Leaf ctx y.1 := by
  cases f with
  | int32 => exact edits_checkFun (fun _ => ⟨rfl, rfl, rfl⟩) h
  | float => exact edits_checkFun (fun _ => ⟨rfl, rfl, rfl⟩) h
  | stringData =>
      obtain ⟨⟨it, children⟩, hget, h⟩ := bind_eq_ok.mp h
      dsimp only at h
      split at h
      · rename_i d src hbody honly
        obtain ⟨child, ds, rfl, hraw⟩ := StringDataItem.onlyRawChild_eq_some honly
        obtain ⟨found, -, h⟩ := bind_eq_ok.mp h
        cases found with
        | none =>
            cases h
            exact .refl ctx
        | some s =>
            obtain ⟨ctx', hreplace, h⟩ := bind_eq_ok.mp h
            cases h
            -- a raw item has no children
            have hmem : (child, ds) ∈ ctx.children.subtrees :=
              Forest.mem_subtrees_trans (find?_some (get_eq_ok hget)).1 List.mem_cons_self
            obtain rfl : ds = .nil := hctx.childless child ds hmem (by rw [hraw]; rfl)
            refine .single (.replace hreplace hown rfl rfl rfl hget (by rw [hbody]; rfl)
              (by rw [hbody]; rfl) fun c hc => ?_)
            rw [List.mem_singleton.mp hc, hraw]
            rfl
      · cases h
        exact .refl ctx
  | gbnl =>
      obtain ⟨⟨it, children⟩, hget, h⟩ := bind_eq_ok.mp h
      dsimp only at h
      split at h
      · cases h
        exact .refl ctx
      · obtain ⟨found, -, h⟩ := bind_eq_ok.mp h
        cases found with
        | false =>
            cases h
            exact .refl ctx
        | true =>
            obtain ⟨ctx', hinsert, h⟩ := bind_eq_ok.mp h
            cases h
            obtain ⟨src, -, hinsert⟩ := bind_eq_ok.mp hinsert
            obtain ⟨g, -, hinsert⟩ := bind_eq_ok.mp hinsert
            exact .leaf hinsert rfl rfl rfl

theorem DataFactory.edits_check {own : Nat → Prop} {ctx ctx' : Context} (hctx : ctx.Consistent)
    {id : Nat} (hown : own id) {fs : List DataFactory} (h : check ctx id fs = .ok ctx') :
    Edits own Body.Leaf ctx ctx' := by
  induction fs generalizing ctx with
  | nil =>
      cases h
      exact .refl _
  | cons f fs ih =>
      obtain ⟨⟨ctx₁, found⟩, happly, h⟩ := bind_eq_ok.mp h
      have hedits : Edits own Body.Leaf ctx ctx₁ := edits_apply hctx hown happly
      dsimp only at h
      split at h
      · cases h
        exact hedits
      · exact hedits.trans (ih (hedits.keeps hctx).consistent h)

theorem DataItem.edits_createAndInsert {factories : List DataFactory} {ctx ctx' : Context}
    (hctx : ctx.Consistent) {ptr : ItemPointer}
    (h : createAndInsert factories ctx ptr = .ok ctx') : Edits (ctx.nextId ≤ ·) Body.Lasting ctx ctx' := by
  obtain ⟨⟨ctx₁, id⟩, hinsert, h⟩ := bind_eq_ok.mp h
  obtain ⟨hedits, hid⟩ := edits_insert hctx hinsert
  obtain ⟨⟨it, children⟩, -, h⟩ := bind_eq_ok.mp h
  dsimp only at h
  split at h
  · cases h
    exact hedits
  · have hchecked : Edits (ctx.nextId ≤ ·) Body.Leaf ctx₁ ctx' :=
      DataFactory.edits_check (hedits.keeps hctx).consistent (Nat.le_of_eq hid.symm) h
    exact hedits.trans (hchecked.mono (fun _ h => h) fun _ => .inl)

theorem Walk.edits_step {factories : List DataFactory} {w w' : Walk} (hctx : w.ctx.Consistent)
    (h : w.step factories = .ok w') : Edits (w.ctx.nextId ≤ ·) Body.Lasting w.ctx w'.ctx := by
  rw [step] at h
  split at h
  · cases h
    exact .refl _
  · obtain ⟨ptr, -, h⟩ := bind_eq_ok.mp h
    obtain ⟨ctx', hcreate, h⟩ := bind_eq_ok.mp h
    cases h
    rw [DataItem.maybeCreate] at hcreate
    split at hcreate
    · exact DataItem.edits_createAndInsert hctx hcreate
    · obtain ⟨_, -, heq⟩ := bind_eq_ok.mp hcreate
      cases heq
      exact .refl _
  · obtain ⟨ptr, -, h⟩ := bind_eq_ok.mp h
    obtain ⟨⟨ctx', visits⟩, hcreate, h⟩ := bind_eq_ok.mp h
    cases h
    rw [InstructionItem.maybeCreate] at hcreate
    split at hcreate
    · obtain ⟨y, hinsert, heq⟩ := bind_eq_ok.mp hcreate
      cases heq
      exact (InstructionItem.edits_insert hctx hinsert).1
    · obtain ⟨_, -, heq⟩ := bind_eq_ok.mp hcreate
      cases heq
      exact .refl _

end Stcm

end Neptools

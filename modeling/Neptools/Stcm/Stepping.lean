import Neptools.Format.Followed
import Neptools.Format.Nest
import Neptools.Stcm.Carve
import Neptools.Stcm.Counts

/-!
The steps to the item behind another one. At the top a file ends with an item that is
not raw, so a raw item is followed by another one; but the data of an instruction may
end with any item, and an instruction there can be told to go on behind the end.
-/

namespace Neptools

open Lib Context

namespace Stcm

namespace InstructionItem

/-- `CreateAndInsert` up to the data, with the new item. -/
def insertHeader (ctx : Context) (ptr : ItemPointer) :
    Except Error (Context × Nat × Header × InstructionItem) := do
  let src ← ctx.getSource ptr
  src.checkSize (Pod.size Header)
  let inst ← src.preadGen Header 0
  src.checkSize inst.size.toNat
  let (ctx, instruction) ← parse ctx src
  let (nitem, ctx) := ctx.create (.instruction instruction)
  let ctx ← ctx.splitItem ptr.item ptr.offset nitem
  pure (ctx, nitem.id, inst, instruction)

/-- `rem_data` -/
def Header.remData (inst : Header) : Nat :=
  inst.size.toNat - Pod.size Header - Pod.size Parameter * inst.paramCount.toNat

/-- The data of an instruction become its child. -/
def insertData (ctx : Context) (id : Nat) (inst : Header) : Except Error Context := do
  let ctx ← if inst.remData ≠ 0 then ctx.moveNextToChild id inst.remData else pure ctx
  let (it, children) ← ctx.get id
  require (it.getSize children = inst.size.toNat)
    (Error.assertionFailed "ret.GetSize() == inst.size")
  pure ctx

theorem insert_eq (ctx : Context) (ptr : ItemPointer) :
    insert ctx ptr = (do
      let (ctx, id, inst, instruction) ← insertHeader ctx ptr
      let ctx ← insertData ctx id inst
      pure (ctx, id, instruction)) := by
  simp only [insert, insertHeader, insertData, Header.remData, bind_assoc, pure_bind]
  refine bind_congr fun src => bind_congr fun _ => bind_congr fun inst => bind_congr fun _ =>
    bind_congr fun parsed => bind_congr fun ctx' => ?_
  split
  · simp only [bind_assoc, pure_bind]
  · simp only [bind_assoc, pure_bind]

/-- `MoveNextToChild` finds the item behind the instruction. -/
def StepsInside (ctx : Context) (ptr : ItemPointer) : Prop :=
  ∀ y, insertHeader ctx ptr = .ok y → y.2.2.1.remData ≠ 0 → y.1.HasNext y.2.1

instance (ctx : Context) (ptr : ItemPointer) : Decidable (StepsInside ctx ptr) :=
  inferInstanceAs (Decidable (∀ _, _ → _))

/-- Whether the instruction behind is read too. -/
def Header.returns (inst : Header) : Bool := inst.isCall ≠ 0 ∨ inst.opcode ∉ noReturns

def Header.dataOffset (inst : Header) : Nat :=
  Pod.size Header + inst.paramCount.toNat * Pod.size Parameter

theorem Header.remData_eq (inst : Header) : inst.remData = inst.size.toNat - inst.dataOffset := by
  rw [remData, dataOffset, Nat.sub_sub, Nat.mul_comm]

/-- At the end of a list, with `room` bytes left: an instruction that takes them all does
not lead to the one behind it, and one whose parameters take them all has no data. -/
structure Header.LeavesRoom (inst : Header) (room : Nat) : Prop where
  returns : inst.size.toNat = room → inst.returns = false
  data : inst.dataOffset = room → inst.size.toNat = room

theorem length_parseParams {ctx : Context} {src : Source} {n : Nat} {y : Context × List Param}
    (h : parseParams ctx src n = .ok y) : y.2.length = n := by
  induction n generalizing ctx src y with
  | zero =>
      cases h
      rfl
  | succ n ih =>
      obtain ⟨⟨raw, src'⟩, -, h⟩ := bind_eq_ok.mp h
      obtain ⟨⟨ctx₁, p⟩, -, h⟩ := bind_eq_ok.mp h
      obtain ⟨⟨ctx₂, ps⟩, hps, h⟩ := bind_eq_ok.mp h
      cases h
      exact congrArg (· + 1) (ih hps)

/-- What the header tells of an instruction that is accepted. -/
theorem parse_header {ctx : Context} {src : Source} {y : Context × InstructionItem}
    (h : parse ctx (src.at_ 0) = .ok y) {inst : Header} (hinst : src.preadGen Header 0 = .ok inst) :
    (Body.instruction y.2).ownSize = inst.dataOffset ∧ y.2.returns = inst.returns ∧
      inst.validate ctx.getSize = .ok () := by
  obtain ⟨⟨instr, src'⟩, hread, h⟩ := bind_eq_ok.mp h
  rw [Source.readGen_of_standsAt (Source.standsAt_of_preadGen hinst)] at hread
  cases hread
  obtain ⟨_, hvalid, h⟩ := bind_eq_ok.mp h
  dsimp only at h
  split at h
  · rename_i hcall
    obtain ⟨⟨ctx₁, l⟩, -, h⟩ := bind_eq_ok.mp h
    obtain ⟨_, heq, h⟩ := bind_eq_ok.mp h
    cases heq
    obtain ⟨⟨ctx₂, params⟩, hparams, h⟩ := bind_eq_ok.mp h
    cases h
    refine ⟨?_, (decide_eq_true (.inl hcall)).symm, hvalid⟩
    rw [Body.ownSize, length_parseParams hparams, Header.dataOffset]
  · rename_i hcall
    obtain ⟨_, heq, h⟩ := bind_eq_ok.mp h
    cases heq
    obtain ⟨⟨ctx₂, params⟩, hparams, h⟩ := bind_eq_ok.mp h
    cases h
    refine ⟨?_, decide_eq_decide.mpr (or_iff_right hcall).symm, hvalid⟩
    rw [Body.ownSize, length_parseParams hparams, Header.dataOffset]

theorem insertHeader_ok {ctx : Context} {ptr : ItemPointer}
    {y : Context × Nat × Header × InstructionItem} (h : insertHeader ctx ptr = .ok y) :
    ∃ src ctx₁, ctx.getSource ptr = .ok src ∧ src.preadGen Header 0 = .ok y.2.2.1 ∧
      ctx.Relabels ctx₁ ∧ y.2.1 = ctx₁.nextId ∧
      ctx₁.splitCreate ptr.item ptr.offset (.instruction y.2.2.2) = .ok y.1 ∧
      (Body.instruction y.2.2.2).ownSize = y.2.2.1.dataOffset ∧
      y.2.2.2.returns = y.2.2.1.returns ∧ y.2.2.1.validate ctx.getSize = .ok () := by
  obtain ⟨src, hsrc, h⟩ := bind_eq_ok.mp h
  obtain ⟨_, -, h⟩ := bind_eq_ok.mp h
  obtain ⟨inst, hinst, h⟩ := bind_eq_ok.mp h
  obtain ⟨_, -, h⟩ := bind_eq_ok.mp h
  obtain ⟨⟨ctx₁, i⟩, hparse, h⟩ := bind_eq_ok.mp h
  obtain ⟨ctx₂, hsplit, h⟩ := bind_eq_ok.mp h
  cases h
  have hrelabels := relabeling_parse ctx src ctx₁ i hparse
  obtain ⟨-, -, -, hat⟩ := getSource_spec hsrc
  rw [hat] at hparse
  obtain ⟨hsize, hreturns, hvalid⟩ := parse_header hparse hinst
  exact ⟨src, ctx₁, hsrc, hinst, hrelabels, rfl, hsplit, hsize, hreturns, hvalid⟩

/-- What follows the instruction while its data are not its child yet. -/
theorem insertHeader_next {ctx : Context} (hctx : ctx.Consistent) {ptr : ItemPointer}
    {y : Context × Nat × Header × InstructionItem} (h : insertHeader ctx ptr = .ok y) :
    ∃ src, ctx.getSource ptr = .ok src ∧ src.preadGen Header 0 = .ok y.2.2.1 ∧
      (y.2.2.1.dataOffset = src.size ∧ (y.1.HasNext y.2.1 ↔ ctx.HasNext ptr.item) ∧
          (ctx.RawSpaced → ∀ x, y.1.children.next? (isItem y.2.1) = some x →
            x.1.body.isRaw = false) ∨
        ∃ b back, y.1.children.next? (isItem y.2.1) = some (b, .nil) ∧ b.body = .raw back ∧
          y.2.2.1.dataOffset + back.size = src.size ∧
          (y.1.HasNext b.id ↔ ctx.HasNext ptr.item)) := by
  obtain ⟨src, ctx₁, hsrc, hinst, hrelabels, hid, hsplit, hsize, -, -⟩ := insertHeader_ok h
  have hctx₁ := hrelabels.consistent hctx
  obtain ⟨whole, hbody, hwhole, -⟩ := getSource_spec hsrc
  obtain ⟨whole', hbody', hnext⟩ := hctx₁.splitCreate_next hsplit
  rw [hrelabels.bodyOf, hbody] at hbody'
  cases hbody'
  rw [hsize] at hnext
  refine ⟨src, hsrc, hinst, ?_⟩
  rw [hid, ← hrelabels.hasNext]
  rcases hnext with ⟨hall, hsame⟩ | ⟨b, back, hsome, hraw, -, hrest, hsame⟩
  · refine .inl ⟨by omega, by rw [HasNext, HasNext, hsame], fun hspaced x hx => ?_⟩
    rw [hsame] at hx
    refine (hrelabels.rawSpaced hspaced).next? (fun it hit hisItem => ?_) hx
    obtain ⟨children, hmem⟩ := Forest.mem_nodes.mp hit
    have hraw := hctx₁.bodyOf_of_mem hmem
    rw [of_decide_eq_true hisItem, hrelabels.bodyOf, hbody] at hraw
    rw [← Option.some.inj hraw]
    rfl
  · exact .inr ⟨b, back, hsome, hraw, by omega, by rw [HasNext, HasNext, hsame]⟩

/-- Another item follows, or the instruction leaves room for one, if its header is not
refused. -/
def LeavesRoom (ctx : Context) (ptr : ItemPointer) : Prop :=
  ctx.HasNext ptr.item ∨ ∀ src, ctx.getSource ptr = .ok src →
    ∀ inst, src.preadGen Header 0 = .ok inst → inst.validate ctx.getSize = .ok () →
      inst.LeavesRoom src.size

instance (inst : Header) (room : Nat) : Decidable (inst.LeavesRoom room) :=
  decidable_of_iff ((inst.size.toNat = room → inst.returns = false) ∧
    (inst.dataOffset = room → inst.size.toNat = room))
    ⟨fun h => ⟨h.1, h.2⟩, fun h => ⟨h.returns, h.data⟩⟩

instance (ctx : Context) (ptr : ItemPointer) : Decidable (LeavesRoom ctx ptr) :=
  inferInstanceAs (Decidable (_ ∨ _))

section

variable {ctx : Context} (hctx : ctx.Consistent) {ptr : ItemPointer} (hroom : LeavesRoom ctx ptr)

include hctx hroom

theorem LeavesRoom.stepsInside : StepsInside ctx ptr := by
  intro y h hdata
  obtain ⟨_, _, -, -, -, -, -, -, -, hvalid⟩ := insertHeader_ok h
  have hoffset : y.2.2.1.dataOffset ≤ y.2.2.1.size.toNat := Header.room_of_validate hvalid
  obtain ⟨src, hsrc, hinst, hnext⟩ := insertHeader_next hctx h
  rcases hnext with ⟨hall, hsame, -⟩ | ⟨b, back, hsome, -⟩
  · rcases hroom with hfollowed | hroom
    · exact hsame.mpr hfollowed
    · -- there are no data
      have hfull := (hroom src hsrc _ hinst hvalid).data hall
      rw [Header.remData_eq] at hdata
      omega
  · rw [HasNext, hsome]
    exact Option.some_ne_none _

/-- The instruction behind one that returns is there. -/
theorem LeavesRoom.standing (hspaced : ctx.RawSpaced) {y : Context × Nat × InstructionItem}
    (h : insert ctx ptr = .ok y) (hreturns : y.2.2.returns = true) : y.1.Standing y.2.1 := by
  rw [insert_eq] at h
  obtain ⟨⟨ctx₂, id, inst, i⟩, hheader, h⟩ := bind_eq_ok.mp h
  obtain ⟨ctx₃, hdata, h⟩ := bind_eq_ok.mp h
  cases h
  obtain ⟨_, ctx₁, -, -, hrelabels, rfl, hsplit, -, hkind, hvalid⟩ := insertHeader_ok hheader
  have hctx₂ := ((hrelabels.consistent hctx).splitCreate_keeps rfl hsplit).consistent
  obtain ⟨n, hfind, hbody⟩ := (hrelabels.consistent hctx).splitCreate_find? rfl hsplit
  obtain ⟨src, hsrc, hinst, hnext⟩ := insertHeader_next hctx hheader
  dsimp only at hreturns hkind hvalid hinst hnext hsplit hfind hbody ⊢
  have hoffset : inst.dataOffset ≤ inst.size.toNat := Header.room_of_validate hvalid
  rw [hkind] at hreturns
  -- with `ptr.item` at the end of its list, the instruction does not fill it
  have hfollowed (hfull : inst.size.toNat = src.size) : ctx.HasNext ptr.item :=
    hroom.resolve_right fun hroom =>
      absurd (hreturns.symm.trans ((hroom src hsrc _ hinst hvalid).returns hfull)) Bool.noConfusion
  rw [insertData, Header.remData_eq] at hdata
  split at hdata
  · obtain ⟨ctx₄, hmove, hdata⟩ := bind_eq_ok.mp hdata
    obtain ⟨_, -, hdata⟩ := bind_eq_ok.mp hdata
    obtain ⟨_, -, hdata⟩ := bind_eq_ok.mp hdata
    cases hdata
    obtain ⟨_, _, _, child, -, -, -, -, -, -, hfind', -⟩ :=
      hctx₂.moveNextToChild_spec hfind (by rw [hbody]; rfl) hmove
    obtain ⟨hmem, hid⟩ := find?_some hfind'
    refine ⟨⟨n, Forest.mem_nodes.mpr ⟨_, hmem⟩, hid, by rw [hbody]; rfl⟩, ?_⟩
    obtain ⟨next, data, hsome, hraw, hle, hless, hall⟩ := hctx₂.moveNextToChild_next hmove
    rcases hnext with ⟨-, -, hnot⟩ | ⟨b, back, hsome', hback, hrest, hsame⟩
    · have hparsed := hnot hspaced _ hsome
      rw [hraw] at hparsed
      cases hparsed
    · cases hsome.symm.trans hsome'
      cases hraw.symm.trans hback
      rcases Nat.lt_or_eq_of_le hle with hlt | heq
      · exact hless hlt
      · rw [HasNext, hall heq]
        exact hsame.mpr (hfollowed (by omega))
  · obtain ⟨_, heq, hdata⟩ := bind_eq_ok.mp hdata
    cases heq
    obtain ⟨_, -, hdata⟩ := bind_eq_ok.mp hdata
    obtain ⟨_, -, hdata⟩ := bind_eq_ok.mp hdata
    cases hdata
    obtain ⟨hmem, hid⟩ := find?_some hfind
    refine ⟨⟨n, Forest.mem_nodes.mpr ⟨_, hmem⟩, hid, by rw [hbody]; rfl⟩, ?_⟩
    rcases hnext with ⟨hall, hsame, -⟩ | ⟨b, back, hsome, -⟩
    · exact hsame.mpr (hfollowed (by omega))
    · rw [HasNext, hsome]
      exact Option.some_ne_none _

end

end InstructionItem

namespace DataItem

/-- `CreateAndInsert` up to the data, with the new item. -/
def insertHeader (ctx : Context) (ptr : ItemPointer) : Except Error (Context × Nat × Header) := do
  let (_, _, src) ← ctx.getRaw ptr.item
  let raw ← ctx.getRecord Header ptr
  raw.validate (src.size - ptr.offset - Pod.size Header)
  let (nitem, ctx) := ctx.create
    (.data { type := raw.type, offsetUnit := raw.offsetUnit, field8 := raw.field8 })
  let ctx ← ctx.splitItem ptr.item ptr.offset nitem
  pure (ctx, nitem.id, raw)

def insertData (ctx : Context) (id : Nat) (raw : Header) : Except Error Context := do
  let ctx ← if 0 < raw.length.toNat then ctx.moveNextToChild id raw.length.toNat else pure ctx
  let (it, children) ← ctx.get id
  require (it.getSize children = Pod.size Header + raw.length.toNat)
    (Error.assertionFailed "ret.GetSize() == sizeof(Header) + x.t.length")
  pure ctx

theorem insert_eq (ctx : Context) (ptr : ItemPointer) :
    insert ctx ptr = (do
      let (ctx, id, raw) ← insertHeader ctx ptr
      let ctx ← insertData ctx id raw
      pure (ctx, id)) := by
  simp only [insert, insertHeader, insertData, bind_assoc, pure_bind]
  refine bind_congr fun src => bind_congr fun raw => bind_congr fun _ => bind_congr fun ctx' => ?_
  split
  · simp only [bind_assoc, pure_bind]
  · simp only [bind_assoc, pure_bind]

/-- `MoveNextToChild` finds the item behind the header. -/
def StepsInside (ctx : Context) (ptr : ItemPointer) : Prop :=
  ∀ y, insertHeader ctx ptr = .ok y → 0 < y.2.2.length.toNat → y.1.HasNext y.2.1

instance (ctx : Context) (ptr : ItemPointer) : Decidable (StepsInside ctx ptr) :=
  inferInstanceAs (Decidable (∀ _, _ → _))

/-- The header is checked against what is left behind it. -/
theorem stepsInside {ctx : Context} (hctx : ctx.Consistent) (ptr : ItemPointer) :
    StepsInside ctx ptr := by
  intro y h hdata
  obtain ⟨⟨it, children, src⟩, hraw, h⟩ := bind_eq_ok.mp h
  obtain ⟨raw, -, h⟩ := bind_eq_ok.mp h
  obtain ⟨_, hvalid, h⟩ := bind_eq_ok.mp h
  obtain ⟨ctx', hsplit, h⟩ := bind_eq_ok.mp h
  cases h
  obtain ⟨_, -, hvalid⟩ := bind_eq_ok.mp hvalid
  have hlength : raw.length.toNat ≤ src.size - ptr.offset - Pod.size Header :=
    require_eq_ok.mp hvalid
  obtain ⟨src', hbody, hnext⟩ := hctx.splitCreate_next hsplit
  cases hbody.symm.trans (bodyOf_of_getRaw hraw)
  rcases hnext with ⟨hall, -⟩ | ⟨b, back, hsome, -⟩
  · have hall : ptr.offset + Pod.size Header = src.size := hall
    have hdata : 0 < raw.length.toNat := hdata
    omega
  · change ctx'.children.next? (isItem ctx.nextId) ≠ none
    rw [hsome]
    exact Option.some_ne_none _

end DataItem

namespace ExpansionsItem

/-- `MoveNextToChild` finds the item behind the new one. -/
def StepsInside (ctx : Context) (ptr : ItemPointer) : Prop :=
  ∀ ctx', ctx.splitCreate ptr.item ptr.offset .expansions = .ok ctx' → ctx'.HasNext ctx.nextId

instance (ctx : Context) (ptr : ItemPointer) : Decidable (StepsInside ctx ptr) :=
  inferInstanceAs (Decidable (∀ _, _ → _))

theorem stepsInside {ctx : Context} (hctx : ctx.Consistent) (hspaced : ctx.RawSpaced)
    (hflat : ctx.Flat) (ptr : ItemPointer) : StepsInside ctx ptr := by
  intro ctx' hsplit
  obtain ⟨src, hbody, ⟨-, hsame⟩ | ⟨b, back, hsome, -⟩⟩ := hctx.splitCreate_next hsplit
  · rw [HasNext, hsame]
    exact hctx.hasNext_of_flat hspaced hflat hbody
  · rw [HasNext, hsome]
    exact Option.some_ne_none _

end ExpansionsItem

namespace HeaderItem

/-- `CreateAndInsert` up to the expansions. -/
def beforeExpansions [FixedString] (ctx : Context) (ptr : ItemPointer) :
    Except Error (Context × Header × HeaderItem) := do
  let raw ← ctx.getRecord Header ptr
  let (ctx, hdr) ← parse ctx raw
  let ctx ← ctx.splitCreate ptr.item ptr.offset (.header hdr)
  let ptr ← ctx.getPtr hdr.collectionLink
  let ctx ← CollectionLinkHeaderItem.createAndInsert ctx ptr
  pure (ctx, raw, hdr)

theorem insert_eq [FixedString] (ctx : Context) (ptr : ItemPointer) :
    insert ctx ptr = (do
      let (ctx, raw, hdr) ← beforeExpansions ctx ptr
      let ctx ← insertExpansions ctx raw.expansionCount hdr.expansion
      let ptr ← ctx.getPtr hdr.exportSec
      ExportsItem.insert ctx ptr raw.exportCount) := by
  simp only [insert, beforeExpansions, bind_assoc, pure_bind]

/-- All items are in one list, and it does not end with a raw one. -/
structure Listed (ctx : Context) : Prop where
  consistent : ctx.Consistent
  rawSpaced : ctx.RawSpaced
  flat : ctx.Flat

theorem Listed.edits {own : Nat → Prop} {ctx ctx' : Context} (h : Listed ctx)
    (hedits : Edits own Body.Leaf ctx ctx') : Listed ctx' where
  consistent := (hedits.keeps h.consistent).consistent
  rawSpaced := hedits.rawSpaced h.consistent h.rawSpaced
  flat := hedits.flat h.consistent h.flat

/-- The header itself is one of the items. -/
theorem Listed.split {ctx ctx' : Context} (h : Listed ctx) {id pos : Nat} {body : Body}
    (hkind : body.hasChildren = false) (hraw : body.isRaw = false)
    (hsplit : ctx.splitCreate id pos body = .ok ctx') : Listed ctx' where
  consistent := h.consistent.splitCreate_of_flat h.flat hsplit
  rawSpaced := h.consistent.splitCreate_rawSpaced hraw hsplit h.rawSpaced
  flat := h.consistent.splitCreate_flat hkind hsplit h.flat

theorem beforeExpansions_listed [FixedString] {ctx : Context} (h : Listed ctx) {ptr : ItemPointer}
    {y : Context × Header × HeaderItem} (hinsert : beforeExpansions ctx ptr = .ok y) :
    Listed y.1 := by
  obtain ⟨hdr, -, hinsert⟩ := bind_eq_ok.mp hinsert
  obtain ⟨⟨ctx₁, hd⟩, hparse, hinsert⟩ := bind_eq_ok.mp hinsert
  obtain ⟨ctx₂, hsplit, hinsert⟩ := bind_eq_ok.mp hinsert
  obtain ⟨linkPtr, -, hinsert⟩ := bind_eq_ok.mp hinsert
  obtain ⟨ctx₃, hlinks, hinsert⟩ := bind_eq_ok.mp hinsert
  cases hinsert
  have hparsed : Edits (fun _ => True) Body.Leaf ctx ctx₁ := .single (.relabel (parse_ok hparse).1)
  have h₂ := (h.edits hparsed).split rfl rfl hsplit
  exact h₂.edits (CollectionLinkHeaderItem.edits_createAndInsert h₂.consistent hlinks)

/-- What is left of the header, where an item gets data for the first time. -/
theorem insert_rawSpaced [FixedString] {ctx : Context} (h : Listed ctx) {ptr : ItemPointer}
    {y : Context × List ExportsItem.EntryType} (hinsert : insert ctx ptr = .ok y) :
    y.1.Consistent ∧ y.1.RawSpaced := by
  rw [insert_eq] at hinsert
  obtain ⟨⟨ctx₁, raw, hdr⟩, hbefore, hinsert⟩ := bind_eq_ok.mp hinsert
  obtain ⟨ctx₂, hexpansions, hinsert⟩ := bind_eq_ok.mp hinsert
  obtain ⟨exportPtr, -, hexports⟩ := bind_eq_ok.mp hinsert
  have h₁ := beforeExpansions_listed h hbefore
  have hexpanded : Edits (ctx₁.nextId ≤ ·) (fun _ => True) ctx₁ ctx₂ := by
    rw [insertExpansions.eq_def] at hexpansions
    split at hexpansions
    · cases hexpansions
      exact .refl _
    · obtain ⟨expansionPtr, -, hcreate⟩ := bind_eq_ok.mp hexpansions
      exact ExpansionsItem.edits_createAndInsert h₁.consistent hcreate
  have hexported : Edits (ctx₁.nextId ≤ ·) Body.Leaf ctx₂ y.1 := ExportsItem.edits_insert hexports
  have hedits := hexpanded.trans (hexported.mono (fun _ h => h) fun _ _ => trivial)
  exact ⟨(hedits.keeps h₁.consistent).consistent, hedits.rawSpaced h₁.consistent h₁.rawSpaced⟩

end HeaderItem

/-! What is visited. -/

namespace Visit

/-- The item behind the current one is there, wherever it is asked for. -/
def StepsInside (ctx : Context) : Visit → Prop
  | code l => ∀ ptr, pointer ctx (.code l) = .ok ptr → ctx.isRaw ptr.item = true →
      InstructionItem.StepsInside ctx ptr
  | data l => ∀ ptr, pointer ctx (.data l) = .ok ptr → ctx.isRaw ptr.item = true →
      DataItem.StepsInside ctx ptr
  | next id => ctx.HasNext id ∧ ∀ ptr, pointer ctx (.next id) = .ok ptr →
      ctx.isRaw ptr.item = true → InstructionItem.StepsInside ctx ptr

/-- An instruction that is read leaves room for the one behind it. -/
def LeavesRoom (ctx : Context) : Visit → Prop
  | code l => ∀ ptr, pointer ctx (.code l) = .ok ptr → ctx.isRaw ptr.item = true →
      InstructionItem.LeavesRoom ctx ptr
  | data _ => True
  | next id => ∀ ptr, pointer ctx (.next id) = .ok ptr → ctx.isRaw ptr.item = true →
      InstructionItem.LeavesRoom ctx ptr

instance (ctx : Context) : (v : Visit) → Decidable (v.LeavesRoom ctx)
  | code l => inferInstanceAs (Decidable (∀ ptr, pointer ctx (.code l) = .ok ptr → _))
  | data _ => .isTrue trivial
  | next id => inferInstanceAs (Decidable (∀ ptr, pointer ctx (.next id) = .ok ptr → _))

instance (ctx : Context) : (v : Visit) → Decidable (v.StepsInside ctx)
  | code l => inferInstanceAs (Decidable (∀ ptr, pointer ctx (.code l) = .ok ptr → _))
  | data l => inferInstanceAs (Decidable (∀ ptr, pointer ctx (.data l) = .ok ptr → _))
  | next id => inferInstanceAs (Decidable (ctx.HasNext id ∧ _))

/-- The item in front of what is to be visited is read, and followed by another one. -/
def Standing (ctx : Context) (v : Visit) : Prop := ∀ id, v = .next id → ctx.Standing id

theorem LeavesRoom.stepsInside {ctx : Context} (hctx : ctx.Consistent) {v : Visit}
    (hroom : v.LeavesRoom ctx) (hstanding : v.Standing ctx) : v.StepsInside ctx := by
  cases v with
  | code l =>
      exact fun ptr hptr hraw => (hroom ptr hptr hraw).stepsInside hctx
  | data l => exact fun ptr _ _ => DataItem.stepsInside hctx ptr
  | next id =>
      exact ⟨(hstanding id rfl).next, fun ptr hptr hraw => (hroom ptr hptr hraw).stepsInside hctx⟩

end Visit

theorem InstructionItem.mem_visits_next {i : InstructionItem} {id id' : Nat}
    (h : Visit.next id' ∈ i.visits id) : i.returns = true ∧ id' = id := by
  rw [visits, List.mem_append, List.mem_append, List.mem_flatMap] at h
  rcases h with (h | h) | ⟨p, -, h⟩
  · split at h
    · cases List.mem_singleton.mp h
    · cases h
  · split at h
    · rename_i hreturns
      cases List.mem_singleton.mp h
      exact ⟨hreturns, rfl⟩
    · cases h
  · rw [Param.visits.eq_def] at h
    split at h
    · cases List.mem_singleton.mp h
    · cases List.mem_singleton.mp h
    · cases List.mem_singleton.mp h
    · cases h

namespace Walk

/-- No list is left at its end by the first visit. -/
def StepsInside (w : Walk) : Prop := ∀ v ∈ w.todo.head?, v.StepsInside w.ctx

def LeavesRoom (w : Walk) : Prop := ∀ v ∈ w.todo.head?, v.LeavesRoom w.ctx

instance (w : Walk) : Decidable w.StepsInside :=
  inferInstanceAs (Decidable (∀ v ∈ w.todo.head?, v.StepsInside w.ctx))

instance (w : Walk) : Decidable w.LeavesRoom :=
  inferInstanceAs (Decidable (∀ v ∈ w.todo.head?, v.LeavesRoom w.ctx))

structure Followed (w : Walk) : Prop where
  consistent : w.ctx.Consistent
  rawSpaced : w.ctx.RawSpaced
  standing : ∀ v ∈ w.todo, v.Standing w.ctx

theorem Followed.step {factories : List DataFactory} {w w' : Walk} (h : w.Followed)
    (hroom : w.LeavesRoom) (hstep : w.step factories = .ok w') : w'.Followed := by
  have hedits := edits_step h.consistent hstep
  -- what was to be visited before is not changed by the step
  have hold : ∀ v ∈ w.todo, v.Standing w'.ctx := fun v hv id hnext => by
    have hstanding := h.standing v hv id hnext
    exact hedits.standing h.consistent (Nat.not_le_of_lt (hstanding.lt h.consistent)) hstanding
  refine ⟨(hedits.keeps h.consistent).consistent, hedits.rawSpaced h.consistent h.rawSpaced, ?_⟩
  rw [Walk.step] at hstep
  split at hstep
  · cases hstep
    exact hold
  · rename_i l todo htodo
    obtain ⟨ptr, -, hstep⟩ := bind_eq_ok.mp hstep
    obtain ⟨ctx', -, hstep⟩ := bind_eq_ok.mp hstep
    cases hstep
    exact fun v hv => hold v (htodo ▸ List.mem_cons_of_mem _ hv)
  · rename_i v₀ todo hdata htodo
    obtain ⟨ptr, hptr, hstep⟩ := bind_eq_ok.mp hstep
    obtain ⟨⟨ctx', visits⟩, hcreate, hstep⟩ := bind_eq_ok.mp hstep
    cases hstep
    intro v hv id hnext
    rcases List.mem_append.mp hv with hnew | hv
    · rw [InstructionItem.maybeCreate] at hcreate
      split at hcreate
      · rename_i hraw
        obtain ⟨y, hinsert, heq⟩ := bind_eq_ok.mp hcreate
        cases heq
        rw [hnext] at hnew
        obtain ⟨hreturns, rfl⟩ := InstructionItem.mem_visits_next hnew
        have hroom : InstructionItem.LeavesRoom w.ctx ptr := by
          have hfirst := hroom v₀ (by rw [htodo]; rfl)
          cases v₀ with
          | code l => exact hfirst ptr hptr hraw
          | data l => exact absurd rfl (hdata l)
          | next id => exact hfirst ptr hptr hraw
        exact hroom.standing h.consistent h.rawSpaced hinsert hreturns
      · obtain ⟨_, -, heq⟩ := bind_eq_ok.mp hcreate
        cases heq
        cases hnew
    · exact hold v (htodo ▸ List.mem_cons_of_mem _ hv) id hnext

theorem Followed.stepsInside {w : Walk} (h : w.Followed) (hroom : w.LeavesRoom) :
    w.StepsInside := fun v hv =>
  (hroom v hv).stepsInside h.consistent (h.standing v (List.mem_of_mem_head? hv))

end Walk

namespace File

/-- The data of the expansions are in front of the item they become the child of. -/
def TablesInside [FixedString] (src : Source) : Prop :=
  ∀ ctx, (Context.root src).splitCreate 0 src.size .eof = .ok ctx →
    ∀ y, HeaderItem.beforeExpansions ctx { item := 0, offset := 0 } = .ok y →
      ∀ l ∈ y.2.2.expansion, ∀ ptr, y.1.getPtr l = .ok ptr → ExpansionsItem.StepsInside y.1 ptr

/-- While a file is read, no step leads behind the end of a list. -/
def StepsInside [FixedString] (factories : List DataFactory) (src : Source) (n : Nat) : Prop :=
  TablesInside src ∧ ∀ w, start src = .ok w →
    EveryStep (fun w _ => Walk.step factories w) (fun w _ => w.StepsInside) w
      (List.replicate n ())

theorem root_listed {src : Source} {ctx : Context}
    (h : (Context.root src).splitCreate 0 src.size .eof = .ok ctx) : HeaderItem.Listed ctx := by
  obtain ⟨hctx, hbodies⟩ := root_split h
  refine ⟨hctx, ?_, fun it hit => ?_⟩
  · obtain ⟨k, r, src', p, -, hbody, hk, -, -, -, hp⟩ := (Consistent.root src).splitCreate_ok h
    -- the file is the only item there is
    obtain rfl : k = .here .nil := Hole.eq_here_of_plug_single hk.symm
    have hsrc : Body.raw src = .raw src' :=
      (congrArg Item.body (Forest.cons.inj hk).1).trans hbody
    cases hsrc
    rw [RawSpaced, hp.children, Hole.plug, Forest.append_nil, Parts.items, Parts.backItems,
      if_pos (by omega), Parts.frontItems]
    have hend : (p.newItem r src.size
        { id := (Context.root src).nextId, position := 0, labels := [], body := .eof }).body.isRaw =
          false := rfl
    split
    · exact ⟨by simp [NotBoth, Forest.roots, hend], by simp [Forest.subtrees, Forest.roots]⟩
    · exact ⟨by simp [NotBoth, Forest.single, Forest.roots, hend],
        by simp [Forest.single, Forest.subtrees, Forest.roots]⟩
  · rcases hbodies it hit with hbody | ⟨src', hbody, -⟩
    · rw [hbody]
      rfl
    · rw [hbody]
      rfl

theorem everyStep_inside [FixedString] {factories : List DataFactory} {src : Source} {n : Nat}
    (h : ∀ w, start src = .ok w →
      EveryStep (fun w _ => Walk.step factories w) (fun w _ => w.LeavesRoom) w
        (List.replicate n ())) : StepsInside factories src n := by
  refine ⟨fun ctx hsplit y hbefore l _ ptr _ => ?_, fun w hstart => ?_⟩
  · have hlisted := HeaderItem.beforeExpansions_listed (root_listed hsplit) hbefore
    exact ExpansionsItem.stepsInside hlisted.consistent hlisted.rawSpaced hlisted.flat ptr
  · refine EveryStep.imp_of_invariant (I := Walk.Followed) (fun w _ w' hw hroom hstep => ?_)
      (fun w _ hw hroom => ?_) ?_ (h w hstart)
    · exact hw.step hroom hstep
    · exact hw.stepsInside hroom
    · obtain ⟨ctx, hsplit, hstart⟩ := bind_eq_ok.mp hstart
      obtain ⟨⟨ctx', entries⟩, hinsert, heq⟩ := bind_eq_ok.mp hstart
      cases heq
      obtain ⟨hctx', hspaced⟩ := HeaderItem.insert_rawSpaced (root_listed hsplit) hinsert
      refine ⟨hctx', hspaced, fun v hv id hnext => ?_⟩
      obtain ⟨e, -, rfl⟩ := List.mem_map.mp hv
      rw [ExportsItem.EntryType.visit] at hnext
      split at hnext
      · cases hnext
      · cases hnext

/-- A file that exports the instruction at 124. This one has the code at 152 as its data, and
does not return itself. -/
def withCode (size exports : UInt32) (code : List InstructionItem.Header) : Source :=
  .fromMemory (toBytes { HeaderItem.Header.ofExpansions exports 0 0 with exportCount := 1 } ++
    (toBytes (CollectionLinkHeaderItem.Header.ofData (exports + 44) 0) ++
      (toBytes ({ isCall := 0, opcode := 6, paramCount := 1, size } : InstructionItem.Header) ++
        (toBytes ({ param0 := InstructionItem.Parameter.Type0Special.instrPtr0, param4 := 152
                    param8 := 0x40000000 } : InstructionItem.Parameter) ++
          (code.flatMap toBytes ++
            (toBytes ({ type := 0, name := FixedString.zeroTerminated.assign 0x20 [0x6d], offset := 124 } :
              ExportsItem.Entry) ++ zeros 4))))))

def twoInstructions : Source :=
  withCode 60 184 [⟨0, 1, 0, 16⟩, ⟨0, 0, 0, 16⟩]

def oneInstruction : Source := withCode 44 168 [⟨0, 1, 0, 16⟩]

theorem twoInstructions_everyStep :
    @StepsInside FixedString.zeroTerminated [] twoInstructions 5 :=
  @everyStep_inside FixedString.zeroTerminated _ _ _ (by decide +kernel)

/-- The instruction returns, but its list ends behind it. -/
theorem oneInstruction_not_stepsInside :
    ¬ ∀ [FixedString] (factories : List DataFactory) (src : Source) (n : Nat),
      StepsInside factories src n := by
  intro hall
  have hinside := (@hall FixedString.zeroTerminated [] oneInstruction 3).2
  exact absurd hinside (by decide +kernel)

end File

end Stcm

end Neptools

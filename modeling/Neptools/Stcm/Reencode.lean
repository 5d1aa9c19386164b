import Neptools.Format.AtLabels
import Neptools.Format.Nest
import Neptools.Stcm.Bounds
import Neptools.Stcm.Carve

/-!
An instruction writes the bytes it was read from: every word of its parameters is
read and written by the same cases, and its data is what its size leaves.
-/

namespace Neptools

open Lib

namespace Stcm

namespace InstructionItem

open Context Parameter

/-! The words. -/

namespace Parameter

theorem toNat_typeTag (x : UInt32) : (typeTag x).toNat = x.toNat / 2 ^ 30 := by
  rw [typeTag, UInt32.toNat_shiftRight, Nat.shiftRight_eq_div_pow]
  rfl

theorem toNat_value (x : UInt32) : (value x).toNat = x.toNat % 2 ^ 30 := by
  rw [value, UInt32.toNat_and]
  exact Nat.and_two_pow_sub_one_eq_mod x.toNat 30

theorem tag_value (x : UInt32) : tag (typeTag x) (value x) = x := by
  have hlt := x.toNat_lt
  have hshift : (typeTag x <<< 30).toNat = (x.toNat / 2 ^ 30) <<< 30 := by
    rw [UInt32.toNat_shiftLeft, toNat_typeTag, Nat.mod_eq_of_lt]
    · rfl
    · change (x.toNat / 2 ^ 30) <<< 30 < 2 ^ 32
      rw [Nat.shiftLeft_eq]
      omega
  refine UInt32.toNat_inj.mp ?_
  rw [tag, UInt32.toNat_or, hshift, toNat_value,
    ← Nat.shiftLeft_add_eq_or_of_lt (Nat.mod_lt _ (by decide)), Nat.shiftLeft_eq]
  omega

theorem tag_value_of_typeTag {x t : UInt32} (h : typeTag x = t) : tag t (value x) = x :=
  h ▸ tag_value x

/-- A word that carries a position. -/
theorem tag_position {x t : UInt32} (h : typeTag x = t) :
    tag t (UInt32.ofNat (value x).toNat) = x := by
  rw [UInt32.ofNat_toNat, tag_value_of_typeTag h]

/-- A word of a range, which is read as its distance from the first one. -/
theorem add_sub_self (first x : UInt32) : first + (x - first) = x := by
  rw [UInt32.add_comm, UInt32.sub_add_cancel]

end Parameter

variable {ctx ctx' : Context}

theorem dump_of_parse48 (hctx : ctx.Consistent) {x : UInt32} {p : Param48}
    (h : Param48.parse ctx x = .ok (ctx', p)) : p.dump ctx'.view = .ok x := by
  rw [Param48.parse] at h
  split at h
  · rename_i htag
    obtain ⟨⟨ctx₁, l⟩, hl, h⟩ := bind_eq_ok.mp h
    cases h
    have hpos : ctx'.view.toFilePos l = .ok (value x).toNat := hctx.getLabelTo_toFilePos hl
    rw [Param48.dump, hpos, ok_bind, tag_position htag, pure_eq_ok]
  · split at h
    · rename_i htag
      cases h
      rw [Param48.dump, tag_value_of_typeTag htag, pure_eq_ok]
    · split at h
      · rename_i htag
        cases h
        rw [Param48.dump, tag_value_of_typeTag htag, pure_eq_ok]
      · split at h
        · cases h
          rw [Param48.dump, add_sub_self, pure_eq_ok]
        · split at h
          · cases h
            rw [Param48.dump, add_sub_self, pure_eq_ok]
          · cases h

/-- A parameter that is only a label. -/
theorem exists_label_of_parse (hctx : ctx.Consistent) {pos : UInt32} {f : LabelPtr → Param}
    {q : Param} (h : ctx.getLabelTo pos.toNat >>= (fun (ctx, l) => pure (ctx, f l)) = .ok (ctx', q)) :
    ∃ l, q = f l ∧ ctx'.view.toFilePos l = .ok pos.toNat := by
  obtain ⟨⟨ctx₁, l⟩, hl, h⟩ := bind_eq_ok.mp h
  cases h
  exact ⟨l, rfl, hctx.getLabelTo_toFilePos hl⟩

theorem ok_parameter {p : Parameter} {x y z : UInt32} (h0 : p.param0 = x) (h4 : p.param4 = y)
    (h8 : p.param8 = z) :
    (.ok { param0 := x, param4 := y, param8 := z } : Except Error Parameter) = .ok p := by
  rw [← h0, ← h4, ← h8]

theorem parameter_of_parse (hctx : ctx.Consistent) {p : Parameter} {q : Param}
    (h : Param.parse ctx p = .ok (ctx', q)) : q.parameter ctx'.view = .ok p := by
  obtain ⟨_, hvalid, h⟩ := bind_eq_ok.mp h
  cases Parameter.valid_of_validate hvalid with
  | memOffset htag _ _ _ =>
      rw [if_pos htag] at h
      obtain ⟨⟨ctx₁, l⟩, hl, h⟩ := bind_eq_ok.mp h
      obtain ⟨⟨ctx₂, p4⟩, h4, h⟩ := bind_eq_ok.mp h
      obtain ⟨⟨ctx₃, p8⟩, h8, h⟩ := bind_eq_ok.mp h
      cases h
      have hctx₁ := (relabeling_getLabelTo ctx _ _ _ hl).consistent hctx
      have hrel₂ := relabeling_param48 ctx₁ _ _ _ h4
      have hview₃ := (relabeling_param48 ctx₂ _ _ _ h8).extends False
      -- What was read first is kept while the rest is read.
      have hpos : ctx₁.view.toFilePos l = .ok (value p.param0).toNat :=
        hctx.getLabelTo_toFilePos hl
      have hpos := hview₃.toFilePos _ _ ((hrel₂.extends False).toFilePos _ _ hpos)
      have hp4 := (asks_param48 _ _ p4).keep hview₃ (dump_of_parse48 hctx₁ h4)
      have hp8 := dump_of_parse48 (hrel₂.consistent hctx₁) h8
      rw [Param.parameter, hpos, ok_bind, hp4, ok_bind, hp8, ok_bind, tag_position htag, pure_eq_ok]
  | indirect htag _ h4 _ =>
      rw [htag, if_neg (by decide), if_pos rfl] at h
      obtain ⟨⟨ctx₁, p8⟩, h8, h⟩ := bind_eq_ok.mp h
      cases h
      rw [Param.parameter, dump_of_parse48 hctx h8, ok_bind, tag_value_of_typeTag htag]
      exact ok_parameter rfl h4 rfl
  | read htag hrange h4 h8 =>
      rw [htag, if_neg (by decide), if_neg (by decide), if_pos rfl] at h
      by_cases hstack : Type0Special.readStackMin ≤ p.param0 ∧
          p.param0 ≤ Type0Special.readStackMax
      · rw [if_pos hstack] at h
        cases h
        exact ok_parameter (add_sub_self _ _).symm h4 h8
      · rw [if_neg hstack, if_pos (hrange.resolve_left hstack)] at h
        cases h
        exact ok_parameter (add_sub_self _ _).symm h4 h8
  | instrPtr hptr _ h8 =>
      rcases hptr with h0 | h0
      · rw [h0] at h
        obtain ⟨l, rfl, hpos⟩ := exists_label_of_parse hctx (f := .instrPtr0) h
        rw [Param.parameter, hpos, ok_bind, UInt32.ofNat_toNat]
        exact ok_parameter h0 rfl h8
      · rw [h0] at h
        obtain ⟨l, rfl, hpos⟩ := exists_label_of_parse hctx (f := .instrPtr1) h
        rw [Param.parameter, hpos, ok_bind, UInt32.ofNat_toNat]
        exact ok_parameter h0 rfl h8
  | collLink h0 _ h8 =>
      rw [h0] at h
      obtain ⟨l, rfl, hpos⟩ := exists_label_of_parse hctx (f := .collLink) h
      rw [Param.parameter, hpos, ok_bind, UInt32.ofNat_toNat]
      exact ok_parameter h0 rfl h8
  | expansion h0 _ h8 =>
      rw [h0] at h
      obtain ⟨l, rfl, hpos⟩ := exists_label_of_parse hctx (f := .expansion) h
      rw [Param.parameter, hpos, ok_bind, UInt32.ofNat_toNat]
      exact ok_parameter h0 rfl h8

theorem dump_of_parseParams (hctx : ctx.Consistent) {src : Source} (hget : src.get ≤ src.size)
    {n : Nat} {ps : List Param} (h : parseParams ctx src n = .ok (ctx', ps)) :
    ps.length = n ∧ ∃ calls, dumpParams ctx'.view ps = .ok calls ∧
      StandsAt (Sink.bytesOf calls) src.get src.bytes := by
  induction n generalizing ctx src ps with
  | zero =>
      cases h
      have hempty : src.get + 0 ≤ src.bytes.length := by rwa [Source.length_bytes]
      exact ⟨rfl, [], rfl, StandsAt.of_slice hempty⟩
  | succ n ih =>
      obtain ⟨⟨raw, src₁⟩, hraw, h⟩ := bind_eq_ok.mp h
      obtain ⟨⟨ctx₁, p⟩, hp, h⟩ := bind_eq_ok.mp h
      obtain ⟨⟨ctx₂, rest⟩, hrest, h⟩ := bind_eq_ok.mp h
      cases h
      obtain ⟨hstand, rfl⟩ := Source.readGen_spec hraw
      have hle := hstand.le
      rw [Pod.length_toBytes, Source.length_bytes] at hle
      have hctx₁ := (relabeling_param ctx raw _ _ hp).consistent hctx
      have hview := (relabeling_params ctx₁ _ n _ _ hrest).extends False
      obtain ⟨hlength, calls, hcalls, hrestStand⟩ := ih hctx₁ hle hrest
      have hdump : p.dump ctx₁.view = .ok (.write (toBytes raw)) := by
        rw [Param.dump, parameter_of_parse hctx hp, ok_bind, pure_eq_ok]
      refine ⟨congrArg Nat.succ hlength, .write (toBytes raw) :: calls, ?_, ?_⟩
      · rw [dumpParams, (asks_param _ _ p).keep hview hdump, ok_bind, hcalls, ok_bind, pure_eq_ok]
      · rw [Sink.bytesOf_cons, Sink.Call.bytes_write]
        refine StandsAt.append_iff.mpr ⟨hstand, ?_⟩
        rw [Pod.length_toBytes]
        exact hrestStand

/-- The parts of an instruction: `opcode` is a position if `is_call` is set. -/
theorem parse_ok (hctx : ctx.Consistent) {src : Source} {i : InstructionItem}
    (h : parse ctx src = .ok (ctx', i)) :
    ∃ instr src' ctx₁, src.readGen Header = .ok (instr, src') ∧
      instr.validate ctx.getSize = .ok () ∧ ctx₁.Consistent ∧
      i.opcodeTarget.dump ctx₁.view = .ok (instr.isCall, instr.opcode) ∧
      parseParams ctx₁ src' instr.paramCount.toNat = .ok (ctx', i.params) := by
  obtain ⟨⟨instr, src'⟩, hread, h⟩ := bind_eq_ok.mp h
  obtain ⟨_, hvalid, h⟩ := bind_eq_ok.mp h
  obtain ⟨_, hcall, -⟩ := bind_eq_ok.mp hvalid
  have hcall : instr.isCall = 0 ∨ instr.isCall = 1 := require_eq_ok.mp hcall
  dsimp only at h
  by_cases hzero : instr.isCall = 0
  · rw [if_neg (not_not_intro hzero), pure_eq_ok, ok_bind] at h
    obtain ⟨⟨ctx₂, params⟩, hparams, h⟩ := bind_eq_ok.mp h
    cases h
    refine ⟨instr, src', ctx, hread, hvalid, hctx, ?_, hparams⟩
    rw [OpcodeTarget.dump, hzero, pure_eq_ok]
  · rw [if_pos hzero] at h
    obtain ⟨⟨ctx₁, l⟩, hl, h⟩ := bind_eq_ok.mp h
    rw [pure_eq_ok, ok_bind] at h
    obtain ⟨⟨ctx₂, params⟩, hparams, h⟩ := bind_eq_ok.mp h
    cases h
    refine ⟨instr, src', ctx₁, hread, hvalid, (relabeling_getLabelTo ctx _ _ _ hl).consistent hctx,
      ?_, hparams⟩
    have hpos : ctx₁.view.toFilePos l = .ok instr.opcode.toNat := hctx.getLabelTo_toFilePos hl
    rw [OpcodeTarget.dump, hpos, ok_bind, UInt32.ofNat_toNat, hcall.resolve_left hzero, pure_eq_ok]

/-- What was read is what is written, with the size that was read. -/
theorem dump_of_parse (hctx : ctx.Consistent) {w : Source} {i : InstructionItem}
    (h : parse ctx (w.at_ 0) = .ok (ctx', i)) :
    ∃ instr : Header, StandsAt (toBytes instr) 0 w.bytes ∧
      i.params.length = instr.paramCount.toNat ∧
      Pod.size Header + i.params.length * Pod.size Parameter ≤ instr.size.toNat ∧
      ∃ calls, i.dump ctx'.view instr.size.toNat = .ok calls ∧
        StandsAt (Sink.bytesOf calls) 0 w.bytes := by
  obtain ⟨instr, src', ctx₁, hread, hvalid, hctx₁, htarget, hparams⟩ := parse_ok hctx h
  obtain ⟨hstand, rfl⟩ := Source.readGen_spec hread
  have hle := hstand.le
  rw [Pod.length_toBytes] at hle
  have hview := (relabeling_params ctx₁ _ _ _ _ hparams).extends False
  have htarget := (asks_target _ _ _).keep hview htarget
  obtain ⟨hlength, calls, hcalls, hrest⟩ :=
    dump_of_parseParams hctx₁ (Source.length_bytes _ ▸ hle) hparams
  refine ⟨instr, hstand, hlength, hlength ▸ Header.room_of_validate hvalid,
    .write (toBytes instr) :: calls, ?_, ?_⟩
  · rw [InstructionItem.dump, htarget, ok_bind]
    dsimp only
    rw [hcalls, ok_bind, hlength, UInt32.ofNat_toNat, UInt32.ofNat_toNat, pure_eq_ok]
  · rw [Sink.bytesOf_cons, Sink.Call.bytes_write]
    refine StandsAt.append_iff.mpr ⟨hstand, ?_⟩
    rw [Pod.length_toBytes]
    exact hrest

/-! The branches that are not reached. -/

theorem failsAtLabels_param48 (ctx : Context) {x : UInt32} {fileSize : Nat}
    (hvalid : validate48 x fileSize = .ok ()) : FailsAtLabels (Param48.parse ctx x) := by
  rw [validate48] at hvalid
  rw [Param48.parse]
  split
  · exact (failsAtLabels_getLabelTo _ _).bind fun _ _ => .ok _
  · rename_i hoffset
    rw [if_neg hoffset] at hvalid
    split
    · exact .ok _
    · rename_i himmediate
      rw [if_neg himmediate] at hvalid
      split
      · exact .ok _
      · rename_i hindirect
        rw [if_neg hindirect] at hvalid
        split
        · exact .ok _
        · rename_i hstack
          rw [if_pos ((require_eq_ok.mp hvalid).resolve_left hstack)]
          exact .ok _

theorem failsAtLabels_param {p : Parameter} (hvalid : p.validate ctx.getSize = .ok ()) :
    FailsAtLabels (Param.parse ctx p) := by
  have hlabel (pos : UInt32) (f : LabelPtr → Param) :
      FailsAtLabels (ctx.getLabelTo pos.toNat >>= fun (ctx, l) => pure (ctx, f l)) :=
    (failsAtLabels_getLabelTo _ _).bind fun _ _ => .ok _
  rw [Param.parse, hvalid, ok_bind]
  cases Parameter.valid_of_validate hvalid with
  | memOffset htag _ h4 h8 =>
      rw [if_pos htag]
      refine (failsAtLabels_getLabelTo _ _).bind fun (ctx₁, _) _ => ?_
      refine (failsAtLabels_param48 ctx₁ h4).bind fun (ctx₂, _) _ => ?_
      exact (failsAtLabels_param48 ctx₂ h8).bind fun _ _ => .ok _
  | indirect htag _ _ h8 =>
      rw [htag, if_neg (by decide), if_pos rfl]
      exact (failsAtLabels_param48 ctx h8).bind fun _ _ => .ok _
  | read htag hrange _ _ =>
      rw [htag, if_neg (by decide), if_neg (by decide), if_pos rfl]
      split
      · exact .ok _
      · rename_i hstack
        rw [if_pos (hrange.resolve_left hstack)]
        exact .ok _
  | instrPtr hptr _ _ =>
      rcases hptr with h0 | h0
      · rw [h0]
        exact hlabel _ .instrPtr0
      · rw [h0]
        exact hlabel _ .instrPtr1
  | collLink h0 _ _ =>
      rw [h0]
      exact hlabel _ .collLink
  | expansion h0 _ _ =>
      rw [h0]
      exact hlabel _ .expansion

theorem failsAtLabels_params {w : Source} {pos n fileSize : Nat} (hsize : ctx.getSize = fileSize)
    (hle : pos + n * Pod.size Parameter ≤ w.size)
    (hvalid : ∀ m < n, (w.valueAt Parameter (pos + m * Pod.size Parameter)).validate fileSize =
      .ok ()) :
    FailsAtLabels (parseParams ctx (w.at_ pos) n) := by
  induction n generalizing ctx pos with
  | zero => exact .ok _
  | succ n ih =>
      rw [Nat.succ_mul] at hle
      have hfit : pos + Pod.size Parameter ≤ w.size := by omega
      have hrest : pos + Pod.size Parameter + n * Pod.size Parameter ≤ w.size := by omega
      have hfirst := hvalid 0 (Nat.succ_pos n)
      rw [Nat.zero_mul, Nat.add_zero] at hfirst
      rw [parseParams, Source.readGen_of_le hfit, ok_bind]
      refine (failsAtLabels_param (hsize ▸ hfirst)).bind fun x hp => ?_
      have hsize₁ := (relabeling_param ctx _ _ _ hp).getSize.trans hsize
      refine (ih hsize₁ hrest fun m hm => ?_).bind fun _ _ => .ok _
      have := hvalid (m + 1) (Nat.succ_lt_succ hm)
      rwa [Nat.succ_mul, Nat.add_comm (m * _), ← Nat.add_assoc] at this

/-- The instruction at the start of the window ends in it, and meets all checks. -/
structure Valid (ctx : Context) (w : Source) : Prop where
  header_le : Pod.size Header ≤ w.size
  size_le : (w.valueAt Header 0).size.toNat ≤ w.size
  header : (w.valueAt Header 0).validate ctx.getSize = .ok ()
  params : ∀ n < (w.valueAt Header 0).paramCount.toNat,
    (w.valueAt Parameter (Pod.size Header + n * Pod.size Parameter)).validate ctx.getSize = .ok ()

theorem failsAtLabels_parse {w : Source} (hvalid : Valid ctx w) :
    FailsAtLabels (parse ctx (w.at_ 0)) := by
  obtain ⟨hheader, hsize, hok, hparams⟩ := hvalid
  have hroom := Header.room_of_validate hok
  have hle : 0 + Pod.size Header + (w.valueAt Header 0).paramCount.toNat * Pod.size Parameter ≤
      w.size := by omega
  have hrest (ctx' : Context) (hsize' : ctx'.getSize = ctx.getSize) (opcodeTarget : OpcodeTarget) :
      FailsAtLabels (parseParams ctx' (w.at_ (0 + Pod.size Header))
        (w.valueAt Header 0).paramCount.toNat >>= fun x =>
          pure (x.1, ({ params := x.2, opcodeTarget } : InstructionItem))) := by
    refine (failsAtLabels_params hsize' hle fun m hm => ?_).bind fun _ _ => .ok _
    rw [Nat.zero_add]
    exact hparams m hm
  rw [parse, Source.readGen_of_le (by rwa [Nat.zero_add]), ok_bind]
  dsimp only
  change FailsAtLabels (Header.validate (w.valueAt Header 0) ctx.getSize >>= _)
  rw [hok, ok_bind]
  split
  · refine (failsAtLabels_getLabelTo _ _).bind fun x hl => ?_
    rw [pure_eq_ok, ok_bind]
    exact hrest x.1 (relabeling_getLabelTo ctx _ _ _ hl).getSize _
  · rw [pure_eq_ok, ok_bind]
    exact hrest ctx rfl _

/-! The item with its data. -/

/-- `MoveNextToChild` of what is behind the parameters, if there is something. -/
def moveData (ctx : Context) (id n : Nat) : Except Error Context :=
  if n ≠ 0 then ctx.moveNextToChild id n else pure ctx

theorem moveData_bind {α : Type} (ctx : Context) (id n : Nat) (f : Context → Except Error α) :
    moveData ctx id n >>= f = if n ≠ 0 then ctx.moveNextToChild id n >>= f else pure ctx >>= f := by
  rw [moveData]
  split
  · rfl
  · rfl

/-- An instruction in its place, behind which its data was. -/
structure Placed (ctx ctx' : Context) (id : Nat) (i : InstructionItem) (data : Bytes) : Prop where
  extends_view : ctx.view.Extends False ctx'.view
  item : ∃ it children, ctx'.find? id = some (it, children) ∧ it.body = .instruction i ∧
    ItemList.getSize children = data.length ∧
      ∀ v, ItemList.dumpBytes v children = .ok data

theorem placed_of_split (hctx : ctx.Consistent) {ctx₂ ctx₃ : Context} {ptr : ItemPointer}
    {i : InstructionItem} {src : Source} {remData : Nat}
    (hsplit : ctx.splitCreate ptr.item ptr.offset (.instruction i) = .ok ctx₂)
    (hbody : ctx.bodyOf ptr.item = some (.raw src))
    (hroom : ptr.offset + (Body.instruction i).ownSize + remData ≤ src.size)
    (hmove : moveData ctx₂ ctx.nextId remData = .ok ctx₃) :
    Placed ctx ctx₃ ctx.nextId i
      (Lib.slice src.bytes (ptr.offset + (Body.instruction i).ownSize) remData) := by
  have hctx₂ := hctx.splitCreate (fun hheader => by cases hheader) hsplit
  obtain ⟨k, r, src', p, -, hraw, hk, -, -, -, hp⟩ := hctx.splitCreate_ok hsplit
  have hfresh : ({ ctx with nextId := ctx.nextId + 1 } : Context).FreshList
      (.single { id := ctx.nextId, position := 0, labels := [], body := .instruction i } .nil) :=
    ⟨List.nodup_singleton _, fun it hit => by
      rw [List.mem_singleton.mp hit]
      exact hctx.fresh_create (.instruction i)⟩
  have hview : ctx.view.Extends False ctx₂.view := (hp.extends hctx.create hk hraw hfresh).weaken
  have hfind := hctx₂.find?_of_mem hp.mem_new
  rw [moveData] at hmove
  by_cases hdata : remData = 0
  · rw [if_neg (not_not_intro hdata)] at hmove
    cases hmove
    refine ⟨hview, _, .nil, hfind, rfl, ?_, fun v => ?_⟩
    · rw [hdata, length_slice, Nat.zero_min]
      rfl
    · rw [hdata, Lib.slice, List.take_zero]
      rfl
  · rw [if_pos hdata] at hmove
    obtain ⟨next, back, hnext, hback, -, -, hbytes⟩ :=
      exists_data hctx hsplit hbody hroom hdata
    obtain ⟨next', back', sub, child, hnext', hback', hle, hsub, hchild, -, hfind', hview'⟩ :=
      hctx₂.moveNextToChild_spec hfind rfl hmove
    cases hnext.symm.trans hnext'
    cases hback.symm.trans hback'
    have hdataBytes : sub.bytes =
        Lib.slice src.bytes (ptr.offset + (Body.instruction i).ownSize) remData := by
      rw [hsub, hbytes, slice_slice _ (by omega), Nat.add_zero]
    refine ⟨hview.trans hview', _, _, hfind', rfl, ?_, fun v => ?_⟩
    · rw [← hdataBytes, Source.length_bytes, Forest.nil_append]
      change child.body.ownSize + 0 + 0 = sub.size
      rw [hchild]
      rfl
    · rw [Forest.nil_append, ItemList.dumpBytes_raw v hchild, hdataBytes]

theorem dump_of_placed {ctx' : Context} {id : Nat} {i : InstructionItem} {data : Bytes}
    {size : Nat} {calls : List Sink.Call} (h : Placed ctx ctx' id i data)
    (hsize : Pod.size Header + i.params.length * Pod.size Parameter + data.length = size)
    (hcalls : i.dump ctx.view size = .ok calls) :
    ∃ it children, ctx'.find? id = some (it, children) ∧ it.body = .instruction i ∧
      it.getSize children = size ∧ ItemList.dumpBytes ctx'.view (.single it children) =
        .ok (Sink.bytesOf calls ++ data) := by
  obtain ⟨it, children, hfind, hbody, hdata, hdump⟩ := h.item
  have hgetSize : it.getSize children = size := by
    rw [Item.getSize, hbody, hdata]
    exact hsize
  refine ⟨it, children, hfind, hbody, hgetSize, ?_⟩
  have hcalls' : it.body.dump ctx'.view (it.getSize children) = .ok calls := by
    rw [hbody, hgetSize]
    exact (i.asks ctx.view ctx'.view size).keep h.extends_view hcalls
  have hnil : ItemList.dumpBytes ctx'.view .nil = .ok [] := rfl
  rw [Forest.single, ItemList.dumpBytes_cons, hcalls', ok_bind, hdump, ok_bind, hnil, ok_bind,
    List.append_nil, pure_eq_ok]

/-- What the size of the header leaves behind the parameters. -/
def remData (w : Source) : Nat :=
  (w.valueAt Header 0).size.toNat - Pod.size Header -
    Pod.size Parameter * (w.valueAt Header 0).paramCount.toNat

/-- The new item, once its data are in it. -/
theorem dump_of_inserted (hctx : ctx.Consistent) {ptr : ItemPointer} {w src : Source}
    (hw : ctx.getSource ptr = .ok w) (hbody : ctx.bodyOf ptr.item = some (.raw src))
    (hsize : ptr.offset + w.size = src.size) (hle : (w.valueAt Header 0).size.toNat ≤ w.size)
    {ctx₁ : Context} {i : InstructionItem} (hparse : parse ctx (w.at_ 0) = .ok (ctx₁, i)) :
    ptr.offset + (Body.instruction i).ownSize + remData w ≤ src.size ∧
    ∀ ctx₂ ctx₃, ctx₁.splitCreate ptr.item ptr.offset (.instruction i) = .ok ctx₂ →
      moveData ctx₂ ctx₁.nextId (remData w) = .ok ctx₃ →
      ∃ it children, ctx₃.find? ctx₁.nextId = some (it, children) ∧ it.body = .instruction i ∧
        it.getSize children = (w.valueAt Header 0).size.toNat ∧
        ItemList.dumpBytes ctx₃.view (.single it children) =
          .ok (Lib.slice w.bytes 0 (w.valueAt Header 0).size.toNat) := by
  have hrelabels := relabeling_parse ctx _ _ _ hparse
  obtain ⟨instr, hinstr, hlength, hroom, calls, hcalls, hstand⟩ := dump_of_parse hctx hparse
  have hown : (Body.instruction i).ownSize =
      Pod.size Header + i.params.length * Pod.size Parameter := rfl
  rw [remData]
  rw [Source.valueAt_of_standsAt hinstr] at hle ⊢
  rw [← hlength, Nat.mul_comm (Pod.size Parameter)]
  have hsum : (Body.instruction i).ownSize + (instr.size.toNat - Pod.size Header -
      i.params.length * Pod.size Parameter) = instr.size.toNat := by omega
  generalize instr.size.toNat - Pod.size Header - i.params.length * Pod.size Parameter = rem at hsum ⊢
  refine ⟨by omega, fun ctx₂ ctx₃ hsplit hmove => ?_⟩
  have hplaced := placed_of_split (hrelabels.consistent hctx) hsplit
    ((hrelabels.bodyOf _).trans hbody) (by omega) hmove
  -- In the window, the data are behind what the parameters were read from.
  have hcallsLength := (i.writes ctx₁.view instr.size.toNat) calls hcalls
  have hcallsBytes := hstand.slice_eq
  rw [hcallsLength] at hcallsBytes
  have hdata : Lib.slice src.bytes (ptr.offset + (Body.instruction i).ownSize) rem =
      Lib.slice w.bytes (Body.instruction i).ownSize rem := by
    rw [getSource_bytes hw hbody, slice_slice _ (by omega)]
  rw [hdata] at hplaced
  have hdataLength : (Lib.slice w.bytes (Body.instruction i).ownSize rem).length = rem :=
    length_slice_of_le (by rw [Source.length_bytes]; omega)
  obtain ⟨it, children, hfind, hitem, hgetSize, hdump⟩ :=
    dump_of_placed hplaced (by rw [hdataLength, ← hown, hsum]) hcalls
  refine ⟨it, children, hfind, hitem, hgetSize, ?_⟩
  have happend := slice_append_slice w.bytes 0 (Body.instruction i).ownSize rem
  rw [Nat.zero_add, hsum] at happend
  rw [hdump, ← happend, hown, hcallsBytes]

theorem failsAtLabels_moveData (hctx : ctx.Consistent) {ctx₂ : Context} {ptr : ItemPointer}
    {i : InstructionItem} {src : Source} {n : Nat}
    (hsplit : ctx.splitCreate ptr.item ptr.offset (.instruction i) = .ok ctx₂)
    (hbody : ctx.bodyOf ptr.item = some (.raw src))
    (hroom : ptr.offset + (Body.instruction i).ownSize + n ≤ src.size) :
    FailsAtLabels (moveData ctx₂ ctx.nextId n) := by
  rw [moveData]
  split
  · rename_i hdata
    obtain ⟨next, back, hnext, -, hback, hle, -⟩ := exists_data hctx hsplit hbody hroom hdata
    have hctx₂ := hctx.splitCreate (fun hheader => by cases hheader) hsplit
    exact hctx₂.failsAtLabels_moveNextToChild hnext hback hle
  · exact .ok _

/-- The guards let the instruction through. -/
theorem insert_of_valid {ptr : ItemPointer} {w : Source} (hw : ctx.getSource ptr = .ok w)
    (hvalid : Valid ctx w) :
    insert ctx ptr = (do
      let (ctx, instruction) ← parse ctx (w.at_ 0)
      let ctx₂ ← ctx.splitCreate ptr.item ptr.offset (.instruction instruction)
      let ctx₃ ← moveData ctx₂ ctx.nextId (remData w)
      let (it, children) ← ctx₃.get ctx.nextId
      require (it.getSize children = (w.valueAt Header 0).size.toNat)
        (Error.assertionFailed "ret.GetSize() == inst.size")
      pure (ctx₃, ctx.nextId, instruction)) := by
  obtain ⟨-, -, -, hat⟩ := getSource_spec hw
  have hheader : 0 + Pod.size Header ≤ w.size := by
    rw [Nat.zero_add]
    exact hvalid.header_le
  have hinst : w.preadGen Header 0 = .ok (w.valueAt Header 0) := Source.preadGen_of_le hheader
  simp only [moveData_bind]
  rw [insert, hw, ok_bind, Source.checkSize_of_le hvalid.header_le, ok_bind, hinst, ok_bind,
    Source.checkSize_of_le hvalid.size_le, ok_bind, hat]
  rfl

/-- Parsing comes to none of the branches for invalid parameters, and to no size
that differs from that of the header; the item that comes out of it is as long as
the header says, and writes the bytes it was read from. -/
theorem insert_reencodes (hparse : ctx.UnderParse) {ptr : ItemPointer} {w : Source}
    (hw : ctx.getSource ptr = .ok w) (hvalid : Valid ctx w) :
    FailsAtLabels (insert ctx ptr) ∧
    ∀ ctx' id i, insert ctx ptr = .ok (ctx', id, i) →
      ∃ it children, ctx'.get id = .ok (it, children) ∧ it.body = .instruction i ∧
        it.getSize children = (w.valueAt Header 0).size.toNat ∧
        ItemList.dumpBytes ctx'.view (.single it children) =
          .ok (Lib.slice w.bytes 0 (w.valueAt Header 0).size.toNat) := by
  have hctx := hparse.consistent
  obtain ⟨src, hbody, hsize, -⟩ := getSource_spec hw
  rw [insert_of_valid hw hvalid]
  constructor
  · refine (failsAtLabels_parse hvalid).bind fun parsed hi => ?_
    obtain ⟨ctx₁, i⟩ := parsed
    obtain ⟨hroom, hfinal⟩ := dump_of_inserted hctx hw hbody hsize hvalid.size_le hi
    have hrelabels := relabeling_parse ctx _ _ _ hi
    have hctx₁ := hrelabels.consistent hctx
    have hbody₁ := (hrelabels.bodyOf ptr.item).trans hbody
    have hbody₂ : (ctx₁.create (.instruction i)).2.bodyOf ptr.item = some (.raw src) := hbody₁
    obtain ⟨r, children, hraw⟩ := getRaw_of_bodyOf hbody₂
    refine FailsAtLabels.bind (hctx₁.create.failsAtLabels_split2 hraw rfl ?_) fun ctx₂ hsplit => ?_
    · change ptr.offset + ((Body.instruction i).ownSize + 0) ≤ src.size
      omega
    · refine (failsAtLabels_moveData hctx₁ hsplit hbody₁ hroom).bind fun ctx₃ hmove => ?_
      obtain ⟨it, children, hfind, -, hgetSize, -⟩ := hfinal ctx₂ ctx₃ hsplit hmove
      rw [get_of_find? hfind, ok_bind]
      dsimp only
      rw [require_of hgetSize, ok_bind]
      exact .ok _
  · intro ctx' id i h
    obtain ⟨⟨ctx₁, i'⟩, hi, h⟩ := bind_eq_ok.mp h
    obtain ⟨ctx₂, hsplit, h⟩ := bind_eq_ok.mp h
    obtain ⟨ctx₃, hmove, h⟩ := bind_eq_ok.mp h
    obtain ⟨_, -, h⟩ := bind_eq_ok.mp h
    obtain ⟨_, -, h⟩ := bind_eq_ok.mp h
    cases h
    obtain ⟨-, hfinal⟩ := dump_of_inserted hctx hw hbody hsize hvalid.size_le hi
    obtain ⟨it, children, hfind, hrest⟩ := hfinal ctx₂ ctx' hsplit hmove
    exact ⟨it, children, get_of_find? hfind, hrest⟩

/-- An instruction with four bytes of data. Its parameters are a pointer to these, a
pointer to the instruction itself, and a place on the stack. -/
def loneInstruction : Source :=
  let params : List Parameter :=
    [{ param0 := 0x34, param4 := 0x40000007, param8 := 0xffffff02 },
      { param0 := Type0Special.instrPtr0, param4 := 0, param8 := 0x40000000 },
      { param0 := 0xffffff05, param4 := 0x40000000, param8 := 0x40000000 }]
  .fromMemory (toBytes ({ isCall := 0, opcode := 1, paramCount := 3, size := 0x38 } : Header) ++
    params.flatMap toBytes ++ [1, 2, 3, 4])

def loneContext : Context :=
  ((run Context.parseStep (.root loneInstruction) [.split 0 0x38 .eof]).toOption).getD .empty

theorem loneContext_insert_reencodes : ∃ ctx' id i,
    insert loneContext ⟨0, 0⟩ = .ok (ctx', id, i) ∧
      ∃ it children, ctx'.get id = .ok (it, children) ∧ it.getSize children = 0x38 ∧
        ItemList.dumpBytes ctx'.view (.single it children) = .ok loneInstruction.bytes := by
  have hparse : loneContext.UnderParse :=
    ⟨loneInstruction, [.split 0 0x38 .eof],
      ⟨(fun hheader => nomatch hheader), fun _ _ => trivial⟩, rfl⟩
  have hw : loneContext.getSource ⟨0, 0⟩ = .ok loneInstruction := rfl
  have hvalid : Valid loneContext loneInstruction :=
    ⟨by decide, by decide, by decide, by decide⟩
  obtain ⟨-, hreencodes⟩ := insert_reencodes hparse hw hvalid
  have hinsert : (insert loneContext ⟨0, 0⟩).toOption.map (fun y => y.2.1) = some 2 := by
    decide +kernel
  obtain ⟨⟨ctx', id, i⟩, hinsert, -⟩ := exists_ok_of_toOption hinsert
  obtain ⟨it, children, hget, -, hsize, hdump⟩ := hreencodes ctx' id i hinsert
  exact ⟨ctx', id, i, hinsert, it, children, hget, hsize, hdump⟩

end InstructionItem

end Stcm

end Neptools

import Neptools.Stsc.Conditions
import Neptools.Stsc.Decode

/-!
What is read can be written and read again: the counts fit in their fields, and the labels
lead to places in the file.
-/

namespace Neptools

open Lib

namespace Stsc

open Context

variable {ctx ctx' : Context} {v v' : LabelView} {size size' : Nat}

/-- What leads to places in a file leads to places in another one. -/
def Moves (v : LabelView) (size : Nat) (v' : LabelView) (size' : Nat) : Prop :=
  ∀ l pos, v.toFilePos l = .ok pos → pos ≤ size → ∃ pos', v'.toFilePos l = .ok pos' ∧
    pos' ≤ size' ∧ (0 < pos → 0 < pos') ∧ (pos < size → pos' < size')

theorem Moves.of_toFilePos (h : ∀ l pos, v.toFilePos l = .ok pos → v'.toFilePos l = .ok pos) :
    Moves v size v' size :=
  fun l pos hl hle => ⟨pos, h l pos hl, hle, id, id⟩

section

variable (hmoves : Moves v size v' size')

include hmoves

theorem Arg.Readable.moves {a : Arg} (h : a.Readable v size) : a.Readable v' size' := by
  have hlabel {l : Option LabelPtr}
      (h : ∀ l' ∈ l, ∃ pos, v.toFilePos l' = .ok pos ∧ 0 < pos ∧ pos ≤ size) :
      ∀ l' ∈ l, ∃ pos, v'.toFilePos l' = .ok pos ∧ 0 < pos ∧ pos ≤ size' := by
    intro l' hl'
    obtain ⟨pos, hpos, hpositive, hle⟩ := h l' hl'
    obtain ⟨pos', hpos', hle', hpositive', -⟩ := hmoves l' pos hpos hle
    exact ⟨pos', hpos', hpositive' hpositive, hle'⟩
  cases a with
  | uint8 _ | uint16 _ | uint32 _ | float _ => trivial
  | string l | code l | data l => exact hlabel h

theorem TargetIn.moves {l : LabelPtr} (h : TargetIn v size l) : TargetIn v' size' l := by
  obtain ⟨pos, hpos, hlt⟩ := h
  obtain ⟨pos', hpos', -, -, hlt'⟩ := hmoves l pos hpos hlt.le
  exact ⟨pos', hpos', hlt' hlt⟩

theorem InstructionJumpSwitchItem.Readable.moves {switch : InstructionJumpSwitchItem}
    (h : switch.Readable v size) : switch.Readable v' size' :=
  { h with targets := fun e he => (h.targets e he).moves hmoves }

theorem Instruction.Readable.moves {t : InstructionType} {i : Instruction}
    (h : i.Readable v size t) : i.Readable v' size' t := by
  cases t with
  | simple noReturn ts =>
      cases i with
      | simple noReturn' args => exact ⟨h.1, h.2.1, fun a ha => (h.2.2 a ha).moves hmoves⟩
      | rndJump _ | jumpIf _ _ | jumpSwitchNoire _ | jumpSwitchPotbb _ _ => exact h.elim
  | rndJump =>
      cases i with
      | rndJump tgts => exact ⟨h.1, fun l hl => (h.2 l hl).moves hmoves⟩
      | simple _ _ | jumpIf _ _ | jumpSwitchNoire _ | jumpSwitchPotbb _ _ => exact h.elim
  | unimplemented => cases i <;> exact h.elim
  | jumpIf =>
      cases i with
      | jumpIf tgt tree => exact ⟨h.1, h.2.1, h.2.2.moves hmoves⟩
      | simple _ _ | rndJump _ | jumpSwitchNoire _ | jumpSwitchPotbb _ _ => exact h.elim
  | jumpSwitchNoire =>
      cases i with
      | jumpSwitchNoire switch => exact InstructionJumpSwitchItem.Readable.moves hmoves h
      | simple _ _ | rndJump _ | jumpIf _ _ | jumpSwitchPotbb _ _ => exact h.elim
  | jumpSwitchPotbb =>
      cases i with
      | jumpSwitchPotbb switch _ => exact InstructionJumpSwitchItem.Readable.moves hmoves h
      | simple _ _ | rndJump _ | jumpIf _ _ | jumpSwitchNoire _ => exact h.elim

end

/-! What can be read can be written. -/

theorem Arg.Readable.exists_dump {a : Arg} (h : a.Readable v size) : ∃ bs, a.dump v = .ok bs := by
  have hlabel {l : Option LabelPtr}
      (h : ∀ l' ∈ l, ∃ pos, v.toFilePos l' = .ok pos ∧ 0 < pos ∧ pos ≤ size) :
      ∃ bs, Arg.dumpLabel v l = .ok bs := by
    cases l with
    | none => exact ⟨_, rfl⟩
    | some l =>
        obtain ⟨pos, hpos, -⟩ := h l rfl
        exact ⟨_, by rw [Arg.dumpLabel, LabelView.toFilePosOrZero, hpos, ok_bind]; rfl⟩
  cases a with
  | uint8 _ | uint16 _ | uint32 _ | float _ => exact ⟨_, rfl⟩
  | string l | code l | data l => exact hlabel h

theorem exists_dumpArgs {args : List Arg} (h : ∀ a ∈ args, a.Readable v size) :
    ∃ bs, dumpArgs v args = .ok bs := by
  induction args with
  | nil => exact ⟨_, rfl⟩
  | cons a args ih =>
      obtain ⟨ha, hargs⟩ := List.forall_mem_cons.mp h
      obtain ⟨bs, hbs⟩ := ha.exists_dump
      obtain ⟨rest, hrest⟩ := ih hargs
      exact ⟨_, by rw [dumpArgs, hbs, ok_bind, hrest, ok_bind]; rfl⟩

theorem exists_dumpTargets {tgts : List LabelPtr} (h : ∀ l ∈ tgts, TargetIn v size l) :
    ∃ calls, dumpTargets v tgts = .ok calls := by
  induction tgts with
  | nil => exact ⟨_, rfl⟩
  | cons l ls ih =>
      obtain ⟨⟨pos, hpos, -⟩, hls⟩ := List.forall_mem_cons.mp h
      obtain ⟨rest, hrest⟩ := ih hls
      exact ⟨_, by rw [dumpTargets, hpos, ok_bind, hrest, ok_bind]; rfl⟩

namespace InstructionJumpSwitchItem

theorem exists_dumpExpressions_of_targetIn {es : List Expression}
    (h : ∀ e ∈ es, TargetIn v size e.target) : ∃ calls, dumpExpressions v es = .ok calls := by
  induction es with
  | nil => exact ⟨_, rfl⟩
  | cons e es ih =>
      obtain ⟨⟨pos, hpos, -⟩, hes⟩ := List.forall_mem_cons.mp h
      obtain ⟨rest, hrest⟩ := ih hes
      exact ⟨_, by rw [dumpExpressions, hpos, ok_bind, hrest, ok_bind]; rfl⟩

theorem Readable.exists_dump {switch : InstructionJumpSwitchItem} (h : switch.Readable v size) :
    ∃ calls, Instruction.dumpSwitch v switch = .ok calls := by
  obtain ⟨calls, hcalls⟩ := exists_dumpExpressions_of_targetIn h.targets
  exact ⟨_, by rw [Instruction.dumpSwitch, hcalls, ok_bind]; rfl⟩

end InstructionJumpSwitchItem

theorem Instruction.Readable.exists_dump {t : InstructionType} {i : Instruction}
    (h : i.Readable v size t) : ∃ calls, i.dump v = .ok calls := by
  cases i with
  | simple noReturn args =>
      cases t with
      | simple _ _ =>
          obtain ⟨bs, hbs⟩ := exists_dumpArgs h.2.2
          exact ⟨_, by rw [Instruction.dump, hbs, ok_bind]; rfl⟩
      | rndJump | unimplemented | jumpIf | jumpSwitchNoire | jumpSwitchPotbb => exact h.elim
  | rndJump tgts =>
      cases t with
      | rndJump =>
          obtain ⟨calls, hcalls⟩ := exists_dumpTargets h.2
          exact ⟨_, by rw [Instruction.dump, hcalls, ok_bind]; rfl⟩
      | simple _ _ | unimplemented | jumpIf | jumpSwitchNoire | jumpSwitchPotbb => exact h.elim
  | jumpIf tgt tree =>
      cases t with
      | jumpIf =>
          obtain ⟨-, -, pos, hpos, -⟩ := h
          exact ⟨_, by rw [Instruction.dump, hpos, ok_bind]; rfl⟩
      | simple _ _ | unimplemented | rndJump | jumpSwitchNoire | jumpSwitchPotbb => exact h.elim
  | jumpSwitchNoire switch =>
      cases t with
      | jumpSwitchNoire => exact InstructionJumpSwitchItem.Readable.exists_dump h
      | simple _ _ | unimplemented | rndJump | jumpIf | jumpSwitchPotbb => exact h.elim
  | jumpSwitchPotbb switch trailing =>
      cases t with
      | jumpSwitchPotbb =>
          obtain ⟨calls, hcalls⟩ := InstructionJumpSwitchItem.Readable.exists_dump h
          exact ⟨_, by rw [Instruction.dump, hcalls, ok_bind]; rfl⟩
      | simple _ _ | unimplemented | rndJump | jumpIf | jumpSwitchNoire => exact h.elim

/-! The arguments. -/

namespace RawArg

theorem readable_of_parseLabel (h : ctx.Charted) {r : UInt32}
    (hvalid : validateLabel r ctx.getSize = .ok ()) {l : Option LabelPtr}
    (hparse : parseLabel ctx r = .ok (ctx', l)) :
    ctx'.Charted ∧ (Arg.code l).Readable ctx'.view ctx.getSize := by
  have hle : r.toNat ≤ ctx.getSize := require_eq_ok.mp hvalid
  rw [parseLabel] at hparse
  split at hparse
  · cases hparse
    exact ⟨h, fun l hl => by cases hl⟩
  · rename_i hzero
    obtain ⟨⟨ctx₁, l⟩, hl, hparse⟩ := bind_eq_ok.mp hparse
    cases hparse
    obtain ⟨-, hctx', hpos⟩ := h.of_getLabelTo hl
    refine ⟨hctx', fun l' hl' => ?_⟩
    cases hl'
    exact ⟨r.toNat, hpos, Nat.pos_of_ne_zero fun heq => hzero (UInt32.toNat_inj.mp heq), hle⟩

theorem readable_of_parseString (h : ctx.Charted) {r : UInt32}
    (hvalid : validateLabel r ctx.getSize = .ok ()) {l : Option LabelPtr}
    (hparse : parseString ctx r = .ok (ctx', l)) :
    ctx'.Charted ∧ (Arg.string l).Readable ctx'.view ctx.getSize := by
  have hle : r.toNat ≤ ctx.getSize := require_eq_ok.mp hvalid
  rw [parseString] at hparse
  split at hparse
  · cases hparse
    exact ⟨h, fun l hl => by cases hl⟩
  · rename_i hzero
    have hlabel {l : LabelPtr} (hpos : ctx'.toFilePos l = .ok r.toNat) :
        (Arg.string (some l)).Readable ctx'.view ctx.getSize := by
      intro l' hl'
      cases hl'
      exact ⟨r.toNat, hpos, Nat.pos_of_ne_zero fun heq => hzero (UInt32.toNat_inj.mp heq), hle⟩
    obtain ⟨ptr, -, hparse⟩ := bind_eq_ok.mp hparse
    split at hparse
    · obtain ⟨src, -, hparse⟩ := bind_eq_ok.mp hparse
      obtain ⟨string, -, hparse⟩ := bind_eq_ok.mp hparse
      obtain ⟨⟨ctx₁, l⟩, hl, hparse⟩ := bind_eq_ok.mp hparse
      cases hparse
      obtain ⟨-, hctx', hpos⟩ := h.of_getLabelToNamed hl
      exact ⟨hctx', hlabel hpos⟩
    · obtain ⟨⟨ctx₁, l⟩, hl, hparse⟩ := bind_eq_ok.mp hparse
      cases hparse
      obtain ⟨-, hctx', hpos⟩ := h.of_getLabelTo hl
      exact ⟨hctx', hlabel hpos⟩

theorem readable_of_parse (h : ctx.Charted) {a : RawArg}
    (hvalid : a.validate ctx.getSize = .ok ()) {arg : Arg}
    (hparse : a.parse ctx = .ok (ctx', arg)) :
    ctx'.Charted ∧ arg.type = a.type ∧ arg.Readable ctx'.view ctx.getSize := by
  cases a with
  | uint8 _ | uint16 _ | uint32 _ | float _ =>
      cases hparse
      exact ⟨h, rfl, trivial⟩
  | string r =>
      obtain ⟨⟨ctx₁, l⟩, hl, hparse⟩ := bind_eq_ok.mp hparse
      cases hparse
      obtain ⟨hctx', hread⟩ := readable_of_parseString h hvalid hl
      exact ⟨hctx', rfl, hread⟩
  | code r =>
      obtain ⟨⟨ctx₁, l⟩, hl, hparse⟩ := bind_eq_ok.mp hparse
      cases hparse
      obtain ⟨hctx', hread⟩ := readable_of_parseLabel h hvalid hl
      exact ⟨hctx', rfl, hread⟩
  | data r =>
      obtain ⟨⟨ctx₁, l⟩, hl, hparse⟩ := bind_eq_ok.mp hparse
      cases hparse
      obtain ⟨hctx', hread⟩ := readable_of_parseLabel h hvalid hl
      exact ⟨hctx', rfl, hread⟩

end RawArg

theorem readable_of_parseArgs (h : ctx.Charted) {as : List RawArg}
    (hvalid : validateArgs ctx.getSize as = .ok ()) {args : List Arg}
    (hparse : parseArgs ctx as = .ok (ctx', args)) :
    ctx'.Charted ∧ args.map Arg.type = as.map RawArg.type ∧
      ∀ a ∈ args, a.Readable ctx'.view ctx.getSize := by
  induction as generalizing ctx args with
  | nil =>
      cases hparse
      exact ⟨h, rfl, List.forall_mem_nil _⟩
  | cons a as ih =>
      obtain ⟨_, hfirst, hvalid⟩ := bind_eq_ok.mp hvalid
      obtain ⟨⟨ctx₁, arg⟩, harg, hparse⟩ := bind_eq_ok.mp hparse
      obtain ⟨⟨ctx₂, args⟩, hargs, hparse⟩ := bind_eq_ok.mp hparse
      cases hparse
      have hrelabels := a.relabeling_parse ctx _ _ harg
      obtain ⟨h₁, htype, hread⟩ := RawArg.readable_of_parse h hfirst harg
      rw [← hrelabels.getSize] at hvalid
      obtain ⟨hctx', htypes, hreads⟩ := ih h₁ hvalid hargs
      rw [hrelabels.getSize] at hreads
      have hview := ((relabeling_parseArgs ctx₁ as _ _ hargs).extends False).toFilePos
      refine ⟨hctx', by rw [List.map_cons, List.map_cons, htype, htypes], ?_⟩
      exact List.forall_mem_cons.mpr ⟨hread.moves (.of_toFilePos hview), hreads⟩

variable {src : Source}

theorem readable_of_parseSimple (h : ctx.Charted) {noReturn : Bool} {ts : List ArgType}
    {i : Instruction} (hparse : parseSimple ctx noReturn ts src = .ok (ctx', i)) :
    ctx'.Charted ∧ i.Readable ctx'.view ctx.getSize (.simple noReturn ts) := by
  obtain ⟨_, -, hparse⟩ := bind_eq_ok.mp hparse
  obtain ⟨raw, -, hparse⟩ := bind_eq_ok.mp hparse
  obtain ⟨_, hvalid, hparse⟩ := bind_eq_ok.mp hparse
  obtain ⟨⟨ctx₁, args⟩, hargs, hparse⟩ := bind_eq_ok.mp hparse
  cases hparse
  obtain ⟨hctx', htypes, hreads⟩ := readable_of_parseArgs h hvalid hargs
  exact ⟨hctx', rfl, by rw [htypes, type_rawArgs], hreads⟩

/-! The other instructions. -/

theorem readable_of_parseTargets (h : ctx.Charted) {n : Nat} {tgts : List LabelPtr}
    (hparse : parseTargets ctx src n = .ok (ctx', tgts)) :
    ctx'.Charted ∧ tgts.length = n ∧ ∀ l ∈ tgts, TargetIn ctx'.view ctx.getSize l := by
  induction n generalizing ctx src tgts with
  | zero =>
      cases hparse
      exact ⟨h, rfl, List.forall_mem_nil _⟩
  | succ n ih =>
      obtain ⟨⟨t, src₁⟩, -, hparse⟩ := bind_eq_ok.mp hparse
      obtain ⟨_, hvalid, hparse⟩ := bind_eq_ok.mp hparse
      obtain ⟨⟨ctx₁, l⟩, hl, hparse⟩ := bind_eq_ok.mp hparse
      obtain ⟨⟨ctx₂, ls⟩, hls, hparse⟩ := bind_eq_ok.mp hparse
      cases hparse
      have hlt : t.toNat < ctx.getSize := require_eq_ok.mp hvalid
      obtain ⟨hrelabels, h₁, hpos⟩ := h.of_getLabelTo hl
      obtain ⟨hctx', hlength, hin⟩ := ih h₁ hls
      rw [hrelabels.getSize] at hin
      have hview := ((relabeling_parseTargets ctx₁ _ n _ _ hls).extends False).toFilePos
      refine ⟨hctx', congrArg Nat.succ hlength, List.forall_mem_cons.mpr ⟨?_, hin⟩⟩
      exact ⟨t.toNat, hview _ _ hpos, hlt⟩

theorem readable_of_parseRndJump (h : ctx.Charted) {i : Instruction}
    (hparse : parseRndJump ctx src = .ok (ctx', i)) :
    ctx'.Charted ∧ i.Readable ctx'.view ctx.getSize .rndJump := by
  obtain ⟨_, -, hparse⟩ := bind_eq_ok.mp hparse
  obtain ⟨⟨n, src₁⟩, -, hparse⟩ := bind_eq_ok.mp hparse
  obtain ⟨_, -, hparse⟩ := bind_eq_ok.mp hparse
  obtain ⟨⟨ctx₁, tgts⟩, htgts, hparse⟩ := bind_eq_ok.mp hparse
  cases hparse
  obtain ⟨hctx', hlength, hin⟩ := readable_of_parseTargets h htgts
  exact ⟨hctx', hlength ▸ n.toNat_lt, hin⟩

theorem InstructionJumpIfItem.readable_of_parse (h : ctx.Charted) {i : Instruction}
    (hparse : parse ctx src = .ok (ctx', i)) :
    ctx'.Charted ∧ i.Readable ctx'.view ctx.getSize .jumpIf := by
  obtain ⟨_, -, hparse⟩ := bind_eq_ok.mp hparse
  obtain ⟨⟨fp, src₁⟩, -, hparse⟩ := bind_eq_ok.mp hparse
  obtain ⟨_, hvalid, hparse⟩ := bind_eq_ok.mp hparse
  obtain ⟨⟨ctx₁, tgt⟩, htgt, hparse⟩ := bind_eq_ok.mp hparse
  obtain ⟨_, -, hparse⟩ := bind_eq_ok.mp hparse
  obtain ⟨tree, htree, hparse⟩ := bind_eq_ok.mp hparse
  cases hparse
  obtain ⟨_, -, hvalid⟩ := bind_eq_ok.mp hvalid
  have hlt : fp.tgt.toNat < ctx.getSize := require_eq_ok.mp hvalid
  obtain ⟨-, hctx', hpos⟩ := h.of_getLabelTo htgt
  obtain ⟨hlength, hnodes⟩ := le_of_parseTree htree
  rw [← hlength] at hnodes
  exact ⟨hctx', hlength ▸ fp.size.toNat_lt, hnodes, fp.tgt.toNat, hpos, hlt⟩

namespace InstructionJumpSwitchItem

theorem readable_of_parseExpressions (h : ctx.Charted) {src' : Source} {n : Nat}
    {exps : List Expression} (hparse : parseExpressions ctx src n = .ok (ctx', src', exps)) :
    exps.length = n ∧ ∀ e ∈ exps, TargetIn ctx'.view ctx.getSize e.target := by
  induction n generalizing ctx src exps with
  | zero =>
      cases hparse
      exact ⟨rfl, List.forall_mem_nil _⟩
  | succ n ih =>
      obtain ⟨⟨exp, src₁⟩, -, hparse⟩ := bind_eq_ok.mp hparse
      obtain ⟨_, hvalid, hparse⟩ := bind_eq_ok.mp hparse
      obtain ⟨⟨ctx₁, target⟩, htarget, hparse⟩ := bind_eq_ok.mp hparse
      obtain ⟨⟨ctx₂, src₂, rest⟩, hrest, hparse⟩ := bind_eq_ok.mp hparse
      cases hparse
      have hlt : exp.tgt.toNat < ctx.getSize := require_eq_ok.mp hvalid
      obtain ⟨hrelabels, h₁, hpos⟩ := h.of_getLabelTo htarget
      obtain ⟨hlength, hin⟩ := ih h₁ hrest
      rw [hrelabels.getSize] at hin
      have hview := ((relabeling_parseExpressions ctx₁ _ n _ _ hrest).extends False).toFilePos
      refine ⟨congrArg Nat.succ hlength, List.forall_mem_cons.mpr ⟨?_, hin⟩⟩
      exact ⟨exp.tgt.toNat, hview _ _ hpos, hlt⟩

theorem count_lt (fp : FixParams) :
    fp.count.toNat < 0x8000 ∧ (fp.lastIsDefault = true → fp.count.toNat < 0x800) := by
  rw [fp.toNat_count]
  by_cases hdefault : fp.lastIsDefault = true
  · rw [if_pos hdefault]
    have hlt := Nat.mod_lt fp.size.toNat (show 0 < 0x800 by decide)
    exact ⟨hlt.trans (by decide), fun _ => hlt⟩
  · rw [if_neg hdefault]
    refine ⟨?_, fun h => absurd h hdefault⟩
    rw [fp.lastIsDefault_iff] at hdefault
    omega

theorem readable_of_parse (h : ctx.Charted) {src' : Source} {switch : InstructionJumpSwitchItem}
    (hparse : parse ctx src = .ok (ctx', src', switch)) :
    ctx'.Charted ∧ switch.Readable ctx'.view ctx.getSize := by
  have hctx' := charted_of_parse h hparse
  obtain ⟨_, -, hparse⟩ := bind_eq_ok.mp hparse
  obtain ⟨⟨fp, src₁⟩, -, hparse⟩ := bind_eq_ok.mp hparse
  obtain ⟨_, -, hparse⟩ := bind_eq_ok.mp hparse
  obtain ⟨⟨ctx₁, src₂, exps⟩, hexps, hparse⟩ := bind_eq_ok.mp hparse
  cases hparse
  obtain ⟨hlength, hin⟩ := readable_of_parseExpressions h hexps
  obtain ⟨hcount, hcases⟩ := count_lt fp
  exact ⟨hctx', hlength ▸ hcount, fun hdefault => hlength ▸ hcases hdefault, hin⟩

end InstructionJumpSwitchItem

/-- An instruction that was read fits its class, and leads to places in the file. -/
theorem readable_of_parseInstruction (h : ctx.Charted) {t : InstructionType} {i : Instruction}
    (hparse : parseInstruction ctx src t = .ok (ctx', i)) :
    ctx'.Charted ∧ i.Readable ctx'.view ctx'.getSize t := by
  rw [(relabeling_parseInstruction ctx src t _ _ hparse).getSize]
  cases t with
  | simple noReturn ts => exact readable_of_parseSimple h hparse
  | rndJump => exact readable_of_parseRndJump h hparse
  | unimplemented => cases hparse
  | jumpIf => exact InstructionJumpIfItem.readable_of_parse h hparse
  | jumpSwitchNoire =>
      obtain ⟨⟨ctx₁, src₁, switch⟩, hswitch, hparse⟩ := bind_eq_ok.mp hparse
      cases hparse
      exact InstructionJumpSwitchItem.readable_of_parse h hswitch
  | jumpSwitchPotbb =>
      obtain ⟨⟨ctx₁, src₁, switch⟩, hswitch, hparse⟩ := bind_eq_ok.mp hparse
      obtain ⟨_, -, hparse⟩ := bind_eq_ok.mp hparse
      obtain ⟨⟨trailingByte, src₂⟩, -, hparse⟩ := bind_eq_ok.mp hparse
      cases hparse
      exact InstructionJumpSwitchItem.readable_of_parse h hswitch

/-- The entry point is in the file, and not its last byte. -/
theorem HeaderItem.entryPoint_of_parse (h : ctx.Charted) (hsize : src.size = ctx.getSize)
    {hdr : HeaderItem} (hparse : HeaderItem.parse ctx src = .ok (ctx', hdr)) : ctx'.Charted ∧
      ∃ pos, ctx'.toFilePos hdr.entryPoint = .ok pos ∧ pos + 1 < ctx.getSize := by
  obtain ⟨_, -, hparse⟩ := bind_eq_ok.mp hparse
  obtain ⟨⟨raw, src₀⟩, hread, hparse⟩ := bind_eq_ok.mp hparse
  obtain ⟨_, hvalid, hparse⟩ := bind_eq_ok.mp hparse
  obtain ⟨ptr, hptr, hparse⟩ := bind_eq_ok.mp hparse
  obtain ⟨⟨extra1, src₁⟩, -, hparse⟩ := bind_eq_ok.mp hparse
  obtain ⟨⟨extra2, src₂⟩, -, hparse⟩ := bind_eq_ok.mp hparse
  obtain ⟨⟨extra4, src₄⟩, -, hparse⟩ := bind_eq_ok.mp hparse
  cases hparse
  obtain ⟨hstand, rfl⟩ := Source.readGen_spec hread
  have hle := hstand.le
  rw [Pod.length_toBytes, Source.length_bytes] at hle
  have hheader : Pod.size Header = 12 := rfl
  obtain ⟨_, -, hvalid⟩ := bind_eq_ok.mp hvalid
  obtain ⟨_, hentry, -⟩ := bind_eq_ok.mp hvalid
  have hlt : raw.entryPoint.toNat + 1 < ctx.getSize := by
    have hentry := require_eq_ok.mp hentry
    rw [Source.size_at_] at hentry
    omega
  obtain ⟨ptr', hptr', hinside⟩ := h.exists_getPointer _
  cases hptr.symm.trans hptr'
  obtain ⟨it, children, hfind, -⟩ := getPointer_ok hptr
  have hat : ctx.createLabelFallbackAt entryPointName raw.entryPoint.toNat =
      .ok (ctx.createLabelFallback entryPointName ptr) := by
    rw [createLabelFallbackAt, hptr]
    rfl
  exact ⟨h.createLabelFallback _ hinside (get_of_find? hfind), _,
    Consistent.createLabelFallbackAt_toFilePos hat, hlt⟩

end Stsc

end Neptools

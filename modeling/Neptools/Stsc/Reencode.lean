import Neptools.Format.AtLabels
import Neptools.Format.Asks
import Neptools.Format.Sizes
import Neptools.Stsc.Carve

/-!
An instruction of an STSC file writes the bytes it was read from. A switch has its own
rules, so it is left out here.
-/

namespace Neptools

open Lib

/-- The labels of the context are where they were. -/
def LabelView.Places (v : LabelView) (ctx : Context) : Prop :=
  ∀ l pos, ctx.toFilePos l = .ok pos → v.toFilePos l = .ok pos

theorem LabelView.Places.before {v : LabelView} {ctx ctx' : Context} (hv : v.Places ctx')
    (h : ctx.Relabels ctx') : v.Places ctx :=
  fun l pos hpos => hv l pos ((h.extends False).toFilePos l pos hpos)

namespace Stsc

open Context

variable {ctx ctx' : Context} {v : LabelView}

namespace RawArg

/-- The bytes of an argument. -/
def bytes : RawArg → Bytes
  | uint8 val => toBytes val
  | uint16 val => toBytes val
  | uint32 val => toBytes val
  | float bits => toBytes bits
  | string pos => toBytes pos
  | code pos => toBytes pos
  | data pos => toBytes pos

theorem bytes_ofBytes {t : ArgType} {bs : Bytes} (h : bs.length = t.size) :
    (ofBytes t bs).bytes = bs := by
  cases t with
  | uint8 | uint16 | uint32 | float | string | code | data => exact Pod.toBytes_ofBytes _ h

theorem dumpLabel_of_toFilePos {l : LabelPtr} {r : UInt32}
    (h : v.toFilePos l = .ok r.toNat) : Arg.dumpLabel v (some l) = .ok (toBytes r) := by
  rw [Arg.dumpLabel, LabelView.toFilePosOrZero, h, ok_bind, UInt32.ofNat_toNat, pure_eq_ok]

/-- A zero pointer has no label, and is written as zero. -/
theorem dumpLabel_none (v : LabelView) : Arg.dumpLabel v none = .ok (toBytes (0 : UInt32)) := rfl

theorem dumpLabel_of_parseLabel (hctx : ctx.Consistent) (hv : v.Places ctx') {r : UInt32}
    {l : Option LabelPtr} (h : parseLabel ctx r = .ok (ctx', l)) :
    Arg.dumpLabel v l = .ok (toBytes r) := by
  rw [parseLabel] at h
  split at h
  · rename_i hzero
    cases h
    rw [hzero, dumpLabel_none]
  · obtain ⟨⟨ctx₁, l⟩, hl, h⟩ := bind_eq_ok.mp h
    cases h
    exact dumpLabel_of_toFilePos (hv _ _ (hctx.getLabelTo_toFilePos hl))

theorem dumpLabel_of_parseString (hctx : ctx.Consistent) (hv : v.Places ctx') {r : UInt32}
    {l : Option LabelPtr} (h : parseString ctx r = .ok (ctx', l)) :
    Arg.dumpLabel v l = .ok (toBytes r) := by
  rw [parseString] at h
  split at h
  · rename_i hzero
    cases h
    rw [hzero, dumpLabel_none]
  · obtain ⟨ptr, -, h⟩ := bind_eq_ok.mp h
    split at h
    · obtain ⟨src, -, h⟩ := bind_eq_ok.mp h
      obtain ⟨string, -, h⟩ := bind_eq_ok.mp h
      obtain ⟨⟨ctx₁, l⟩, hl, h⟩ := bind_eq_ok.mp h
      cases h
      exact dumpLabel_of_toFilePos (hv _ _ (hctx.getLabelToNamed_toFilePos hl))
    · obtain ⟨⟨ctx₁, l⟩, hl, h⟩ := bind_eq_ok.mp h
      cases h
      exact dumpLabel_of_toFilePos (hv _ _ (hctx.getLabelTo_toFilePos hl))

theorem dump_of_parse (hctx : ctx.Consistent) (hv : v.Places ctx') {a : RawArg} {arg : Arg}
    (h : a.parse ctx = .ok (ctx', arg)) : arg.dump v = .ok a.bytes := by
  cases a with
  | uint8 _ | uint16 _ | uint32 _ | float _ =>
      cases h
      rfl
  | string r =>
      obtain ⟨⟨ctx₁, l⟩, hl, h⟩ := bind_eq_ok.mp h
      cases h
      exact dumpLabel_of_parseString hctx hv hl
  | code r | data r =>
      obtain ⟨⟨ctx₁, l⟩, hl, h⟩ := bind_eq_ok.mp h
      cases h
      exact dumpLabel_of_parseLabel hctx hv hl

end RawArg

theorem dumpArgs_of_parseArgs (hctx : ctx.Consistent) (hv : v.Places ctx') {as : List RawArg}
    {args : List Arg} (h : parseArgs ctx as = .ok (ctx', args)) :
    dumpArgs v args = .ok (as.flatMap RawArg.bytes) := by
  induction as generalizing ctx args with
  | nil =>
      cases h
      rfl
  | cons a as ih =>
      obtain ⟨⟨ctx₁, arg⟩, ha, h⟩ := bind_eq_ok.mp h
      obtain ⟨⟨ctx₂, rest⟩, hrest, h⟩ := bind_eq_ok.mp h
      cases h
      have hctx₁ := (a.relabeling_parse ctx _ _ ha).consistent hctx
      have hv₁ := hv.before (relabeling_parseArgs ctx₁ as _ _ hrest)
      rw [dumpArgs, RawArg.dump_of_parse hctx hv₁ ha, ok_bind, ih hctx₁ hrest, ok_bind, List.flatMap_cons, pure_eq_ok]

theorem bytes_rawArgs {ts : List ArgType} {bs : Bytes} (h : bs.length = argsSize ts) :
    (rawArgs ts bs).flatMap RawArg.bytes = bs := by
  induction ts generalizing bs with
  | nil => exact (List.eq_nil_of_length_eq_zero h).symm
  | cons t ts ih =>
      rw [argsSize, List.map_cons, List.sum_cons] at h
      have hfirst : (bs.take t.size).length = t.size := by
        rw [List.length_take]
        omega
      have hrest : (bs.drop t.size).length = argsSize ts := by
        rw [List.length_drop, argsSize]
        omega
      rw [rawArgs, List.flatMap_cons, RawArg.bytes_ofBytes hfirst, ih hrest, List.take_append_drop]

/-- What is written stands where it was read, behind the opcode, and is `n` bytes. -/
def Reencodes (v : LabelView) (src : Source) (i : Instruction) (n : Nat) : Prop :=
  ∃ calls, i.dump v = .ok calls ∧ StandsAt (Sink.bytesOf calls) src.get src.bytes ∧
    i.getSize = 1 + n

theorem reencodes_simple (hctx : ctx.Consistent) (hv : v.Places ctx') {noReturn : Bool}
    {ts : List ArgType} {src : Source} {i : Instruction}
    (h : parseSimple ctx noReturn ts src = .ok (ctx', i)) : Reencodes v src i (argsSize ts) := by
  obtain ⟨_, -, h⟩ := bind_eq_ok.mp h
  obtain ⟨⟨raw, src'⟩, hread, h⟩ := bind_eq_ok.mp h
  obtain ⟨_, -, h⟩ := bind_eq_ok.mp h
  obtain ⟨⟨ctx₁, args⟩, hargs, h⟩ := bind_eq_ok.mp h
  cases h
  obtain ⟨hstand, -⟩ := Source.read_spec hread
  have hdump := dumpArgs_of_parseArgs hctx hv hargs
  rw [bytes_rawArgs raw.2] at hdump
  refine ⟨[.write raw.1], ?_, ?_, ?_⟩
  · rw [Instruction.dump, hdump, ok_bind, pure_eq_ok]
  · rwa [Sink.bytesOf_cons, Sink.bytesOf_nil, List.append_nil, Sink.Call.bytes_write]
  · rw [Instruction.getSize, ← length_dumpArgs hdump, raw.2, Nat.add_comm]

theorem dump_of_parseTargets (hctx : ctx.Consistent) (hv : v.Places ctx') {src : Source}
    (hget : src.get ≤ src.size) {n : Nat} {tgts : List LabelPtr}
    (h : parseTargets ctx src n = .ok (ctx', tgts)) :
    tgts.length = n ∧ ∃ calls, dumpTargets v tgts = .ok calls ∧
      StandsAt (Sink.bytesOf calls) src.get src.bytes := by
  induction n generalizing ctx src tgts with
  | zero =>
      cases h
      have hempty : src.get + 0 ≤ src.bytes.length := by rwa [Source.length_bytes]
      exact ⟨rfl, [], rfl, StandsAt.of_slice hempty⟩
  | succ n ih =>
      obtain ⟨⟨t, src₁⟩, ht, h⟩ := bind_eq_ok.mp h
      obtain ⟨_, -, h⟩ := bind_eq_ok.mp h
      obtain ⟨⟨ctx₁, l⟩, hl, h⟩ := bind_eq_ok.mp h
      obtain ⟨⟨ctx₂, rest⟩, hrest, h⟩ := bind_eq_ok.mp h
      cases h
      obtain ⟨hstand, rfl⟩ := Source.readUint_spec ht
      have hle := hstand.le
      rw [Pod.length_toBytes, Source.length_bytes] at hle
      have hctx₁ := (relabeling_getLabelTo ctx _ _ _ hl).consistent hctx
      have hv₁ := hv.before (relabeling_parseTargets ctx₁ _ n _ _ hrest)
      obtain ⟨hlength, calls, hcalls, hrestStand⟩ := ih hctx₁ hle hrest
      have hpos := hv₁ _ _ (hctx.getLabelTo_toFilePos hl)
      refine ⟨congrArg Nat.succ hlength, .write (toBytes t) :: calls, ?_, ?_⟩
      · rw [dumpTargets, hpos, ok_bind, hcalls, ok_bind, UInt32.ofNat_toNat, pure_eq_ok]
      · rw [Sink.bytesOf_cons, Sink.Call.bytes_write]
        refine StandsAt.append_iff.mpr ⟨hstand, ?_⟩
        rw [Pod.length_toBytes]
        exact hrestStand

theorem reencodes_rndJump (hctx : ctx.Consistent) (hv : v.Places ctx') {src : Source}
    {i : Instruction} (h : parseRndJump ctx src = .ok (ctx', i)) :
    Reencodes v src i (1 + 4 * (src.valueAt UInt8 src.get).toNat) := by
  obtain ⟨_, -, h⟩ := bind_eq_ok.mp h
  obtain ⟨⟨n, src₁⟩, hn, h⟩ := bind_eq_ok.mp h
  obtain ⟨_, -, h⟩ := bind_eq_ok.mp h
  obtain ⟨⟨ctx₁, tgts⟩, htgts, h⟩ := bind_eq_ok.mp h
  cases h
  obtain ⟨hstand, rfl⟩ := Source.readUint_spec hn
  have hle := hstand.le
  rw [Pod.length_toBytes, Source.length_bytes] at hle
  obtain ⟨hlength, calls, hcalls, hrest⟩ := dump_of_parseTargets hctx hv hle htgts
  refine ⟨.write (toBytes n) :: calls, ?_, ?_, ?_⟩
  · rw [Instruction.dump, hcalls, ok_bind, hlength, UInt8.ofNat_toNat, pure_eq_ok]
  · rw [Sink.bytesOf_cons, Sink.Call.bytes_write]
    refine StandsAt.append_iff.mpr ⟨hstand, ?_⟩
    rw [Pod.length_toBytes]
    exact hrest
  · have hvalue : src.valueAt UInt8 src.get = n := Source.valueAt_of_standsAt hstand
    rw [Instruction.getSize, hlength, hvalue]
    omega

namespace InstructionJumpIfItem

theorem dump_of_parseTree {src : Source} (hget : src.get ≤ src.size) {size : UInt16} {n : Nat}
    {tree : List Node} (h : parseTree size src n = .ok tree) :
    tree.length = n ∧
      StandsAt (Sink.bytesOf (tree.map fun nd => .write (toBytes nd.params))) src.get src.bytes := by
  induction n generalizing src tree with
  | zero =>
      cases h
      have hempty : src.get + 0 ≤ src.bytes.length := by rwa [Source.length_bytes]
      exact ⟨rfl, StandsAt.of_slice hempty⟩
  | succ n ih =>
      obtain ⟨⟨nd, src₁⟩, hnd, h⟩ := bind_eq_ok.mp h
      obtain ⟨_, -, h⟩ := bind_eq_ok.mp h
      obtain ⟨rest, hrest, h⟩ := bind_eq_ok.mp h
      cases h
      obtain ⟨hstand, rfl⟩ := Source.readGen_spec hnd
      have hle := hstand.le
      rw [Pod.length_toBytes, Source.length_bytes] at hle
      obtain ⟨hlength, hrestStand⟩ := ih hle hrest
      refine ⟨congrArg Nat.succ hlength, ?_⟩
      have hparams : Node.params { operation := nd.operation, value := nd.value
                                   left := nd.left.toNat, right := nd.right.toNat } = nd := by
        rw [Node.params, UInt16.ofNat_toNat, UInt16.ofNat_toNat]
      rw [List.map_cons, hparams, Sink.bytesOf_cons, Sink.Call.bytes_write]
      refine StandsAt.append_iff.mpr ⟨hstand, ?_⟩
      rw [Pod.length_toBytes]
      exact hrestStand

theorem reencodes (hctx : ctx.Consistent) (hv : v.Places ctx') {src : Source} {i : Instruction}
    (h : parse ctx src = .ok (ctx', i)) :
    Reencodes v src i (Pod.size FixParams +
      (src.valueAt FixParams src.get).size.toNat * Pod.size NodeParams) := by
  obtain ⟨_, -, h⟩ := bind_eq_ok.mp h
  obtain ⟨⟨fp, src₁⟩, hfp, h⟩ := bind_eq_ok.mp h
  obtain ⟨_, -, h⟩ := bind_eq_ok.mp h
  obtain ⟨⟨ctx₁, tgt⟩, htgt, h⟩ := bind_eq_ok.mp h
  obtain ⟨_, -, h⟩ := bind_eq_ok.mp h
  obtain ⟨tree, htree, h⟩ := bind_eq_ok.mp h
  cases h
  obtain ⟨hstand, rfl⟩ := Source.readGen_spec hfp
  have hle := hstand.le
  rw [Pod.length_toBytes, Source.length_bytes] at hle
  obtain ⟨hlength, hnodes⟩ := dump_of_parseTree hle htree
  have hpos := hv _ _ (hctx.getLabelTo_toFilePos htgt)
  refine ⟨.write (toBytes fp) :: tree.map fun nd => .write (toBytes nd.params), ?_, ?_, ?_⟩
  · rw [Instruction.dump, hpos, ok_bind, hlength, UInt16.ofNat_toNat, UInt32.ofNat_toNat, pure_eq_ok]
  · rw [Sink.bytesOf_cons, Sink.Call.bytes_write]
    refine StandsAt.append_iff.mpr ⟨hstand, ?_⟩
    rw [Pod.length_toBytes]
    exact hnodes
  · rw [Instruction.getSize, hlength, Source.valueAt_of_standsAt hstand, Nat.add_assoc]

end InstructionJumpIfItem

/-- How many bytes a class reads, from behind the opcode on. -/
def InstructionType.consumed (src : Source) : InstructionType → Nat
  | .simple _ ts => argsSize ts
  | .rndJump => 1 + 4 * (src.valueAt UInt8 src.get).toNat
  | .unimplemented => 0
  | .jumpIf =>
      Pod.size InstructionJumpIfItem.FixParams +
        (src.valueAt InstructionJumpIfItem.FixParams src.get).size.toNat *
          Pod.size InstructionJumpIfItem.NodeParams
  | .jumpSwitchNoire =>
      Pod.size InstructionJumpSwitchItem.FixParams +
        (src.valueAt InstructionJumpSwitchItem.FixParams src.get).count.toNat *
          Pod.size InstructionJumpSwitchItem.ExpressionParams
  | .jumpSwitchPotbb =>
      Pod.size InstructionJumpSwitchItem.FixParams +
        (src.valueAt InstructionJumpSwitchItem.FixParams src.get).count.toNat *
          Pod.size InstructionJumpSwitchItem.ExpressionParams + 1

def InstructionType.isSwitch : InstructionType → Bool
  | .jumpSwitchNoire | .jumpSwitchPotbb => true
  | .simple _ _ | .rndJump | .unimplemented | .jumpIf => false

def Instruction.isSwitch : Instruction → Bool
  | jumpSwitchNoire _ | jumpSwitchPotbb _ _ => true
  | simple _ _ | rndJump _ | jumpIf _ _ => false

theorem reencodes_parseInstruction (hctx : ctx.Consistent) (hv : v.Places ctx') {src : Source}
    {t : InstructionType} (ht : t.isSwitch = false) {i : Instruction}
    (h : parseInstruction ctx src t = .ok (ctx', i)) : Reencodes v src i (t.consumed src) := by
  cases t with
  | simple noReturn ts => exact reencodes_simple hctx hv h
  | rndJump => exact reencodes_rndJump hctx hv h
  | unimplemented => cases h
  | jumpIf => exact InstructionJumpIfItem.reencodes hctx hv h
  | jumpSwitchNoire | jumpSwitchPotbb => cases ht

namespace InstructionItem

theorem dump_of_reencodes {src src' : Source} {opcode : UInt8} {i : Instruction} {n : Nat}
    (hopcode : src.readUint8 .little = .ok (opcode, src')) (h : Reencodes v src' i n) :
    ∃ calls, ({ opcode, instruction := i } : InstructionItem).dump v = .ok calls ∧
      StandsAt (Sink.bytesOf calls) src.get src.bytes := by
  obtain ⟨hstand, rfl⟩ := Source.readUint_spec hopcode
  obtain ⟨calls, hcalls, hrest, -⟩ := h
  refine ⟨.write (toBytes opcode) :: calls, ?_, ?_⟩
  · rw [InstructionItem.dump, hcalls, ok_bind, pure_eq_ok]
  · rw [Sink.bytesOf_cons, Sink.Call.bytes_write]
    refine StandsAt.append_iff.mpr ⟨hstand, ?_⟩
    rw [Pod.length_toBytes]
    exact hrest

/-- An instruction that is not a switch is written with the opcode and the bytes that
were read, and nothing else. -/
theorem dump_of_parseInstruction (hctx : ctx.Consistent) {src src' : Source} {opcode : UInt8}
    (hopcode : src.readUint8 .little = .ok (opcode, src')) {t : InstructionType}
    (ht : t.isSwitch = false) {i : Instruction}
    (hparse : parseInstruction ctx src' t = .ok (ctx', i)) (hv : v.Places ctx') :
    i.getSize = 1 + t.consumed src' ∧ src.get + i.getSize ≤ src.size ∧
      ∃ calls, ({ opcode, instruction := i } : InstructionItem).dump v = .ok calls ∧
        Sink.bytesOf calls = Lib.slice src.bytes src.get i.getSize := by
  have hreencodes := reencodes_parseInstruction hctx hv ht hparse
  obtain ⟨calls, hcalls, hstand⟩ := dump_of_reencodes hopcode hreencodes
  have hlength := InstructionItem.writes v { opcode, instruction := i } calls hcalls
  have hle := hstand.le
  have hslice := hstand.slice_eq
  rw [hlength] at hle hslice
  rw [Source.length_bytes] at hle
  exact ⟨hreencodes.choose_spec.2.2, hle, calls, hcalls, hslice.symm⟩

/-- An instruction with a number, a pointer to itself and a zero pointer, and something
behind it. -/
def lone : Source := .fromMemory [0x0b, 7, 0, 0, 0, 0, 9, 0, 0, 0, 1, 2]

theorem lone_dump_of_parseInstruction :
    ∃ ctx' i, parseInstruction (.root lone) (lone.at_ 1) (.simple false [.uint8, .data, .code]) =
        .ok (ctx', i) ∧ i.getSize = 10 ∧
      ∃ calls, InstructionItem.dump ctx'.view { opcode := 0x0b, instruction := i } = .ok calls ∧
        Sink.bytesOf calls = Lib.slice lone.bytes 0 10 := by
  have hparse : (parseInstruction (.root lone) (lone.at_ 1)
      (.simple false [.uint8, .data, .code])).toOption.map (fun y => y.2.getSize) = some 10 := by
    decide +kernel
  obtain ⟨⟨ctx', i⟩, hparse, hsize⟩ := exists_ok_of_toOption hparse
  have hopcode : lone.readUint8 .little = .ok (0x0b, lone.at_ 1) := rfl
  have hv : ctx'.view.Places ctx' := fun _ _ hpos => hpos
  obtain ⟨-, -, calls, hcalls, hbytes⟩ :=
    dump_of_parseInstruction (.root lone) hopcode rfl hparse hv
  have hsize : i.getSize = 10 := hsize
  rw [hsize] at hbytes
  exact ⟨ctx', i, hparse, hsize, calls, hcalls, hbytes⟩

end InstructionItem

end Stsc

end Neptools

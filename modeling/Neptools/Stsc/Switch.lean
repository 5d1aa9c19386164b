import Mathlib.Data.Nat.Bitwise
import Neptools.Format.Pointers
import Neptools.Stsc.Reencode

/-!
A switch has its number of cases and the flag for its last one in one word. What checks
the number does not take the flag off, and what takes it off leaves eleven bits of fifteen.
So not all switches are read as they were written, nor written as they were read.
-/

namespace Neptools

open Lib

namespace Stsc

open Context

namespace InstructionJumpSwitchItem

/-! The size word. -/

namespace FixParams

theorem lastIsDefault_iff (p : FixParams) : p.lastIsDefault = true ↔ 0x8000 ≤ p.size.toNat := by
  have hlt := p.size.toNat_lt
  have hbit : (p.size &&& 0x8000).toNat = (p.size.toNat.testBit 15).toNat * 2 ^ 15 := by
    rw [UInt16.toNat_and]
    exact Nat.and_two_pow p.size.toNat 15
  rw [lastIsDefault, decide_eq_true_iff, ne_eq, ← UInt16.toNat_inj, hbit,
    Nat.testBit_eq_decide_div_mod_eq]
  by_cases hset : p.size.toNat / 2 ^ 15 % 2 = 1
  · rw [decide_eq_true hset]
    exact iff_of_true (by decide) (by omega)
  · rw [decide_eq_false hset]
    exact iff_of_false (by decide) (by omega)

theorem toNat_count (p : FixParams) :
    p.count.toNat = if p.lastIsDefault then p.size.toNat % 0x800 else p.size.toNat := by
  rw [count]
  split
  · rw [UInt16.toNat_and]
    exact Nat.and_two_pow_sub_one_eq_mod p.size.toNat 11
  · rfl

/-- No bit of the number is lost. -/
def Fits (p : FixParams) : Prop := p.lastIsDefault = true → p.size.toNat % 0x8000 < 0x800

instance (p : FixParams) : Decidable p.Fits := inferInstanceAs (Decidable (_ → _))

end FixParams

theorem toNat_size {switch : InstructionJumpSwitchItem} (h : switch.expressions.length < 0x8000) :
    switch.fixParams.size.toNat =
      (if switch.lastIsDefault then 0x8000 else 0) + switch.expressions.length := by
  rw [fixParams, UInt16.toNat_ofNat']
  cases switch.lastIsDefault with
  | false =>
      rw [if_neg Bool.false_ne_true, if_neg Bool.false_ne_true, Nat.zero_or, Nat.zero_add]
      exact Nat.mod_eq_of_lt (by omega)
  | true =>
      rw [if_pos rfl, if_pos rfl, ← Nat.shiftLeft_add_eq_or_of_lt (i := 15) h]
      exact Nat.mod_eq_of_lt (by omega)

theorem lastIsDefault_fixParams {switch : InstructionJumpSwitchItem}
    (h : switch.expressions.length < 0x8000) :
    switch.fixParams.lastIsDefault = switch.lastIsDefault := by
  rw [Bool.eq_iff_iff, FixParams.lastIsDefault_iff, toNat_size h]
  cases switch.lastIsDefault with
  | false => exact iff_of_false (by rw [if_neg Bool.false_ne_true]; omega) Bool.false_ne_true
  | true => exact iff_of_true (by rw [if_pos rfl]; omega) rfl

theorem count_fixParams {switch : InstructionJumpSwitchItem}
    (h : switch.expressions.length < 0x8000)
    (hdefault : switch.lastIsDefault = true → switch.expressions.length < 0x800) :
    switch.fixParams.count.toNat = switch.expressions.length := by
  rw [FixParams.toNat_count, lastIsDefault_fixParams h, toNat_size h]
  cases hd : switch.lastIsDefault with
  | false => rw [if_neg Bool.false_ne_true, if_neg Bool.false_ne_true, Nat.zero_add]
  | true =>
      have := hdefault hd
      rw [if_pos rfl, if_pos rfl]
      omega

/-- The word that is written is the one that was read, if no bit was lost. -/
theorem size_fixParams_iff {p : FixParams} {switch : InstructionJumpSwitchItem}
    (hdefault : switch.lastIsDefault = p.lastIsDefault)
    (hlength : switch.expressions.length = p.count.toNat) :
    switch.fixParams.size = p.size ↔ p.Fits := by
  have hlt := p.size.toNat_lt
  have hcount := p.toNat_count
  have hflag := p.lastIsDefault_iff
  rw [FixParams.Fits, ← UInt16.toNat_inj]
  cases hp : p.lastIsDefault with
  | false =>
      rw [hp, if_neg Bool.false_ne_true] at hcount
      have hsmall : p.size.toNat < 0x8000 := Nat.lt_of_not_le fun hle =>
        Bool.false_ne_true (hp.symm.trans (hflag.mpr hle))
      rw [toNat_size (by omega), hdefault, hp, if_neg Bool.false_ne_true, Nat.zero_add, hlength]
      exact iff_of_true hcount fun h => nomatch h
  | true =>
      rw [hp, if_pos rfl] at hcount
      have hlarge := hflag.mp hp
      rw [toNat_size (by omega), hdefault, hp, if_pos rfl, hlength, hcount]
      constructor
      · omega
      · intro h
        have := h rfl
        omega

/-! The cases. -/

variable {ctx ctx' : Context} {v v' : LabelView}

theorem dump_of_parseExpressions (hctx : ctx.Consistent) (hv : v.Places ctx') {src src' : Source}
    (hget : src.get ≤ src.size) {n : Nat} {exps : List Expression}
    (h : parseExpressions ctx src n = .ok (ctx', src', exps)) :
    exps.length = n ∧ src' = src.at_ (src.get + n * Pod.size ExpressionParams) ∧
      (∀ e ∈ exps, ∃ tgt : UInt32, v.toFilePos e.target = .ok tgt.toNat) ∧
      ∃ calls, dumpExpressions v exps = .ok calls ∧
        StandsAt (Sink.bytesOf calls) src.get src.bytes := by
  induction n generalizing ctx src exps with
  | zero =>
      cases h
      have hempty : src'.get + 0 ≤ src'.bytes.length := by rwa [Source.length_bytes]
      refine ⟨rfl, ?_, fun e he => (nomatch he), [], rfl, StandsAt.of_slice hempty⟩
      rw [Nat.zero_mul, Nat.add_zero]
      rfl
  | succ n ih =>
      obtain ⟨⟨exp, src₁⟩, hexp, h⟩ := bind_eq_ok.mp h
      obtain ⟨_, -, h⟩ := bind_eq_ok.mp h
      obtain ⟨⟨ctx₁, target⟩, htarget, h⟩ := bind_eq_ok.mp h
      obtain ⟨⟨ctx₂, src₂, rest⟩, hrest, h⟩ := bind_eq_ok.mp h
      cases h
      obtain ⟨hstand, rfl⟩ := Source.readGen_spec hexp
      have hle := hstand.le
      rw [Pod.length_toBytes, Source.length_bytes] at hle
      have hctx₁ := (relabeling_getLabelTo ctx _ _ _ htarget).consistent hctx
      have hv₁ := hv.before (relabeling_parseExpressions ctx₁ _ n _ _ hrest)
      obtain ⟨hlength, hsrc, htgts, calls, hcalls, hrestStand⟩ := ih hctx₁ hle hrest
      have hpos := hv₁ _ _ (hctx.getLabelTo_toFilePos htarget)
      refine ⟨congrArg Nat.succ hlength, ?_, ?_, .write (toBytes exp) :: calls, ?_, ?_⟩
      · rw [hsrc, Nat.succ_mul, Nat.add_comm (n * _), ← Nat.add_assoc]
        rfl
      · exact List.forall_mem_cons.mpr ⟨⟨exp.tgt, hpos⟩, htgts⟩
      · rw [dumpExpressions, hpos, ok_bind, hcalls, ok_bind, UInt32.ofNat_toNat, pure_eq_ok]
      · rw [Sink.bytesOf_cons, Sink.Call.bytes_write]
        refine StandsAt.append_iff.mpr ⟨hstand, ?_⟩
        rw [Pod.length_toBytes]
        exact hrestStand

/-- The same case, with labels at the same position. -/
def Expression.Same (v v' : LabelView) (e e' : Expression) : Prop :=
  e.expression = e'.expression ∧
    ∃ pos, v.toFilePos e.target = .ok pos ∧ v'.toFilePos e'.target = .ok pos

/-- The same switch, up to the names of the labels. -/
structure Same (v v' : LabelView) (switch switch' : InstructionJumpSwitchItem) : Prop where
  expectedVal : switch.expectedVal = switch'.expectedVal
  lastIsDefault : switch.lastIsDefault = switch'.lastIsDefault
  expressions : switch.expressions.Forall₂ (Expression.Same v v') switch'.expressions

/-- The cases lead to places in a file of the given size. -/
def Inside (v : LabelView) (size : Nat) (exps : List Expression) : Prop :=
  ∀ e ∈ exps, ∃ pos < size, v.toFilePos e.target = .ok pos

/-- The targets fit in what is written. -/
def Narrow (v : LabelView) (exps : List Expression) : Prop :=
  ∀ e ∈ exps, ∀ pos, v.toFilePos e.target = .ok pos → pos < 2 ^ 32

theorem Narrow.of_same {exps exps' : List Expression}
    (h : exps.Forall₂ (Expression.Same v v') exps') (hnarrow : Narrow v' exps') : Narrow v exps := by
  induction h with
  | nil => exact fun e he => nomatch he
  | cons hsame _ ih =>
      obtain ⟨hfirst, hrest⟩ := List.forall_mem_cons.mp hnarrow
      obtain ⟨-, pos, hpos, hpos'⟩ := hsame
      refine List.forall_mem_cons.mpr ⟨fun p hp => ?_, ih hrest⟩
      cases hp.symm.trans hpos
      exact hfirst pos hpos'

theorem parseExpressions_of_standsAt (hctx : ctx.Consistent) (hpointed : ctx.Pointed) {src : Source}
    {pos : Nat} {exps : List Expression} {calls : List Sink.Call}
    (hinside : Inside v ctx.getSize exps) (hnarrow : Narrow v exps)
    (hcalls : dumpExpressions v exps = .ok calls)
    (hstand : StandsAt (Sink.bytesOf calls) pos src.bytes) :
    ∃ ctx' exps', parseExpressions ctx (src.at_ pos) exps.length =
        .ok (ctx', src.at_ (pos + exps.length * Pod.size ExpressionParams), exps') ∧
      exps.Forall₂ (Expression.Same v ctx'.view) exps' := by
  induction exps generalizing ctx pos calls with
  | nil =>
      refine ⟨ctx, [], ?_, .nil⟩
      rw [List.length_nil, Nat.zero_mul, Nat.add_zero]
      rfl
  | cons e es ih =>
      obtain ⟨tgt, htgt, hcalls⟩ := bind_eq_ok.mp hcalls
      obtain ⟨rest, hrest, hcalls⟩ := bind_eq_ok.mp hcalls
      cases hcalls
      obtain ⟨⟨tgt', hlt, htgt'⟩, hinside⟩ := List.forall_mem_cons.mp hinside
      obtain rfl : tgt = tgt' := Except.ok.inj (htgt.symm.trans htgt')
      obtain ⟨hsmall, hnarrow⟩ := List.forall_mem_cons.mp hnarrow
      have htgtNat : (UInt32.ofNat tgt).toNat = tgt := by
        rw [UInt32.toNat_ofNat']
        exact Nat.mod_eq_of_lt (hsmall tgt htgt)
      rw [Sink.bytesOf_cons, Sink.Call.bytes_write] at hstand
      have hfirst := hstand.left
      have hbehind := hstand.right
      rw [Pod.length_toBytes] at hbehind
      obtain ⟨ctx₁, l, hl⟩ := hpointed.getLabelTo hctx tgt
      have hrelabels := relabeling_getLabelTo ctx _ _ _ hl
      have hctx₁ := hrelabels.consistent hctx
      obtain ⟨ctx', exps', hparse, hsame⟩ := ih hctx₁ (hrelabels.pointed hpointed)
        (hrelabels.getSize.symm ▸ hinside) hnarrow hrest hbehind
      have hview := (relabeling_parseExpressions ctx₁ _ _ _ _ hparse).extends False
      refine ⟨ctx', { expression := e.expression, target := l } :: exps', ?_, .cons ⟨rfl, tgt, htgt,
        hview.toFilePos _ _ (hctx.getLabelTo_toFilePos hl)⟩ hsame⟩
      rw [List.length_cons, parseExpressions, Source.readGen_of_standsAt hfirst, ok_bind]
      dsimp only
      rw [ExpressionParams.validate, validateField_of (by rwa [htgtNat]), ok_bind, htgtNat, hl,
        ok_bind]
      dsimp only
      rw [hparse, ok_bind, Nat.succ_mul, Nat.add_comm (es.length * _), ← Nat.add_assoc]
      rfl

/-! The switch, up to its trailing byte. -/

/-- What `Parse_` makes of the bytes of a switch. -/
structure Read (v : LabelView) (src src' : Source) (switch : InstructionJumpSwitchItem)
    (fp : FixParams) : Prop where
  params : StandsAt (toBytes fp) src.get src.bytes
  expectedVal : switch.expectedVal = fp.expectedVal
  lastIsDefault : switch.lastIsDefault = fp.lastIsDefault
  length : switch.expressions.length = fp.count.toNat
  room : fp.size.toNat * Pod.size ExpressionParams ≤ src.size - (src.get + Pod.size FixParams)
  rest : src' = src.at_ (src.get + Pod.size FixParams +
    switch.expressions.length * Pod.size ExpressionParams)
  targets : ∀ e ∈ switch.expressions, ∃ tgt : UInt32, v.toFilePos e.target = .ok tgt.toNat
  dump : ∃ calls, dumpExpressions v switch.expressions = .ok calls ∧
    StandsAt (Sink.bytesOf calls) (src.get + Pod.size FixParams) src.bytes

theorem read_of_parse (hctx : ctx.Consistent) (hv : v.Places ctx') {src src' : Source}
    {switch : InstructionJumpSwitchItem} (h : parse ctx src = .ok (ctx', src', switch)) :
    ∃ fp, Read v src src' switch fp := by
  obtain ⟨_, -, h⟩ := bind_eq_ok.mp h
  obtain ⟨⟨fp, src₁⟩, hfp, h⟩ := bind_eq_ok.mp h
  obtain ⟨_, hroom, h⟩ := bind_eq_ok.mp h
  obtain ⟨⟨ctx₁, src₂, exps⟩, hexps, h⟩ := bind_eq_ok.mp h
  cases h
  obtain ⟨hstand, rfl⟩ := Source.readGen_spec hfp
  have hle := hstand.le
  rw [Pod.length_toBytes, Source.length_bytes] at hle
  obtain ⟨hlength, hsrc, htgts, hdump⟩ := dump_of_parseExpressions hctx hv hle hexps
  exact ⟨fp, hstand, rfl, rfl, hlength, require_eq_ok.mp hroom, hlength ▸ hsrc, htgts, hdump⟩

theorem Read.narrow {src src' : Source} {switch : InstructionJumpSwitchItem} {fp : FixParams}
    (h : Read v src src' switch fp) : Narrow v switch.expressions := by
  intro e he pos hpos
  obtain ⟨tgt, htgt⟩ := h.targets e he
  cases hpos.symm.trans htgt
  exact tgt.toNat_lt

/-- What has to follow the cases, and how many there may be, for a switch that has a
default. -/
def Room (switch : InstructionJumpSwitchItem) (behind : Nat) : Prop :=
  switch.lastIsDefault = true → switch.expressions.length < 0x800 ∧ 0x40000 ≤ behind

theorem size_expressionParams : Pod.size ExpressionParams = 8 := rfl

theorem parse_of_standsAt (hctx : ctx.Consistent) (hpointed : ctx.Pointed) {src : Source}
    {pos : Nat} {switch : InstructionJumpSwitchItem} {calls : List Sink.Call}
    (hlength : switch.expressions.length < 0x8000)
    (hinside : Inside v ctx.getSize switch.expressions) (hnarrow : Narrow v switch.expressions)
    (hcalls : dumpExpressions v switch.expressions = .ok calls)
    (hstand : StandsAt (toBytes switch.fixParams ++ Sink.bytesOf calls) pos src.bytes)
    (hroom : switch.Room (src.size - (pos + Pod.size FixParams +
      switch.expressions.length * Pod.size ExpressionParams))) :
    ∃ ctx' switch', parse ctx (src.at_ pos) = .ok (ctx', src.at_ (pos + Pod.size FixParams +
        switch.expressions.length * Pod.size ExpressionParams), switch') ∧
      Same v ctx'.view switch switch' := by
  have hparams := hstand.left
  have hexps := hstand.right
  rw [Pod.length_toBytes] at hexps
  have hle := hexps.le
  rw [writes_expressions v _ _ hcalls, Source.length_bytes] at hle
  obtain ⟨ctx', exps', hparse, hsame⟩ :=
    parseExpressions_of_standsAt hctx hpointed hinside hnarrow hcalls hexps
  have hdefault := lastIsDefault_fixParams hlength
  have hsize := toNat_size hlength
  have hcount := count_fixParams hlength fun hd => (hroom hd).1
  have hfits : switch.fixParams.size.toNat * Pod.size ExpressionParams ≤
      src.size - (pos + Pod.size FixParams) := by
    rw [hsize]
    rw [size_expressionParams] at hle hroom ⊢
    cases hd : switch.lastIsDefault with
    | false =>
        rw [if_neg Bool.false_ne_true]
        omega
    | true =>
        have := (hroom hd).2
        rw [if_pos rfl]
        omega
  have hcheck : (src.at_ pos).checkRemainingSize (Pod.size FixParams) = .ok () :=
    Source.checkRemainingSize_of_le (show pos + Pod.size FixParams ≤ src.size by omega)
  refine ⟨ctx', { expectedVal := switch.expectedVal, lastIsDefault := switch.fixParams.lastIsDefault
                  expressions := exps' }, ?_, ⟨rfl, hdefault.symm, hsame⟩⟩
  rw [parse, hcheck, ok_bind, Source.readGen_of_standsAt hparams, ok_bind]
  dsimp only
  rw [FixParams.validate]
  change validateField _ _ (_ ≤ src.size - (pos + Pod.size FixParams)) >>= _ = _
  rw [validateField_of hfits, ok_bind, hcount, hparse, ok_bind]
  rfl

end InstructionJumpSwitchItem

open InstructionJumpSwitchItem

/-! Both kinds: the second one has a trailing byte. -/

def switchType : Option UInt8 → InstructionType
  | none => .jumpSwitchNoire
  | some _ => .jumpSwitchPotbb

theorem isSwitch_switchType (trailing : Option UInt8) : (switchType trailing).isSwitch = true := by
  cases trailing with
  | none => rfl
  | some trailingByte => rfl

def switchInstruction (switch : InstructionJumpSwitchItem) : Option UInt8 → Instruction
  | none => .jumpSwitchNoire switch
  | some trailingByte => .jumpSwitchPotbb switch trailingByte

def trailingBytes : Option UInt8 → Bytes
  | none => []
  | some trailingByte => toBytes trailingByte

theorem getSize_switchInstruction (switch : InstructionJumpSwitchItem) (trailing : Option UInt8) :
    (switchInstruction switch trailing).getSize =
      Instruction.switchSize switch + (trailingBytes trailing).length := by
  cases trailing with
  | none => rfl
  | some trailingByte => exact Nat.add_comm _ _

variable {ctx ctx' : Context} {v : LabelView} {src : Source} {opcode : UInt8}
  {switch : InstructionJumpSwitchItem} {trailing : Option UInt8}

theorem dump_switchInstruction {calls : List Sink.Call}
    (h : dumpExpressions v switch.expressions = .ok calls) (opcode : UInt8)
    (trailing : Option UInt8) :
    ∃ cs, InstructionItem.dump v { opcode, instruction := switchInstruction switch trailing } =
        .ok cs ∧
      Sink.bytesOf cs = toBytes opcode ++
        (toBytes switch.fixParams ++ Sink.bytesOf calls ++ trailingBytes trailing) := by
  have hswitch : Instruction.dumpSwitch v switch =
      .ok (.write (toBytes switch.fixParams) :: calls) := by
    rw [Instruction.dumpSwitch, h, ok_bind, pure_eq_ok]
  cases trailing with
  | none =>
      refine ⟨.write (toBytes opcode) :: .write (toBytes switch.fixParams) :: calls, ?_, ?_⟩
      · rw [InstructionItem.dump, switchInstruction, Instruction.dump, hswitch, ok_bind, pure_eq_ok]
      · rw [Sink.bytesOf_cons, Sink.bytesOf_cons, Sink.Call.bytes_write, Sink.Call.bytes_write,
          trailingBytes, List.append_nil]
  | some trailingByte =>
      refine ⟨.write (toBytes opcode) :: (.write (toBytes switch.fixParams) :: calls ++
        [.write (toBytes trailingByte)]), ?_, ?_⟩
      · rw [InstructionItem.dump, switchInstruction, Instruction.dump, hswitch, ok_bind, pure_eq_ok,
          ok_bind, pure_eq_ok]
      · rw [Sink.bytesOf_cons, Sink.bytesOf_append, Sink.bytesOf_cons, Sink.bytesOf_cons,
          Sink.bytesOf_nil, Sink.Call.bytes_write, Sink.Call.bytes_write, Sink.Call.bytes_write,
          trailingBytes, List.append_nil]

theorem exists_dumpExpressions {calls : List Sink.Call}
    (h : InstructionItem.dump v { opcode, instruction := switchInstruction switch trailing } =
      .ok calls) : ∃ cs, dumpExpressions v switch.expressions = .ok cs := by
  obtain ⟨cs, h, -⟩ := bind_eq_ok.mp h
  cases trailing with
  | none =>
      obtain ⟨cs, h, -⟩ := bind_eq_ok.mp h
      exact ⟨cs, h⟩
  | some trailingByte =>
      obtain ⟨cs, h, -⟩ := bind_eq_ok.mp h
      obtain ⟨cs, h, -⟩ := bind_eq_ok.mp h
      exact ⟨cs, h⟩

/-- A switch is read as what both kinds have, and then the trailing byte. -/
theorem parse_switchType {t : InstructionType} (ht : t.isSwitch = true) {i : Instruction}
    (h : parseInstruction ctx src t = .ok (ctx', i)) :
    ∃ switch trailing src', t = switchType trailing ∧ i = switchInstruction switch trailing ∧
      InstructionJumpSwitchItem.parse ctx src = .ok (ctx', src', switch) ∧
      (src'.get ≤ src'.size → StandsAt (trailingBytes trailing) src'.get src'.bytes) := by
  cases t with
  | jumpSwitchNoire =>
      obtain ⟨⟨ctx₁, src', switch⟩, hparse, h⟩ := bind_eq_ok.mp h
      cases h
      refine ⟨switch, none, src', rfl, rfl, hparse, fun hle => ?_⟩
      have hempty : src'.get + 0 ≤ src'.bytes.length := by rwa [Source.length_bytes]
      exact StandsAt.of_slice hempty
  | jumpSwitchPotbb =>
      obtain ⟨⟨ctx₁, src', switch⟩, hparse, h⟩ := bind_eq_ok.mp h
      obtain ⟨_, -, h⟩ := bind_eq_ok.mp h
      obtain ⟨⟨trailingByte, src₁⟩, hbyte, h⟩ := bind_eq_ok.mp h
      cases h
      obtain ⟨hstand, -⟩ := Source.readUint_spec hbyte
      exact ⟨switch, some trailingByte, src', rfl, rfl, hparse, fun _ => hstand⟩
  | simple _ _ | rndJump | unimplemented | jumpIf => cases ht

/-- Where the parts of a switch were read. -/
theorem standsAt_of_parse (hctx : ctx.Consistent) {src' src'' : Source}
    (hopcode : src.readUint8 .little = .ok (opcode, src'))
    (hparse : InstructionJumpSwitchItem.parse ctx src' = .ok (ctx', src'', switch))
    (htrailing : src''.get ≤ src''.size → StandsAt (trailingBytes trailing) src''.get src''.bytes)
    (hv : v.Places ctx') :
    ∃ fp calls, Read v src' src'' switch fp ∧ dumpExpressions v switch.expressions = .ok calls ∧
      StandsAt (toBytes opcode ++
        (toBytes fp ++ Sink.bytesOf calls ++ trailingBytes trailing)) src.get src.bytes := by
  obtain ⟨hstand, rfl⟩ := Source.readUint_spec hopcode
  obtain ⟨fp, hread⟩ := read_of_parse hctx hv hparse
  obtain ⟨calls, hcalls, hexps⟩ := hread.dump
  have hlength := writes_expressions v _ _ hcalls
  have hle := hexps.le
  rw [hlength, Source.length_bytes] at hle
  have hrest := hread.rest
  subst hrest
  refine ⟨fp, calls, hread, hcalls, StandsAt.append_iff.mpr ⟨hstand, ?_⟩⟩
  rw [Pod.length_toBytes, List.append_assoc]
  refine StandsAt.append_iff.mpr ⟨hread.params, ?_⟩
  rw [Pod.length_toBytes]
  refine StandsAt.append_iff.mpr ⟨hexps, ?_⟩
  rw [hlength]
  exact htrailing hle

theorem consumed_switchType {fp : FixParams} (h : StandsAt (toBytes fp) src.get src.bytes)
    (trailing : Option UInt8) :
    (switchType trailing).consumed src = Pod.size FixParams +
      fp.count.toNat * Pod.size ExpressionParams + (trailingBytes trailing).length := by
  have hvalue : src.valueAt FixParams src.get = fp := Source.valueAt_of_standsAt h
  cases trailing with
  | none => rw [switchType, InstructionType.consumed, hvalue, trailingBytes, List.length_nil, Nat.add_zero]
  | some trailingByte =>
      rw [switchType, InstructionType.consumed, hvalue, trailingBytes, Pod.length_toBytes]
      rfl

theorem fixParams_eq_iff {fp : FixParams} (hexpected : switch.expectedVal = fp.expectedVal)
    (hdefault : switch.lastIsDefault = fp.lastIsDefault)
    (hlength : switch.expressions.length = fp.count.toNat) :
    switch.fixParams = fp ↔ fp.Fits := by
  rw [← size_fixParams_iff hdefault hlength]
  constructor
  · exact congrArg FixParams.size
  · intro hsize
    cases fp
    exact congrArg₂ FixParams.mk hexpected hsize

/-- What is written are the `n` bytes at the read position. -/
def WritesBack (v : LabelView) (src : Source) (i : InstructionItem) (n : Nat) : Prop :=
  ∃ calls, i.dump v = .ok calls ∧ Sink.bytesOf calls = Lib.slice src.bytes src.get n

/-- A switch that was read is written with the bytes it was read from, if the word with
the number of its cases does not have more in it than the number and the flag. -/
theorem writesBack_iff (hctx : ctx.Consistent) {src' : Source}
    (hopcode : src.readUint8 .little = .ok (opcode, src')) {t : InstructionType}
    (ht : t.isSwitch = true) {i : Instruction}
    (hparse : parseInstruction ctx src' t = .ok (ctx', i)) (hv : v.Places ctx') :
    i.getSize = 1 + t.consumed src' ∧
      (WritesBack v src { opcode, instruction := i } (1 + t.consumed src') ↔
        (src'.valueAt FixParams src'.get).Fits) := by
  obtain ⟨switch, trailing, src'', rfl, rfl, hparse, htrailing⟩ := parse_switchType ht hparse
  obtain ⟨fp, calls, hread, hcalls, hstand⟩ := standsAt_of_parse hctx hopcode hparse htrailing hv
  obtain ⟨cs, hcs, hbytes⟩ := dump_switchInstruction hcalls opcode trailing
  have hlength := writes_expressions v _ _ hcalls
  have hconsumed := consumed_switchType hread.params trailing
  have hsize : (switchInstruction switch trailing).getSize =
      1 + (switchType trailing).consumed src' := by
    rw [getSize_switchInstruction, Instruction.switchSize, hread.length, hconsumed]
    omega
  have hslice := hstand.slice_eq
  rw [List.length_append, List.length_append, List.length_append, Pod.length_toBytes,
    Pod.length_toBytes, hlength, hread.length, ← hconsumed] at hslice
  refine ⟨hsize, ?_⟩
  rw [Source.valueAt_of_standsAt hread.params,
    ← fixParams_eq_iff hread.expectedVal hread.lastIsDefault hread.length]
  constructor
  · rintro ⟨cs', hcs', heq⟩
    obtain rfl : cs = cs' := Except.ok.inj (hcs.symm.trans hcs')
    rw [hbytes] at heq
    have heq := List.append_cancel_left (heq.trans hslice)
    have hprefix := List.append_inj_left heq (by
      rw [List.length_append, List.length_append, Pod.length_toBytes, Pod.length_toBytes])
    have himage := List.append_inj_left hprefix (by rw [Pod.length_toBytes, Pod.length_toBytes])
    rw [← Pod.ofBytes_toBytes switch.fixParams, himage, Pod.ofBytes_toBytes]
  · intro heq
    rw [heq] at hbytes
    exact ⟨cs, hcs, hbytes.trans hslice.symm⟩

/-- What is parsed at the read position is the same switch, and as long. -/
def ReadsBack (ctx : Context) (v : LabelView) (src : Source) (switch : InstructionJumpSwitchItem)
    (trailing : Option UInt8) : Prop :=
  ∃ ctx' switch', parseInstruction ctx (src.at_ (src.get + 1)) (switchType trailing) =
      .ok (ctx', switchInstruction switch' trailing) ∧
    switch.Same v ctx'.view switch' ∧
    1 + (switchType trailing).consumed (src.at_ (src.get + 1)) =
      (switchInstruction switch trailing).getSize

theorem parse_of_readsBack {switch' : InstructionJumpSwitchItem}
    (h : parseInstruction ctx src (switchType trailing) =
      .ok (ctx', switchInstruction switch' trailing)) :
    ∃ src', InstructionJumpSwitchItem.parse ctx src = .ok (ctx', src', switch') := by
  obtain ⟨switch, trailing', src', -, heq, hparse, -⟩ := parse_switchType (isSwitch_switchType _) h
  refine ⟨src', ?_⟩
  cases trailing with
  | none =>
      cases trailing' with
      | none =>
          cases heq
          exact hparse
      | some _ => cases heq
  | some _ =>
      cases trailing' with
      | none => cases heq
      | some _ =>
          cases heq
          exact hparse

/-- A switch that was written is read back, if its targets fit in four bytes and, in
case it has a default, its cases in eleven bits, with enough of something behind them. -/
theorem readsBack_iff (hctx : ctx.Consistent) (hpointed : ctx.Pointed)
    {calls : List Sink.Call} (hlength : switch.expressions.length < 0x8000)
    (hinside : Inside v ctx.getSize switch.expressions)
    (hdump : InstructionItem.dump v { opcode, instruction := switchInstruction switch trailing } =
      .ok calls) (hstand : StandsAt (Sink.bytesOf calls) src.get src.bytes) :
    ReadsBack ctx v src switch trailing ↔
      Narrow v switch.expressions ∧
        switch.Room (src.size - (src.get + Instruction.switchSize switch)) := by
  obtain ⟨cs, hcs⟩ := exists_dumpExpressions hdump
  obtain ⟨calls', hdump', hbytes⟩ := dump_switchInstruction hcs opcode trailing
  obtain rfl : calls = calls' := Except.ok.inj (hdump.symm.trans hdump')
  rw [hbytes] at hstand
  have hrest := hstand.right
  rw [Pod.length_toBytes] at hrest
  have hone : src.get + Pod.size UInt8 = src.get + 1 := rfl
  rw [hone] at hrest
  have hparams := hrest.left.left
  constructor
  · rintro ⟨ctx', switch', hparse, hsame, -⟩
    obtain ⟨src', hparse⟩ := parse_of_readsBack hparse
    obtain ⟨fp, hread⟩ := read_of_parse hctx (v := ctx'.view) (fun _ _ hpos => hpos) hparse
    obtain rfl : switch.fixParams = fp :=
      (Source.valueAt_of_standsAt hparams).symm.trans (Source.valueAt_of_standsAt hread.params)
    refine ⟨.of_same hsame.expressions hread.narrow, fun hdefault => ?_⟩
    have hsize := toNat_size hlength
    have hcount := hread.length
    have hroom := hread.room
    rw [← hsame.expressions.length_eq, FixParams.toNat_count, lastIsDefault_fixParams hlength,
      hdefault, if_pos rfl, hsize, hdefault, if_pos rfl] at hcount
    rw [hsize, hdefault, if_pos rfl, size_expressionParams] at hroom
    change _ ≤ src.size - (src.get + 1 + Pod.size FixParams) at hroom
    rw [Instruction.switchSize, size_expressionParams]
    omega
  · rintro ⟨hnarrow, hroom⟩
    have hbehind : src.get + Instruction.switchSize switch = src.get + 1 + Pod.size FixParams +
        switch.expressions.length * Pod.size ExpressionParams := by
      rw [Instruction.switchSize]
      omega
    rw [hbehind] at hroom
    obtain ⟨ctx', switch', hparse, hsame⟩ :=
      parse_of_standsAt hctx hpointed hlength hinside hnarrow hcs hrest.left hroom
    have htrailing := hrest.right
    rw [List.length_append, Pod.length_toBytes, writes_expressions v _ _ hcs, ← Nat.add_assoc]
      at htrailing
    refine ⟨ctx', switch', ?_, hsame, ?_⟩
    · cases trailing with
      | none =>
          rw [switchType, parseInstruction, parseJumpSwitchNoire, hparse, ok_bind]
          rfl
      | some trailingByte =>
          have hle := htrailing.le
          rw [trailingBytes, Pod.length_toBytes, Source.length_bytes] at hle
          rw [switchType, parseInstruction, parseJumpSwitchPotbb, hparse, ok_bind]
          dsimp only
          rw [Source.checkRemainingSize_of_le hle, ok_bind, Source.readUint8,
            Source.readUint_of_standsAt htrailing, ok_bind]
          rfl
    · have hparams' : StandsAt (toBytes switch.fixParams) (src.at_ (src.get + 1)).get
          (src.at_ (src.get + 1)).bytes := hparams
      rw [consumed_switchType hparams' trailing, count_fixParams hlength fun hd => (hroom hd).1,
        getSize_switchInstruction, Instruction.switchSize]
      omega

/-- Both ways, for each of the two kinds. -/
theorem switch_roundTrip_iff {ctx : Context} (hctx : ctx.UnderParse) (v : LabelView)
    (src : Source) (opcode : UInt8) (trailing : Option UInt8) :
    (∀ switch calls, switch.expressions.length < 0x8000 →
      Inside v ctx.getSize switch.expressions →
      InstructionItem.dump v { opcode, instruction := switchInstruction switch trailing } =
        .ok calls → StandsAt (Sink.bytesOf calls) src.get src.bytes →
      (ReadsBack ctx v src switch trailing ↔ Narrow v switch.expressions ∧
        switch.Room (src.size - (src.get + Instruction.switchSize switch)))) ∧
    ∀ src' ctx' i, src.readUint8 .little = .ok (opcode, src') →
      parseInstruction ctx src' (switchType trailing) = .ok (ctx', i) → v.Places ctx' →
      i.getSize = 1 + (switchType trailing).consumed src' ∧
        (WritesBack v src { opcode, instruction := i } (1 + (switchType trailing).consumed src') ↔
          (src'.valueAt FixParams src'.get).Fits) :=
  ⟨fun _ _ hlength hinside hdump hstand =>
      readsBack_iff hctx.consistent hctx.pointed hlength hinside hdump hstand,
    fun _ _ _ hopcode hparse hv =>
      writesBack_iff hctx.consistent hopcode (isSwitch_switchType trailing) hparse hv⟩

/-- One case, which may be the default. -/
def oneCase (lastIsDefault : Bool) (target : LabelPtr) : InstructionJumpSwitchItem :=
  { expectedVal := 5, lastIsDefault, expressions := [{ expression := 9, target }] }

theorem length_oneCase_lt (lastIsDefault : Bool) (target : LabelPtr) :
    (oneCase lastIsDefault target).expressions.length < 0x800 := show 1 < 0x800 by decide

/-- The case as it is written. -/
def oneCaseParams : ExpressionParams := { expression := 9, tgt := 0 }

/-- A file that begins with the switch, its case leading to the switch itself. -/
def oneCaseSource (lastIsDefault : Bool) (behind : Nat) : Source :=
  .fromMemory (toBytes (0x1e : UInt8) ++ toBytes (oneCase lastIsDefault (locName 0)).fixParams ++
    toBytes oneCaseParams ++ List.replicate behind 0)

section OneCase

variable (lastIsDefault : Bool) (behind : Nat)

theorem size_oneCaseSource : (oneCaseSource lastIsDefault behind).size = 15 + behind := by
  simp only [oneCaseSource, Source.size_fromMemory, List.length_append, List.length_replicate,
    Pod.length_toBytes]
  rfl

/-- The label of its case can be had. -/
theorem getLabelTo_oneCase :
    ∃ ctx l, (Context.root (oneCaseSource lastIsDefault behind)).getLabelTo 0 = .ok (ctx, l) ∧
      ctx.UnderParse ∧ ctx.view.toFilePos l = .ok 0 ∧ ctx.getSize = 15 + behind := by
  have hroot : (Context.root (oneCaseSource lastIsDefault behind)).UnderParse :=
    ⟨_, [], trivial, rfl⟩
  obtain ⟨ctx, l, hl⟩ := hroot.pointed.getLabelTo hroot.consistent 0
  have hstep : Context.parseStep (root (oneCaseSource lastIsDefault behind)) (.getLabelTo 0) =
      .ok ctx := by
    rw [Context.parseStep, hl, ok_bind]
    rfl
  have hunder : ctx.UnderParse :=
    ⟨oneCaseSource lastIsDefault behind, [.getLabelTo 0], ⟨trivial, fun _ _ => trivial⟩,
      run_cons_ok _ hstep []⟩
  refine ⟨ctx, l, hl, hunder, hroot.consistent.getLabelTo_toFilePos hl, ?_⟩
  rw [(relabeling_getLabelTo _ _ _ _ hl).getSize, ← size_oneCaseSource lastIsDefault behind]
  rfl

theorem oneCase_dump {v : LabelView} {l : LabelPtr} (hpos : v.toFilePos l = .ok 0) :
    ∃ calls, InstructionItem.dump v
        { opcode := 0x1e, instruction := switchInstruction (oneCase lastIsDefault l) none } =
          .ok calls ∧
      StandsAt (Sink.bytesOf calls) 0 (oneCaseSource lastIsDefault behind).bytes := by
  have hcalls : dumpExpressions v (oneCase lastIsDefault l).expressions =
      .ok [.write (toBytes oneCaseParams)] := by
    rw [oneCase, dumpExpressions, hpos, ok_bind]
    rfl
  obtain ⟨calls, hdump, hbytes⟩ := dump_switchInstruction hcalls 0x1e none
  refine ⟨calls, hdump, [], List.replicate behind 0, ?_, rfl⟩
  rw [oneCaseSource, Source.bytes_fromMemory, hbytes, trailingBytes, List.append_nil,
    List.nil_append, ← List.append_assoc]
  rfl

theorem oneCase_inside {v : LabelView} {l : LabelPtr} (hpos : v.toFilePos l = .ok 0) :
    Inside v (15 + behind) (oneCase lastIsDefault l).expressions := by
  intro e he
  obtain rfl := List.mem_singleton.mp he
  exact ⟨0, by omega, hpos⟩

theorem oneCase_opcode : StandsAt (toBytes (fromNative (0x1e : UInt8) .little)) 0
    (oneCaseSource lastIsDefault behind).bytes := by
  refine ⟨[], toBytes (oneCase lastIsDefault (locName 0)).fixParams ++
    (toBytes oneCaseParams ++ List.replicate behind 0), ?_, rfl⟩
  rw [oneCaseSource, Source.bytes_fromMemory, List.append_assoc, List.append_assoc]
  rfl

theorem oneCase_fits : ((oneCaseSource lastIsDefault behind).valueAt FixParams 1).Fits := by
  have hparams : StandsAt (toBytes (oneCase lastIsDefault (locName 0)).fixParams) 1
      (oneCaseSource lastIsDefault behind).bytes := by
    refine ⟨toBytes (0x1e : UInt8), toBytes oneCaseParams ++ List.replicate behind 0, ?_, rfl⟩
    rw [oneCaseSource, Source.bytes_fromMemory, List.append_assoc]
  have hlt := length_oneCase_lt lastIsDefault (locName 0)
  rw [Source.valueAt_of_standsAt hparams, FixParams.Fits, toNat_size (by omega)]
  split <;> omega

end OneCase

/-- The switch is parsed as it was written, and what was parsed written again. -/
def OneCaseRoundTrips (lastIsDefault : Bool) (behind : Nat) : Prop :=
  ∃ ctx l ctx' i,
    (Context.root (oneCaseSource lastIsDefault behind)).getLabelTo 0 = .ok (ctx, l) ∧
    ReadsBack ctx ctx.view (oneCaseSource lastIsDefault behind) (oneCase lastIsDefault l) none ∧
    parseInstruction ctx ((oneCaseSource lastIsDefault behind).at_ 1) .jumpSwitchNoire =
      .ok (ctx', i) ∧
    WritesBack ctx'.view (oneCaseSource lastIsDefault behind) { opcode := 0x1e, instruction := i } 15

/-- Without a default, and with one and enough zeros behind. -/
theorem oneCase_roundTrips : OneCaseRoundTrips false 0 ∧ OneCaseRoundTrips true 0x40000 := by
  have hboth : ∀ lastIsDefault behind, (lastIsDefault = true → 0x40000 ≤ behind) →
      OneCaseRoundTrips lastIsDefault behind := by
    intro lastIsDefault behind hbehind
    obtain ⟨ctx, l, hl, hunder, hpos, hsize⟩ := getLabelTo_oneCase lastIsDefault behind
    obtain ⟨calls, hcalls, hstand⟩ := oneCase_dump lastIsDefault behind hpos
    have hwhole := size_oneCaseSource lastIsDefault behind
    have hlt := length_oneCase_lt lastIsDefault l
    obtain ⟨hreads, -⟩ := switch_roundTrip_iff hunder ctx.view
      (oneCaseSource lastIsDefault behind) 0x1e none
    have hback : ReadsBack ctx ctx.view (oneCaseSource lastIsDefault behind)
        (oneCase lastIsDefault l) none := by
      refine (hreads _ calls (by omega) (hsize ▸ oneCase_inside lastIsDefault behind hpos) hcalls
        hstand).mpr ⟨fun e he pos htgt => ?_, fun hdefault => ⟨hlt, ?_⟩⟩
      · obtain rfl := List.mem_singleton.mp he
        cases hpos.symm.trans htgt
        decide
      · have := hbehind hdefault
        rw [hwhole]
        change 0x40000 ≤ 15 + behind - (0 + 15)
        omega
    have hopcode : (oneCaseSource lastIsDefault behind).readUint8 .little =
        .ok (0x1e, (oneCaseSource lastIsDefault behind).at_ 1) :=
      Source.readUint_of_standsAt (oneCase_opcode lastIsDefault behind)
    obtain ⟨ctx', switch', hparse, -, hconsumed⟩ := id hback
    obtain ⟨-, hwrites⟩ := switch_roundTrip_iff hunder ctx'.view
      (oneCaseSource lastIsDefault behind) 0x1e none
    obtain ⟨-, hwrites⟩ := hwrites _ _ _ hopcode hparse fun _ _ hplace => hplace
    have hwritten := hwrites.mpr (oneCase_fits lastIsDefault behind)
    have hlength : 1 + (switchType none).consumed ((oneCaseSource lastIsDefault behind).at_ 1) = 15 :=
      hconsumed
    exact ⟨ctx, l, ctx', _, hl, hback, hparse, hlength ▸ hwritten⟩
  exact ⟨hboth false 0 nofun, hboth true 0x40000 fun _ => Nat.le_refl _⟩

/-- Nothing follows the case, which is compared with more than thirty-two thousand. -/
theorem oneCase_not_readsBack :
    ¬ ∀ (ctx : Context) (v : LabelView) (src : Source) (opcode : UInt8) (trailing : Option UInt8)
      (switch : InstructionJumpSwitchItem) (calls : List Sink.Call), ctx.UnderParse →
      switch.expressions.length < 0x8000 → Inside v ctx.getSize switch.expressions →
      InstructionItem.dump v { opcode, instruction := switchInstruction switch trailing } =
        .ok calls → StandsAt (Sink.bytesOf calls) src.get src.bytes →
      ReadsBack ctx v src switch trailing := by
  intro hall
  obtain ⟨ctx, l, hl, hunder, hpos, hsize⟩ := getLabelTo_oneCase true 0
  obtain ⟨calls, hcalls, hstand⟩ := oneCase_dump true 0 hpos
  have hinside := hsize ▸ oneCase_inside true 0 hpos
  have hlength : (oneCase true l).expressions.length < 0x8000 :=
    (length_oneCase_lt true l).trans (by decide)
  have hreads := hall ctx ctx.view (oneCaseSource true 0) 0x1e none _ calls hunder hlength hinside
    hcalls hstand
  obtain ⟨-, hroom⟩ := (readsBack_iff hunder.consistent hunder.pointed hlength hinside hcalls
    hstand).mp hreads
  have hbehind := (hroom rfl).2
  rw [size_oneCaseSource] at hbehind
  exact absurd (hbehind.trans (Nat.sub_le _ _)) (by decide)

end Stsc

end Neptools

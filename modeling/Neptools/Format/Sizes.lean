import Neptools.Format.Item
import Neptools.Gbnl.Layout

/-!
Every item writes as many bytes as it says, whatever the labels lead to.
-/

namespace Neptools

open Lib

/-- What is written takes `n` bytes. -/
def Writes (n : Nat) (x : Except Error (List Sink.Call)) : Prop :=
  ∀ calls, x = .ok calls → (Sink.bytesOf calls).length = n

namespace Writes

theorem pure {calls : List Sink.Call} {n : Nat} (h : (Sink.bytesOf calls).length = n) :
    Writes n (Pure.pure calls) := by
  intro calls' heq
  cases heq
  exact h

theorem bind {α : Type} {x : Except Error α} {f : α → Except Error (List Sink.Call)} {n : Nat}
    (h : ∀ a, x = .ok a → Writes n (f a)) : Writes n (x >>= f) := by
  intro calls heq
  obtain ⟨a, ha, hf⟩ := bind_eq_ok.mp heq
  exact h a ha calls hf

theorem one {α : Type} [Pod α] (a : α) : Writes (Pod.size α) (Pure.pure [.write (toBytes a)]) :=
  pure (by simp)

end Writes

namespace Stcm

theorem HeaderItem.writes (v : LabelView) (h : HeaderItem) :
    Writes (Pod.size HeaderItem.Header) (h.dump v) :=
  .bind fun _ _ => .bind fun _ _ => .bind fun _ _ => .bind fun (_, _) _ => .one _

theorem ExportsItem.writes (v : LabelView) (entries : List EntryType) :
    Writes (Pod.size Entry * entries.length) (ExportsItem.dump v entries) := by
  induction entries with
  | nil => exact .pure rfl
  | cons e es ih =>
      refine .bind fun _ _ => .bind fun rest hrest => .pure ?_
      rw [Sink.bytesOf_cons, List.length_append, ih rest hrest, Sink.Call.bytes_write,
        Pod.length_toBytes, List.length_cons, Nat.mul_succ, Nat.add_comm]

theorem CollectionLinkHeaderItem.writes (v : LabelView) (data : LabelPtr) :
    Writes (Pod.size Header) (CollectionLinkHeaderItem.dump v data) :=
  .bind fun _ _ => .bind fun _ _ => .one _

theorem CollectionLinkItem.writes (v : LabelView) (entries : List LinkEntry) :
    Writes (entries.length * Pod.size Entry) (CollectionLinkItem.dump v entries) := by
  induction entries with
  | nil => exact .pure rfl
  | cons e es ih =>
      refine .bind fun _ _ => .bind fun _ _ => .bind fun rest hrest => .pure ?_
      rw [Sink.bytesOf_cons, List.length_append, ih rest hrest, Sink.Call.bytes_write,
        Pod.length_toBytes, List.length_cons, Nat.succ_mul, Nat.add_comm]

theorem ExpansionItem.writes (v : LabelView) (e : ExpansionItem) :
    Writes (Pod.size Header) (e.dump v) :=
  .bind fun _ _ => .one _

theorem InstructionItem.writes_params (v : LabelView) (params : List Param) :
    Writes (params.length * Pod.size Parameter) (dumpParams v params) := by
  induction params with
  | nil => exact .pure rfl
  | cons p ps ih =>
      refine .bind fun call hcall => .bind fun rest hrest => .pure ?_
      obtain ⟨pp, -, hpp⟩ := bind_eq_ok.mp hcall
      cases hpp
      rw [Sink.bytesOf_cons, List.length_append, ih rest hrest, Sink.Call.bytes_write,
        Pod.length_toBytes, List.length_cons, Nat.succ_mul, Nat.add_comm]

theorem InstructionItem.writes (v : LabelView) (i : InstructionItem) (size : Nat) :
    Writes (Pod.size Header + i.params.length * Pod.size Parameter) (i.dump v size) := by
  have hwrites := writes_params v i.params
  refine .bind fun (_, _) _ => .bind fun params hparams => .pure ?_
  rw [Sink.bytesOf_cons, List.length_append, hwrites params hparams,
    Sink.Call.bytes_write, Pod.length_toBytes]

theorem DataItem.writes (d : DataItem) (size : Nat) :
    Writes (Pod.size Header) (Pure.pure (d.dump size)) := .one _

theorem StringDataItem.writes (string : Bytes) :
    Writes (Pod.size DataItem.Header + (string.length + 1 + 3) / 4 * 4)
      (Pure.pure (StringDataItem.dump string)) := by
  refine .pure ?_
  simp only [StringDataItem.dump, Sink.bytesOf_cons, Sink.bytesOf_nil, List.length_append,
    Sink.Call.bytes_write, Sink.Call.bytes_pad, Pod.length_toBytes, length_zeros,
    StringDataItem.paddedLength, List.length_nil]
  omega

end Stcm

namespace Stsc

theorem HeaderItem.writes (v : LabelView) (h : HeaderItem) : Writes h.getSize (h.dump v) := by
  refine .bind fun _ _ => .pure ?_
  simp only [Sink.bytesOf_append, List.length_append, Sink.bytesOf_cons, Sink.bytesOf_nil,
    Sink.Call.bytes_write, List.append_nil, Pod.length_toBytes, getSize]
  cases h.extraHeaders1 <;> cases h.extraHeaders2 <;> cases h.extraHeaders4 <;>
    simp [dumpExtra, Pod.size]

theorem length_dumpLabel {v : LabelView} {label : Option LabelPtr} {bytes : Bytes}
    (h : Arg.dumpLabel v label = .ok bytes) : bytes.length = 4 := by
  obtain ⟨pos, -, hpos⟩ := bind_eq_ok.mp h
  cases hpos
  exact Pod.length_toBytes _

theorem length_dumpArg {v : LabelView} {a : Arg} {bytes : Bytes} (h : a.dump v = .ok bytes) :
    bytes.length = a.type.size := by
  cases a with
  | string label => exact length_dumpLabel h
  | code label => exact length_dumpLabel h
  | data label => exact length_dumpLabel h
  | _ val =>
      cases h
      exact Pod.length_toBytes val

theorem length_dumpArgs {v : LabelView} {args : List Arg} {bytes : Bytes}
    (h : dumpArgs v args = .ok bytes) :
    bytes.length = (args.map fun a => a.type.size).sum := by
  induction args generalizing bytes with
  | nil =>
      cases h
      rfl
  | cons a as ih =>
      obtain ⟨first, hfirst, h⟩ := bind_eq_ok.mp h
      obtain ⟨rest, hrest, h⟩ := bind_eq_ok.mp h
      cases h
      rw [List.length_append, length_dumpArg hfirst, ih hrest, List.map_cons, List.sum_cons]

theorem writes_targets (v : LabelView) (tgts : List LabelPtr) :
    Writes (tgts.length * 4) (dumpTargets v tgts) := by
  induction tgts with
  | nil => exact .pure rfl
  | cons l ls ih =>
      refine .bind fun _ _ => .bind fun rest hrest => .pure ?_
      rw [Sink.bytesOf_cons, List.length_append, ih rest hrest, Sink.Call.bytes_write,
        Pod.length_toBytes, List.length_cons, Nat.succ_mul, Nat.add_comm]
      rfl

open InstructionJumpSwitchItem in
theorem writes_expressions (v : LabelView) (expressions : List Expression) :
    Writes (expressions.length * Pod.size ExpressionParams) (dumpExpressions v expressions) := by
  induction expressions with
  | nil => exact .pure rfl
  | cons e es ih =>
      refine .bind fun _ _ => .bind fun rest hrest => .pure ?_
      rw [Sink.bytesOf_cons, List.length_append, ih rest hrest, Sink.Call.bytes_write,
        Pod.length_toBytes, List.length_cons, Nat.succ_mul, Nat.add_comm]

namespace Instruction

/-- What a switch writes after the opcode. -/
theorem writes_switch (v : LabelView) (switch : InstructionJumpSwitchItem) :
    Writes (switchSize switch - 1) (dumpSwitch v switch) := by
  have hwrites := writes_expressions v switch.expressions
  refine .bind fun expressions h => .pure ?_
  rw [Sink.bytesOf_cons, List.length_append, hwrites _ h, Sink.Call.bytes_write,
    Pod.length_toBytes, switchSize, Nat.add_assoc, Nat.add_sub_cancel_left]

theorem writes (v : LabelView) (i : Instruction) : Writes (i.getSize - 1) (i.dump v) := by
  cases i with
  | simple noReturn args =>
      refine .bind fun bytes h => .pure ?_
      rw [Sink.bytesOf_cons, Sink.bytesOf_nil, List.append_nil, Sink.Call.bytes_write,
        length_dumpArgs h, getSize, Nat.add_sub_cancel]
  | rndJump tgts =>
      have hwrites := writes_targets v tgts
      refine .bind fun targets h => .pure ?_
      rw [Sink.bytesOf_cons, List.length_append, hwrites _ h, Sink.Call.bytes_write,
        Pod.length_toBytes, getSize]
      have : Pod.size UInt8 = 1 := rfl
      omega
  | jumpIf tgt tree =>
      refine .bind fun _ _ => .pure ?_
      have htree : (Sink.bytesOf (tree.map fun n => .write (toBytes n.params))).length =
          tree.length * Pod.size InstructionJumpIfItem.NodeParams := by
        induction tree with
        | nil => rfl
        | cons n ns ih =>
            rw [List.map_cons, Sink.bytesOf_cons, List.length_append, ih, Sink.Call.bytes_write,
              Pod.length_toBytes, List.length_cons, Nat.succ_mul, Nat.add_comm]
      rw [Sink.bytesOf_cons, List.length_append, htree, Sink.Call.bytes_write,
        Pod.length_toBytes, getSize, Nat.add_assoc, Nat.add_sub_cancel_left]
  | jumpSwitchNoire switch => exact writes_switch v switch
  | jumpSwitchPotbb switch trailingByte =>
      have hwrites := writes_switch v switch
      refine .bind fun calls h => .pure ?_
      rw [Sink.bytesOf_append, List.length_append, hwrites _ h, Sink.bytesOf_cons,
        Sink.bytesOf_nil, List.append_nil, Sink.Call.bytes_write, Pod.length_toBytes, getSize,
        switchSize]
      have : Pod.size UInt8 = 1 := rfl
      omega

theorem getSize_pos (i : Instruction) : 0 < i.getSize := by
  cases i with
  | simple noReturn args => exact Nat.succ_pos _
  | _ =>
      simp only [getSize, switchSize]
      omega

end Instruction

theorem InstructionItem.writes (v : LabelView) (i : InstructionItem) :
    Writes i.instruction.getSize (i.dump v) := by
  have hwrites := i.instruction.writes v
  refine .bind fun calls h => .pure ?_
  have hpos := i.instruction.getSize_pos
  rw [Sink.bytesOf_cons, List.length_append, hwrites calls h,
    Sink.Call.bytes_write, Pod.length_toBytes]
  have : Pod.size UInt8 = 1 := rfl
  omega

end Stsc

namespace Body

theorem writes (v : LabelView) (size : Nat) (b : Body) :
    Writes b.fixup.ownSize (b.fixup.dump v size) := by
  cases b with
  | raw src => exact .pure (by simp [ownSize, fixup])
  | cString string => exact .pure (by simp [ownSize, fixup])
  | int32 value => exact .one value
  | float bits => exact .one bits
  | eof => exact .pure rfl
  | header h => exact h.writes v
  | exports entries => exact Stcm.ExportsItem.writes v entries
  | collectionLinkHeader link => exact Stcm.CollectionLinkHeaderItem.writes v link
  | collectionLink entries => exact Stcm.CollectionLinkItem.writes v entries
  | expansion e => exact e.writes v
  | expansions => exact .pure rfl
  | instruction i => exact i.writes v size
  | data d => exact d.writes size
  | stringData string => exact Stcm.StringDataItem.writes string
  | gbnl g => exact fun calls h => Gbnl.length_of_dump rfl h
  | stscHeader h => exact h.writes v
  | stscInstruction i => exact i.writes v

end Body

end Neptools

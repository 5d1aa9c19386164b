import Neptools.Format.Label

/-!
The items of an STSC file, what each of them holds and what it writes. All
records are little-endian.
-/

namespace Neptools

open Lib

namespace Stsc

/-! The header of the file. -/

structure HeaderItem.Header where
  magic : ByteArr 4
  entryPoint : UInt32
  flags : UInt32
  deriving DecidableEq

def HeaderItem.Header.equivFields : HeaderItem.Header ≃ ByteArr 4 × UInt32 × UInt32 where
  toFun h := (h.magic, h.entryPoint, h.flags)
  invFun := fun (magic, entryPoint, flags) => { magic, entryPoint, flags }
  left_inv _ := rfl
  right_inv _ := rfl

instance : Pod HeaderItem.Header := Pod.ofEquiv HeaderItem.Header.equivFields

structure HeaderItem.ExtraHeaders2 where
  field0 : UInt16
  field2 : UInt16
  field4 : UInt16
  field6 : UInt16
  field8 : UInt16
  fieldA : UInt16
  fieldC : UInt16
  deriving DecidableEq

def HeaderItem.ExtraHeaders2.equivFields : HeaderItem.ExtraHeaders2 ≃
    UInt16 × UInt16 × UInt16 × UInt16 × UInt16 × UInt16 × UInt16 where
  toFun h := (h.field0, h.field2, h.field4, h.field6, h.field8, h.fieldA, h.fieldC)
  invFun := fun (field0, field2, field4, field6, field8, fieldA, fieldC) =>
    { field0, field2, field4, field6, field8, fieldA, fieldC }
  left_inv _ := rfl
  right_inv _ := rfl

instance : Pod HeaderItem.ExtraHeaders2 := Pod.ofEquiv HeaderItem.ExtraHeaders2.equivFields

structure HeaderItem where
  entryPoint : LabelPtr
  extraHeaders1 : Option (ByteArr 32)
  extraHeaders2 : Option HeaderItem.ExtraHeaders2
  extraHeaders4 : Option UInt16
  deriving DecidableEq

namespace HeaderItem

/-- "STSC" -/
def magic : ByteArr 4 := ⟨[0x53, 0x54, 0x53, 0x43], rfl⟩

def getSize (h : HeaderItem) : Nat :=
  let size := Pod.size Header
  let size := if h.extraHeaders1.isSome then size + 32 else size
  let size := if h.extraHeaders2.isSome then size + Pod.size ExtraHeaders2 else size
  if h.extraHeaders4.isSome then size + 2 else size

def flags (h : HeaderItem) : UInt32 :=
  let flags := 0
  let flags := if h.extraHeaders1.isSome then flags ||| 1 else flags
  let flags := if h.extraHeaders2.isSome then flags ||| 2 else flags
  if h.extraHeaders4.isSome then flags ||| 4 else flags

/-- A record that may be missing. -/
def dumpExtra {α : Type} [Pod α] : Option α → List Sink.Call
  | none => []
  | some a => [.write (toBytes a)]

def dump (v : LabelView) (h : HeaderItem) : Except Error (List Sink.Call) := do
  let entryPoint ← v.toFilePos h.entryPoint
  let hdr : Header := { magic, entryPoint := UInt32.ofNat entryPoint, flags := h.flags }
  pure ([.write (toBytes hdr)] ++ dumpExtra h.extraHeaders1 ++ dumpExtra h.extraHeaders2 ++
    dumpExtra h.extraHeaders4)

end HeaderItem

/-! Instructions with a fixed list of arguments. -/

inductive ArgType
  | uint8
  | uint16
  | uint32
  | float
  | string
  | code
  | data
  deriving Repr, DecidableEq

def ArgType.size : ArgType → Nat
  | .uint8 => 1
  | .uint16 => 2
  | _ => 4

inductive Arg
  | uint8 (val : UInt8)
  | uint16 (val : UInt16)
  | uint32 (val : UInt32)
  | float (bits : UInt32)
  | string (label : Option LabelPtr)
  | code (label : Option LabelPtr)
  | data (label : Option LabelPtr)
  deriving DecidableEq

def Arg.type : Arg → ArgType
  | .uint8 _ => .uint8
  | .uint16 _ => .uint16
  | .uint32 _ => .uint32
  | .float _ => .float
  | .string _ => .string
  | .code _ => .code
  | .data _ => .data

def Arg.dumpLabel (v : LabelView) (label : Option LabelPtr) : Except Error Bytes := do
  let pos ← v.toFilePosOrZero label
  pure (toBytes (UInt32.ofNat pos))

def Arg.dump (v : LabelView) : Arg → Except Error Bytes
  | .uint8 val => pure (toBytes val)
  | .uint16 val => pure (toBytes val)
  | .uint32 val => pure (toBytes val)
  | .float bits => pure (toBytes bits)
  | .string label => dumpLabel v label
  | .code label => dumpLabel v label
  | .data label => dumpLabel v label

def dumpArgs (v : LabelView) : List Arg → Except Error Bytes
  | [] => pure []
  | a :: as => do
      let bytes ← a.dump v
      let rest ← dumpArgs v as
      pure (bytes ++ rest)

/-! The other instructions. -/

structure InstructionJumpIfItem.FixParams where
  size : UInt16
  tgt : UInt32
  deriving DecidableEq

def InstructionJumpIfItem.FixParams.equivFields :
    InstructionJumpIfItem.FixParams ≃ UInt16 × UInt32 where
  toFun p := (p.size, p.tgt)
  invFun := fun (size, tgt) => { size, tgt }
  left_inv _ := rfl
  right_inv _ := rfl

instance : Pod InstructionJumpIfItem.FixParams :=
  Pod.ofEquiv InstructionJumpIfItem.FixParams.equivFields

structure InstructionJumpIfItem.NodeParams where
  operation : UInt8
  value : UInt32
  left : UInt16
  right : UInt16
  deriving DecidableEq

def InstructionJumpIfItem.NodeParams.equivFields :
    InstructionJumpIfItem.NodeParams ≃ UInt8 × UInt32 × UInt16 × UInt16 where
  toFun p := (p.operation, p.value, p.left, p.right)
  invFun := fun (operation, value, left, right) => { operation, value, left, right }
  left_inv _ := rfl
  right_inv _ := rfl

instance : Pod InstructionJumpIfItem.NodeParams :=
  Pod.ofEquiv InstructionJumpIfItem.NodeParams.equivFields

structure InstructionJumpIfItem.Node where
  operation : UInt8
  value : UInt32
  left : Nat
  right : Nat
  deriving DecidableEq

def InstructionJumpIfItem.Node.params (n : Node) : NodeParams :=
  { operation := n.operation, value := n.value, left := UInt16.ofNat n.left
    right := UInt16.ofNat n.right }

structure InstructionJumpSwitchItem.FixParams where
  expectedVal : UInt32
  size : UInt16
  deriving DecidableEq

def InstructionJumpSwitchItem.FixParams.equivFields :
    InstructionJumpSwitchItem.FixParams ≃ UInt32 × UInt16 where
  toFun p := (p.expectedVal, p.size)
  invFun := fun (expectedVal, size) => { expectedVal, size }
  left_inv _ := rfl
  right_inv _ := rfl

instance : Pod InstructionJumpSwitchItem.FixParams :=
  Pod.ofEquiv InstructionJumpSwitchItem.FixParams.equivFields

structure InstructionJumpSwitchItem.ExpressionParams where
  expression : UInt32
  tgt : UInt32
  deriving DecidableEq

def InstructionJumpSwitchItem.ExpressionParams.equivFields :
    InstructionJumpSwitchItem.ExpressionParams ≃ UInt32 × UInt32 where
  toFun p := (p.expression, p.tgt)
  invFun := fun (expression, tgt) => { expression, tgt }
  left_inv _ := rfl
  right_inv _ := rfl

instance : Pod InstructionJumpSwitchItem.ExpressionParams :=
  Pod.ofEquiv InstructionJumpSwitchItem.ExpressionParams.equivFields

structure InstructionJumpSwitchItem.Expression where
  expression : UInt32
  target : LabelPtr
  deriving DecidableEq

structure InstructionJumpSwitchItem where
  expectedVal : UInt32
  lastIsDefault : Bool
  expressions : List InstructionJumpSwitchItem.Expression
  deriving DecidableEq

namespace InstructionJumpSwitchItem

def fixParams (i : InstructionJumpSwitchItem) : FixParams :=
  { expectedVal := i.expectedVal
    size := UInt16.ofNat ((if i.lastIsDefault then 1 <<< 15 else 0) ||| i.expressions.length) }

def dumpExpressions (v : LabelView) : List Expression → Except Error (List Sink.Call)
  | [] => pure []
  | e :: es => do
      let pos ← v.toFilePos e.target
      let rest ← dumpExpressions v es
      let params : ExpressionParams := { expression := e.expression, tgt := UInt32.ofNat pos }
      pure (.write (toBytes params) :: rest)

end InstructionJumpSwitchItem

inductive Instruction
  | simple (noReturn : Bool) (args : List Arg)
  | rndJump (tgts : List LabelPtr)
  | jumpIf (tgt : LabelPtr) (tree : List InstructionJumpIfItem.Node)
  | jumpSwitchNoire (switch : InstructionJumpSwitchItem)
  | jumpSwitchPotbb (switch : InstructionJumpSwitchItem) (trailingByte : UInt8)
  deriving DecidableEq

structure InstructionItem where
  opcode : UInt8
  instruction : Instruction
  deriving DecidableEq

def dumpTargets (v : LabelView) : List LabelPtr → Except Error (List Sink.Call)
  | [] => pure []
  | l :: ls => do
      let pos ← v.toFilePos l
      let rest ← dumpTargets v ls
      pure (.write (toBytes (UInt32.ofNat pos)) :: rest)

namespace Instruction

def switchSize (switch : InstructionJumpSwitchItem) : Nat :=
  1 + Pod.size InstructionJumpSwitchItem.FixParams +
    switch.expressions.length * Pod.size InstructionJumpSwitchItem.ExpressionParams

def getSize : Instruction → Nat
  | simple _ args => (args.map fun a => a.type.size).sum + 1
  | rndJump tgts => 2 + tgts.length * 4
  | jumpIf _ tree =>
      1 + Pod.size InstructionJumpIfItem.FixParams +
        tree.length * Pod.size InstructionJumpIfItem.NodeParams
  | jumpSwitchNoire switch => switchSize switch
  | jumpSwitchPotbb switch _ => 1 + switchSize switch

def dumpSwitch (v : LabelView) (switch : InstructionJumpSwitchItem) :
    Except Error (List Sink.Call) := do
  let expressions ← InstructionJumpSwitchItem.dumpExpressions v switch.expressions
  pure (.write (toBytes switch.fixParams) :: expressions)

/-- What is written after the opcode. -/
def dump (v : LabelView) : Instruction → Except Error (List Sink.Call)
  | simple _ args => do
      let bytes ← dumpArgs v args
      pure [.write bytes]
  | rndJump tgts => do
      let targets ← dumpTargets v tgts
      pure (.write (toBytes (UInt8.ofNat tgts.length)) :: targets)
  | jumpIf tgt tree => do
      let pos ← v.toFilePos tgt
      let params : InstructionJumpIfItem.FixParams :=
        { size := UInt16.ofNat tree.length, tgt := UInt32.ofNat pos }
      pure (.write (toBytes params) :: tree.map fun n => .write (toBytes n.params))
  | jumpSwitchNoire switch => dumpSwitch v switch
  | jumpSwitchPotbb switch trailingByte => do
      let calls ← dumpSwitch v switch
      pure (calls ++ [.write (toBytes trailingByte)])

end Instruction

def InstructionItem.dump (v : LabelView) (i : InstructionItem) :
    Except Error (List Sink.Call) := do
  let calls ← i.instruction.dump v
  pure (.write (toBytes i.opcode) :: calls)

end Stsc

end Neptools

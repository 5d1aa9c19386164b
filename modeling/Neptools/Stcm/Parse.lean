import Neptools.Format.Parse

/-!
Reading the instructions of an STCM file. An instruction says how long it is;
what is behind its parameters becomes its child.
-/

namespace Neptools

open Lib

namespace Stcm

namespace InstructionItem

namespace Header

def userOpcodes : UInt32 := 0x1000
def systemOpcodesBegin : UInt32 := 0xffffff00
def systemOpcodesEnd : UInt32 := 0xffffff14

def validate (h : Header) (fileSize : Nat) : Except Error Unit := do
  validateField "Stcm::InstructionItem::Header" "is_call == 0 || is_call == 1"
    (h.isCall = 0 ∨ h.isCall = 1)
  validateField "Stcm::InstructionItem::Header" "param_count < 16" (h.paramCount < 16)
  validateField "Stcm::InstructionItem::Header"
    "size >= sizeof(Header) + param_count*sizeof(Parameter)"
    (Pod.size Header + h.paramCount.toNat * Pod.size Parameter ≤ h.size.toNat)
  if h.isCall ≠ 0 then
    validateField "Stcm::InstructionItem::Header" "opcode < file_size"
      (h.opcode.toNat < fileSize)
  else
    validateField "Stcm::InstructionItem::Header"
      "opcode < USER_OPCODES || (opcode >= SYSTEM_OPCODES_BEGIN && opcode <= SYSTEM_OPCODES_END)"
      (h.opcode < userOpcodes ∨ systemOpcodesBegin ≤ h.opcode ∧ h.opcode ≤ systemOpcodesEnd)

end Header

namespace Parameter

def Type0.special : UInt32 := 3
def Type0Special.readStackMax : UInt32 := 0xffffff0f
def Type0Special.read4acMax : UInt32 := 0xffffff27
def Type48Special.readStackMax : UInt32 := 0xffffff0f
def Type48Special.read4acMax : UInt32 := 0xffffff27

def typeTag (x : UInt32) : UInt32 := x >>> 30
def value (x : UInt32) : UInt32 := x &&& 0x3fffffff

def isReadStack (x : UInt32) : Prop :=
  Type48Special.readStackMin ≤ x ∧ x ≤ Type48Special.readStackMax

def isRead4ac (x : UInt32) : Prop := Type48Special.read4acMin ≤ x ∧ x ≤ Type48Special.read4acMax

instance (x : UInt32) : Decidable (isReadStack x) := inferInstanceAs (Decidable (_ ∧ _))
instance (x : UInt32) : Decidable (isRead4ac x) := inferInstanceAs (Decidable (_ ∧ _))

/-- `Param48Validate` -/
def validate48 (param : UInt32) (fileSize : Nat) : Except Error Unit :=
  if typeTag param = Type48.memOffset then
    validateField "Stcm Param48" "(IP::Value(param) + 16) < file_size"
      ((value param + 16).toNat < fileSize)
  else if typeTag param = Type48.immediate then pure ()
  else if typeTag param = Type48.indirect then pure ()
  else
    validateField "Stcm Param48"
      "(param >= IP::Type48Special::READ_STACK_MIN && param <= IP::Type48Special::READ_STACK_MAX) || (param >= IP::Type48Special::READ_4AC_MIN && param <= IP::Type48Special::READ_4AC_MAX)"
      (isReadStack param ∨ isRead4ac param)

def check (cond : String) (p : Prop) [Decidable p] : Except Error Unit :=
  validateField "Stcm::InstructionItem::Parameter" cond p

def validate (p : Parameter) (fileSize : Nat) : Except Error Unit :=
  if typeTag p.param0 = Type0.memOffset then do
    check "Value(param_0) < file_size" ((value p.param0).toNat < fileSize)
    validate48 p.param4 fileSize
    validate48 p.param8 fileSize
  else if typeTag p.param0 = Type0.indirect then do
    check "Value(param_0) < 256 && param_4 == 0x40000000"
      (value p.param0 < 256 ∧ p.param4 = 0x40000000)
    validate48 p.param8 fileSize
  else if typeTag p.param0 = Type0.special then
    if (Type0Special.readStackMin ≤ p.param0 ∧ p.param0 ≤ Type0Special.readStackMax) ∨
        (Type0Special.read4acMin ≤ p.param0 ∧ p.param0 ≤ Type0Special.read4acMax) then do
      check "param_4 == 0x40000000" (p.param4 = 0x40000000)
      check "param_8 == 0x40000000" (p.param8 = 0x40000000)
    else if p.param0 = Type0Special.instrPtr0 ∨ p.param0 = Type0Special.instrPtr1 then do
      check "param_4 < file_size" (p.param4.toNat < fileSize)
      check "param_8 == 0x40000000" (p.param8 = 0x40000000)
    else if p.param0 = Type0Special.collLink then do
      check "param_4 + 8 < file_size" ((p.param4 + 8).toNat < fileSize)
      check "param_8 == 0" (p.param8 = 0)
    else if p.param0 = Type0Special.expansion then do
      check "param_4 + 80 < file_size" ((p.param4 + 80).toNat < fileSize)
      check "param_8 == 0" (p.param8 = 0)
    else check "!\"Unknown special\"" False
  else check "!\"Unknown type0\"" False

end Parameter

open Parameter

/-- `Param48::GetVariant` -/
def Param48.parse (ctx : Context) (x : UInt32) : Except Error (Context × Param48) :=
  if typeTag x = Type48.memOffset then do
    let (ctx, l) ← ctx.getLabelTo (value x).toNat
    pure (ctx, .memOffset l)
  else if typeTag x = Type48.immediate then pure (ctx, .immediate (value x))
  else if typeTag x = Type48.indirect then pure (ctx, .indirect (value x))
  else if isReadStack x then pure (ctx, .readStack (x - Type48Special.readStackMin))
  else if isRead4ac x then pure (ctx, .read4ac (x - Type48Special.read4acMin))
  else throw (.assertionFailed "Invalid 48Special param")

/-- `Param::GetVariant` -/
def Param.parse (ctx : Context) (p : Parameter) : Except Error (Context × Param) := do
  p.validate ctx.getSize
  if typeTag p.param0 = Type0.memOffset then do
    let (ctx, target) ← ctx.getLabelTo (value p.param0).toNat
    let (ctx, param4) ← Param48.parse ctx p.param4
    let (ctx, param8) ← Param48.parse ctx p.param8
    pure (ctx, .memOffset target param4 param8)
  else if typeTag p.param0 = Type0.indirect then do
    let (ctx, param8) ← Param48.parse ctx p.param8
    pure (ctx, .indirect (value p.param0) param8)
  else if typeTag p.param0 = Type0.special then
    if Type0Special.readStackMin ≤ p.param0 ∧ p.param0 ≤ Type0Special.readStackMax then
      pure (ctx, .readStack (p.param0 - Type0Special.readStackMin))
    else if Type0Special.read4acMin ≤ p.param0 ∧ p.param0 ≤ Type0Special.read4acMax then
      pure (ctx, .read4ac (p.param0 - Type0Special.read4acMin))
    else if p.param0 = Type0Special.instrPtr0 then do
      let (ctx, l) ← ctx.getLabelTo p.param4.toNat
      pure (ctx, .instrPtr0 l)
    else if p.param0 = Type0Special.instrPtr1 then do
      let (ctx, l) ← ctx.getLabelTo p.param4.toNat
      pure (ctx, .instrPtr1 l)
    else if p.param0 = Type0Special.collLink then do
      let (ctx, l) ← ctx.getLabelTo p.param4.toNat
      pure (ctx, .collLink l)
    else if p.param0 = Type0Special.expansion then do
      let (ctx, l) ← ctx.getLabelTo p.param4.toNat
      pure (ctx, .expansion l)
    else throw (.assertionFailed "Invalid special parameter type")
  else throw (.assertionFailed "Invalid parameter type")

def parseParams (ctx : Context) (src : Source) : Nat → Except Error (Context × List Param)
  | 0 => pure (ctx, [])
  | n + 1 => do
      let (raw, src) ← src.readGen Parameter
      let (ctx, p) ← Param.parse ctx raw
      let (ctx, ps) ← parseParams ctx src n
      pure (ctx, p :: ps)

def parse (ctx : Context) (src : Source) : Except Error (Context × InstructionItem) := do
  let (instr, src) ← src.readGen Header
  instr.validate ctx.getSize
  let (ctx, opcodeTarget) ←
    if instr.isCall ≠ 0 then do
      let (ctx, l) ← ctx.getLabelTo instr.opcode.toNat
      pure (ctx, OpcodeTarget.target l)
    else pure (ctx, OpcodeTarget.opcode instr.opcode)
  let (ctx, params) ← parseParams ctx src instr.paramCount.toNat
  pure (ctx, { params, opcodeTarget })

/-- `CreateAndInsert` up to the recursive parse, with the new item. -/
def insert (ctx : Context) (ptr : ItemPointer) :
    Except Error (Context × Nat × InstructionItem) := do
  let src ← ctx.getSource ptr
  src.checkSize (Pod.size Header)
  let inst ← src.preadGen Header 0
  src.checkSize inst.size.toNat
  let (ctx, instruction) ← parse ctx src
  let (nitem, ctx) := ctx.create (.instruction instruction)
  let ctx ← ctx.splitItem ptr.item ptr.offset nitem
  let remData := inst.size.toNat - Pod.size Header - Pod.size Parameter * inst.paramCount.toNat
  let ctx ← if remData ≠ 0 then ctx.moveNextToChild nitem.id remData else pure ctx
  let (it, children) ← ctx.get nitem.id
  require (it.getSize children = inst.size.toNat)
    (Error.assertionFailed "ret.GetSize() == inst.size")
  pure (ctx, nitem.id, instruction)

end InstructionItem

end Stcm

end Neptools

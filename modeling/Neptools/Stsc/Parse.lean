import Neptools.Format.CStringItem
import Neptools.Stsc.Flavor

/-!
Reading an STSC file. The items are split out of the raw bytes one by one:
the header first, then the instruction at the entry point, and from there on
whatever an instruction refers to or runs into, as long as it is not read yet.
-/

namespace Neptools

open Lib

namespace Stsc

/-! The arguments of simple instructions. -/

/-- An argument as it stands in the file. -/
inductive RawArg
  | uint8 (val : UInt8)
  | uint16 (val : UInt16)
  | uint32 (val : UInt32)
  | float (bits : UInt32)
  | string (pos : UInt32)
  | code (pos : UInt32)
  | data (pos : UInt32)
  deriving DecidableEq

namespace RawArg

def ofBytes : ArgType → Bytes → RawArg
  | .uint8, bs => uint8 (Pod.ofBytes bs)
  | .uint16, bs => uint16 (Pod.ofBytes bs)
  | .uint32, bs => uint32 (Pod.ofBytes bs)
  | .float, bs => float (Pod.ofBytes bs)
  | .string, bs => string (Pod.ofBytes bs)
  | .code, bs => code (Pod.ofBytes bs)
  | .data, bs => data (Pod.ofBytes bs)

def validateLabel (r : UInt32) (size : Nat) : Except Error Unit :=
  validateField "Stsc::Instruction" "r <= size" (r.toNat ≤ size)

def validate (size : Nat) : RawArg → Except Error Unit
  | string pos => validateLabel pos size
  | code pos => validateLabel pos size
  | data pos => validateLabel pos size
  | _ => pure ()

def parseLabel (ctx : Context) (r : UInt32) : Except Error (Context × Option LabelPtr) :=
  if r = 0 then pure (ctx, none)
  else do
    let (ctx, l) ← ctx.getLabelTo r.toNat
    pure (ctx, some l)

/-- The label of a text that is not read yet gets a name from it. -/
def parseString (ctx : Context) (r : UInt32) : Except Error (Context × Option LabelPtr) :=
  if r = 0 then pure (ctx, none)
  else do
    let ptr ← ctx.getPointer r.toNat
    if ctx.isRaw ptr.item then do
      let src ← ctx.getSource ptr
      let string ← src.preadCString 0
      let (ctx, l) ← ctx.getLabelToNamed r.toNat (CStringItem.getLabelName string)
      pure (ctx, some l)
    else do
      let (ctx, l) ← ctx.getLabelTo r.toNat
      pure (ctx, some l)

def parse (ctx : Context) : RawArg → Except Error (Context × Arg)
  | uint8 val => pure (ctx, .uint8 val)
  | uint16 val => pure (ctx, .uint16 val)
  | uint32 val => pure (ctx, .uint32 val)
  | float bits => pure (ctx, .float bits)
  | string pos => do
      let (ctx, l) ← parseString ctx pos
      pure (ctx, .string l)
  | code pos => do
      let (ctx, l) ← parseLabel ctx pos
      pure (ctx, .code l)
  | data pos => do
      let (ctx, l) ← parseLabel ctx pos
      pure (ctx, .data l)

end RawArg

/-- The members of a `PODTuple`. -/
def rawArgs : List ArgType → Bytes → List RawArg
  | [], _ => []
  | t :: ts, bs => RawArg.ofBytes t (bs.take t.size) :: rawArgs ts (bs.drop t.size)

def argsSize (ts : List ArgType) : Nat := (ts.map ArgType.size).sum

def validateArgs (size : Nat) : List RawArg → Except Error Unit
  | [] => pure ()
  | a :: as => do
      a.validate size
      validateArgs size as

def parseArgs (ctx : Context) : List RawArg → Except Error (Context × List Arg)
  | [] => pure (ctx, [])
  | a :: as => do
      let (ctx, arg) ← a.parse ctx
      let (ctx, args) ← parseArgs ctx as
      pure (ctx, arg :: args)

def parseSimple (ctx : Context) (noReturn : Bool) (ts : List ArgType) (src : Source) :
    Except Error (Context × Instruction) := do
  src.checkSize (argsSize ts + 1)
  let (raw, _) ← src.read (argsSize ts)
  validateArgs ctx.getSize (rawArgs ts raw.1)
  let (ctx, args) ← parseArgs ctx (rawArgs ts raw.1)
  pure (ctx, .simple noReturn args)

/-! The other instructions. -/

def parseTargets (ctx : Context) (src : Source) : Nat → Except Error (Context × List LabelPtr)
  | 0 => pure (ctx, [])
  | n + 1 => do
      let (t, src) ← src.readUint32 .little
      validateField "Stsc::InstructionRndJumpItem" "t < ctx.GetSize()" (t.toNat < ctx.getSize)
      let (ctx, l) ← ctx.getLabelTo t.toNat
      let (ctx, ls) ← parseTargets ctx src n
      pure (ctx, l :: ls)

def parseRndJump (ctx : Context) (src : Source) : Except Error (Context × Instruction) := do
  src.checkRemainingSize 1
  let (n, src) ← src.readUint8 .little
  src.checkRemainingSize (4 * n.toNat)
  let (ctx, tgts) ← parseTargets ctx src n.toNat
  pure (ctx, .rndJump tgts)

namespace InstructionJumpIfItem

def FixParams.validate (p : FixParams) (remSize size : Nat) : Except Error Unit := do
  validateField "Stsc::InstructionJumpIfItem::FixParams"
    "this->size * sizeof(NodeParams) <= rem_size" (p.size.toNat * Pod.size NodeParams ≤ remSize)
  validateField "Stsc::InstructionJumpIfItem::FixParams" "tgt < size" (p.tgt.toNat < size)

def NodeParams.validate (p : NodeParams) (size : UInt16) : Except Error Unit := do
  validateField "Stsc::InstructionJumpIfItem::NodeParams" "left <= size" (p.left ≤ size)
  validateField "Stsc::InstructionJumpIfItem::NodeParams" "right <= size" (p.right ≤ size)

def parseTree (size : UInt16) (src : Source) : Nat → Except Error (List Node)
  | 0 => pure []
  | n + 1 => do
      let (nd, src) ← src.readGen NodeParams
      nd.validate size
      let tree ← parseTree size src n
      pure ({ operation := nd.operation, value := nd.value, left := nd.left.toNat
              right := nd.right.toNat } :: tree)

def parse (ctx : Context) (src : Source) : Except Error (Context × Instruction) := do
  src.checkRemainingSize (Pod.size FixParams)
  let (fp, src) ← src.readGen FixParams
  fp.validate (src.size - src.get) ctx.getSize
  let (ctx, tgt) ← ctx.getLabelTo fp.tgt.toNat
  src.checkRemainingSize (fp.size.toNat * Pod.size NodeParams)
  let tree ← parseTree fp.size src fp.size.toNat
  pure (ctx, .jumpIf tgt tree)

end InstructionJumpIfItem

namespace InstructionJumpSwitchItem

/-- The flag in `size` is not taken off here. -/
def FixParams.validate (p : FixParams) (remSize : Nat) : Except Error Unit :=
  validateField "Stsc::InstructionJumpSwitchItemNoire::FixParams"
    "size * sizeof(ExpressionParams) <= rem_size"
    (p.size.toNat * Pod.size ExpressionParams ≤ remSize)

def ExpressionParams.validate (p : ExpressionParams) (size : Nat) : Except Error Unit :=
  validateField "Stsc::InstructionJumpSwitchItemNoire::ExpressionParams" "tgt < size"
    (p.tgt.toNat < size)

def FixParams.lastIsDefault (p : FixParams) : Bool := p.size &&& 0x8000 ≠ 0

def FixParams.count (p : FixParams) : UInt16 :=
  if p.lastIsDefault then p.size &&& 0x7ff else p.size

def parseExpressions (ctx : Context) (src : Source) :
    Nat → Except Error (Context × Source × List Expression)
  | 0 => pure (ctx, src, [])
  | n + 1 => do
      let (exp, src) ← src.readGen ExpressionParams
      exp.validate ctx.getSize
      let (ctx, target) ← ctx.getLabelTo exp.tgt.toNat
      let (ctx, src, exps) ← parseExpressions ctx src n
      pure (ctx, src, { expression := exp.expression, target } :: exps)

/-- `Parse_`, with what is left of the source. -/
def parse (ctx : Context) (src : Source) :
    Except Error (Context × Source × InstructionJumpSwitchItem) := do
  src.checkRemainingSize (Pod.size FixParams)
  let (fp, src) ← src.readGen FixParams
  fp.validate (src.size - src.get)
  let (ctx, src, expressions) ← parseExpressions ctx src fp.count.toNat
  pure (ctx, src,
    { expectedVal := fp.expectedVal, lastIsDefault := fp.lastIsDefault, expressions })

end InstructionJumpSwitchItem

def parseJumpSwitchNoire (ctx : Context) (src : Source) :
    Except Error (Context × Instruction) := do
  let (ctx, _, switch) ← InstructionJumpSwitchItem.parse ctx src
  pure (ctx, .jumpSwitchNoire switch)

def parseJumpSwitchPotbb (ctx : Context) (src : Source) :
    Except Error (Context × Instruction) := do
  let (ctx, src, switch) ← InstructionJumpSwitchItem.parse ctx src
  src.checkRemainingSize 1
  let (trailingByte, _) ← src.readUint8 .little
  pure (ctx, .jumpSwitchPotbb switch trailingByte)

/-- The constructors, which read what is behind the opcode. -/
def parseInstruction (ctx : Context) (src : Source) :
    InstructionType → Except Error (Context × Instruction)
  | .simple noReturn ts => parseSimple ctx noReturn ts src
  | .rndJump => parseRndJump ctx src
  | .unimplemented => throw (.decodeError "Unimplemented instruction")
  | .jumpIf => InstructionJumpIfItem.parse ctx src
  | .jumpSwitchNoire => parseJumpSwitchNoire ctx src
  | .jumpSwitchPotbb => parseJumpSwitchPotbb ctx src

/-- `InstructionBase::CreateAndInsert` up to `PostInsert`, with the new item. -/
def InstructionItem.insert (f : Flavor) (ctx : Context) (ptr : ItemPointer) :
    Except Error (Context × Nat × Instruction) := do
  let src ← ctx.getSource ptr
  src.checkSize 1
  let (opcode, src) ← src.readUint8 .little
  let (ctx, instruction) ← parseInstruction ctx src (instructionMap f opcode)
  let (nitem, ctx) := ctx.create (.stscInstruction { opcode, instruction })
  let ctx ← ctx.splitItem ptr.item ptr.offset nitem
  pure (ctx, nitem.id, instruction)

/-! The header. -/

namespace HeaderItem

/-- The length of a header with the given flags. -/
def Header.length (h : Header) : Nat :=
  let hdrLen := Pod.size Header
  let hdrLen := if h.flags &&& 1 ≠ 0 then hdrLen + 32 else hdrLen
  let hdrLen := if h.flags &&& 2 ≠ 0 then hdrLen + Pod.size ExtraHeaders2 else hdrLen
  if h.flags &&& 4 ≠ 0 then hdrLen + 2 else hdrLen

def Header.validate (h : Header) (size : Nat) : Except Error Unit := do
  validateField "Stsc::HeaderItem::Header" "memcmp(magic, \"STSC\", 4) == 0"
    (h.magic = HeaderItem.magic)
  validateField "Stsc::HeaderItem::Header" "entry_point < size - 1"
    (h.entryPoint.toNat < (size + 2 ^ 64 - 1) % 2 ^ 64)
  validateField "Stsc::HeaderItem::Header" "(flags & ~0x07) == 0" (h.flags &&& ~~~0x07 = 0)
  validateField "Stsc::HeaderItem::Header" "entry_point >= hdr_len"
    (h.length ≤ h.entryPoint.toNat)

/-- A record that is there when its flag is set. -/
def readExtra (α : Type) [Pod α] (src : Source) (flag : UInt32) :
    Except Error (Option α × Source) :=
  if flag ≠ 0 then do
    let (a, src) ← src.readGen α
    pure (some a, src)
  else pure (none, src)

/-- "entry_point" -/
def entryPointName : LabelPtr := [0x65, 0x6e, 0x74, 0x72, 0x79, 0x5f, 0x70, 0x6f, 0x69, 0x6e, 0x74]

def parse (ctx : Context) (src : Source) : Except Error (Context × HeaderItem) := do
  src.checkRemainingSize (Pod.size Header)
  let (hdr, src) ← src.readGen Header
  hdr.validate src.size
  let ptr ← ctx.getPointer hdr.entryPoint.toNat
  let (ctx, entryPoint) := ctx.createLabelFallback entryPointName ptr
  let (extraHeaders1, src) ← readExtra (ByteArr 32) src (hdr.flags &&& 1)
  let (extraHeaders2, src) ← readExtra ExtraHeaders2 src (hdr.flags &&& 2)
  let (extraHeaders4, _) ← readExtra UInt16 src (hdr.flags &&& 4)
  pure (ctx, { entryPoint, extraHeaders1, extraHeaders2, extraHeaders4 })

/-- `HeaderItem::CreateAndInsert` up to the first instruction. -/
def insert (ctx : Context) (ptr : ItemPointer) : Except Error (Context × HeaderItem) := do
  let src ← ctx.getSource ptr
  let (ctx, hdr) ← parse ctx src
  let ctx ← ctx.splitCreate ptr.item ptr.offset (.stscHeader hdr)
  pure (ctx, hdr)

end HeaderItem

end Stsc

end Neptools

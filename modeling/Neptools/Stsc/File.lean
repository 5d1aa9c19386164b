import Neptools.Lib.Worklist
import Neptools.Stcm.Tables
import Neptools.Stsc.Parse

/-!
Reading a whole STSC file: from the entry point on, an instruction leads to its texts, to
the code it refers to, and to the instruction behind it. The recursion of the source is a
list of the calls that are still to be made.
-/

namespace Neptools

open Lib

namespace Stsc

/-- A call of `PostInsert`. -/
inductive Visit
  /-- `MaybeCreate<CStringItem>` -/
  | string (l : LabelPtr)
  /-- `MaybeCreateUnchecked<InstructionBase>` -/
  | code (l : LabelPtr)
  /-- `MaybeCreate<InstructionBase>` -/
  | checkedCode (l : LabelPtr)
  /-- `MaybeCreateUnchecked<InstructionBase>`, at the item behind another one -/
  | next (id : Nat)
  deriving DecidableEq

def Arg.visits : Arg → List Visit
  | .string (some l) => [.string l]
  | .code (some l) => [.code l]
  | _ => []

def InstructionJumpSwitchItem.visits (id : Nat) (i : InstructionJumpSwitchItem) : List Visit :=
  i.expressions.map (fun e => .checkedCode e.target) ++ if i.lastIsDefault then [] else [.next id]

/-- `PostInsert` -/
def Instruction.visits (id : Nat) : Instruction → List Visit
  | simple noReturn args => args.flatMap Arg.visits ++ if noReturn then [] else [.next id]
  | rndJump tgts => tgts.map .code ++ [.next id]
  | jumpIf tgt _ => [.code tgt, .next id]
  | jumpSwitchNoire switch => switch.visits id
  | jumpSwitchPotbb switch _ => switch.visits id

namespace InstructionItem

/-- The item is made, and its `PostInsert` follows. -/
def createAndInsert (f : Flavor) (ctx : Context) (ptr : ItemPointer) :
    Except Error (Context × List Visit) := do
  let (ctx, id, instruction) ← insert f ctx ptr
  pure (ctx, instruction.visits id)

def maybeCreateUnchecked (f : Flavor) (ctx : Context) (ptr : ItemPointer) :
    Except Error (Context × List Visit) :=
  if ctx.isRaw ptr.item then createAndInsert f ctx ptr else pure (ctx, [])

/-- What is not raw any more has to be an instruction, and the pointer one to its beginning. -/
def maybeCreate (f : Flavor) (ctx : Context) (ptr : ItemPointer) :
    Except Error (Context × List Visit) :=
  if ctx.isRaw ptr.item then createAndInsert f ctx ptr
  else do
    let (it, _) ← ctx.get ptr.item
    require (ptr.offset = 0) (Error.assertionFailed "offset == 0")
    match it.body with
    | .stscInstruction _ => pure (ctx, [])
    | _ => throw .badCast

end InstructionItem

/-- `&*++Iterator()` -/
def nextPointer (ctx : Context) (id : Nat) : Except Error ItemPointer :=
  match ctx.children.next? (Context.isItem id) with
  | some (it, _) => pure { item := it.id, offset := 0 }
  | none => throw .undefinedBehaviour

def Visit.make (f : Flavor) (ctx : Context) : Visit → Except Error (Context × List Visit)
  | .string l => do
      let ptr ← ctx.getPtr l
      let (ctx, _) ← CStringItem.maybeCreate ctx ptr
      pure (ctx, [])
  | .code l => do
      let ptr ← ctx.getPtr l
      InstructionItem.maybeCreateUnchecked f ctx ptr
  | .checkedCode l => do
      let ptr ← ctx.getPtr l
      InstructionItem.maybeCreate f ctx ptr
  | .next id => do
      let ptr ← nextPointer ctx id
      InstructionItem.maybeCreateUnchecked f ctx ptr

def HeaderItem.createAndInsert (f : Flavor) (ctx : Context) (ptr : ItemPointer) :
    Except Error (Context × List Visit) := do
  let (ctx, hdr) ← insert ctx ptr
  let entryPoint ← ctx.getPtr hdr.entryPoint
  InstructionItem.createAndInsert f ctx entryPoint

namespace File

/-- The header of an empty file. The raw item is replaced by the end of the file; it can
still be read from, but nothing can be split out of it. -/
def readDetached (ctx : Context) (src : Source) : Except Error (Worklist Context Visit) := do
  let src ← src.sub 0 src.size
  let _ ← HeaderItem.parse ctx src
  throw .undefinedBehaviour

/-- `Parse_`, up to the calls of the first instruction. -/
def start (f : Flavor) (src : Source) : Except Error (Worklist Context Visit) := do
  let ctx ← (Context.root src).splitCreate 0 src.size .eof
  if src.size = 0 then readDetached ctx src
  else do
    let (state, todo) ← HeaderItem.createAndInsert f ctx { item := 0, offset := 0 }
    pure { state, todo }

/-- `Parse_`, with the next `n` calls. -/
def parse (f : Flavor) (src : Source) (n : Nat) : Except Error (Worklist Context Visit) := do
  let w ← start f src
  w.steps (Visit.make f) n

end File

end Stsc

end Neptools

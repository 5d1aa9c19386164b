import Neptools.Lib.Run
import Neptools.Stcm.Data

/-!
Reading a whole STCM file. Behind the tables, what is read next is found while
reading: an instruction leads to its targets, to the instruction behind it and to
its data. The recursion of the source is a list of what is still to be visited.
-/

namespace Neptools

open Lib

namespace Stcm

/-- Something that has to be read if it is raw, and has to be of its kind else. -/
inductive Visit
  | code (l : LabelPtr)
  | data (l : LabelPtr)
  /-- The instruction behind an item. -/
  | next (id : Nat)
  deriving DecidableEq

namespace Visit

def pointer (ctx : Context) : Visit → Except Error ItemPointer
  | code l => ctx.getPtr l
  | data l => ctx.getPtr l
  | next id =>
      match ctx.children.next? (Context.isItem id) with
      | some (it, _) => pure { item := it.id, offset := 0 }
      | none => throw .undefinedBehaviour

end Visit

/-- `AsChecked0` of an item that is read already. -/
def checkKind (ctx : Context) (ptr : ItemPointer) (kind : Body → Bool) : Except Error Unit := do
  let (it, _) ← ctx.get ptr.item
  require (ptr.offset = 0) (Error.assertionFailed "offset == 0")
  require (kind it.body = true) Error.badCast

namespace InstructionItem

def noReturns : List UInt32 := [0, 6]

def Param.visits : Param → List Visit
  | .memOffset target _ _ => [.data target]
  | .instrPtr0 target => [.code target]
  | .instrPtr1 target => [.code target]
  | _ => []

/-- Whether the instruction behind is read too. -/
def returns (i : InstructionItem) : Bool :=
  match i.opcodeTarget with
  | .target _ => true
  | .opcode opcode => opcode ∉ noReturns

/-- The recursive calls of `CreateAndInsert`. -/
def visits (i : InstructionItem) (id : Nat) : List Visit :=
  (match i.opcodeTarget with
    | .target l => [.code l]
    | .opcode _ => []) ++
  (if i.returns then [.next id] else []) ++ i.params.flatMap Param.visits

def isInstruction : Body → Bool
  | .instruction _ => true
  | _ => false

/-- `MaybeCreate`, with the visits that follow. -/
def maybeCreate (ctx : Context) (ptr : ItemPointer) : Except Error (Context × List Visit) :=
  if ctx.isRaw ptr.item then do
    let (ctx, id, i) ← insert ctx ptr
    pure (ctx, i.visits id)
  else do
    checkKind ctx ptr isInstruction
    pure (ctx, [])

end InstructionItem

namespace DataItem

def isData : Body → Bool
  | .data _ => true
  | _ => false

def maybeCreate (factories : List DataFactory) (ctx : Context) (ptr : ItemPointer) :
    Except Error Context :=
  if ctx.isRaw ptr.item then createAndInsert factories ctx ptr
  else do
    checkKind ctx ptr isData
    pure ctx

end DataItem

/-- The items, and what is still to be visited. -/
structure Walk where
  ctx : Context
  todo : List Visit

namespace Walk

/-- The first visit is made, and what it leads to comes before the others. -/
def step (factories : List DataFactory) (w : Walk) : Except Error Walk :=
  match w.todo with
  | [] => pure w
  | .data l :: todo => do
      let ptr ← Visit.pointer w.ctx (.data l)
      let ctx ← DataItem.maybeCreate factories w.ctx ptr
      pure { ctx, todo }
  | v :: todo => do
      let ptr ← v.pointer w.ctx
      let (ctx, visits) ← InstructionItem.maybeCreate w.ctx ptr
      pure { ctx, todo := visits ++ todo }

def steps (factories : List DataFactory) (w : Walk) (n : Nat) : Except Error Walk :=
  run (fun w (_ : Unit) => w.step factories) w (List.replicate n ())

end Walk

def ExportsItem.EntryType.visit (e : ExportsItem.EntryType) : Visit :=
  match e.type with
  | .code => .code e.lbl
  | .data => .data e.lbl

namespace File

/-- `Parse_` up to what is exported. -/
def start [FixedString] (src : Source) : Except Error Walk := do
  let ctx ← (Context.root src).splitCreate 0 src.size .eof
  let (ctx, entries) ← HeaderItem.insert ctx { item := 0, offset := 0 }
  pure { ctx, todo := entries.map ExportsItem.EntryType.visit }

/-- `Parse_` returns, with these items. -/
def Parses [FixedString] (factories : List DataFactory) (src : Source) (ctx : Context) : Prop :=
  ∃ w n, start src = .ok w ∧ w.steps factories n = .ok { ctx, todo := [] }

end File

end Stcm

end Neptools

import Neptools.Gbnl.Parse
import Neptools.Stcm.StringData
import Neptools.Stcm.Tables

/-!
Reading the data of an STCM file. What a header says to be data becomes its
child, and then it is looked at for numbers, for strings and for message tables.
-/

namespace Neptools

open Lib

namespace Stcm

def GbnlItem.insert (ctx : Context) (ptr : ItemPointer) : Except Error Context := do
  let src ← ctx.getSource ptr
  let g ← Gbnl.parse src
  ctx.splitCreate ptr.item ptr.offset (.gbnl g)

/-- `PrimitiveItem::CreateAndInsert`; `body` is the kind of the item. -/
def PrimitiveItem.insert (body : UInt32 → Body) (ctx : Context) (ptr : ItemPointer) :
    Except Error Context := do
  let src ← ctx.getSource ptr
  let value ← src.preadGen UInt32 0
  ctx.splitCreate ptr.item ptr.offset (body value)

/-- The heuristics. They are asked in the order in which they are registered. -/
inductive DataFactory
  | int32
  | float
  | stringData
  | gbnl
  deriving Repr, DecidableEq

namespace DataFactory

/-- The first four bytes of a header at the end of the source are "GBNL". -/
def isGbnl (src : Source) : Except Error Bool :=
  if Pod.size Gbnl.Header < src.size then do
    let buf ← src.pread (src.size - Pod.size Gbnl.Header) 4
    pure (buf.1 = [0x47, 0x42, 0x4e, 0x4c])
  else pure false

/-- The first child, and its bytes if it is a raw item. -/
def frontRaw : ItemList → Option (Nat × Source)
  | .cons child _ _ =>
      match child.body with
      | .raw src => some (child.id, src)
      | _ => none
  | .nil => none

/-- One number of the type `typeId`. -/
def isPrimitive (typeId : UInt32) (d : DataItem) (src : Source) : Bool :=
  decide (d.type = typeId ∧ d.offsetUnit = 1 ∧ d.field8 = 1 ∧ src.size = Pod.size UInt32)

def checkFun (body : UInt32 → Body) (typeId : UInt32) (ctx : Context) (id : Nat) :
    Except Error (Context × Bool) := do
  let (it, children) ← ctx.get id
  match it.body, frontRaw children with
  | .data d, some (child, src) =>
      if isPrimitive typeId d src then do
        let ctx ← PrimitiveItem.insert body ctx { item := child, offset := 0 }
        pure (ctx, true)
      else pure (ctx, false)
  | _, _ => pure (ctx, false)

/-- Whether the data are what the heuristic looks for. Then an item for them is
inserted. -/
def apply (ctx : Context) (id : Nat) : DataFactory → Except Error (Context × Bool)
  | int32 => checkFun .int32 0 ctx id
  | float => checkFun .float 1 ctx id
  | stringData => StringDataItem.maybeCreateAndReplace ctx id
  | gbnl => do
      let (_, children) ← ctx.get id
      match frontRaw children with
      | none => pure (ctx, false)
      | some (child, src) =>
          if ← isGbnl src then do
            let ctx ← GbnlItem.insert ctx { item := child, offset := 0 }
            pure (ctx, true)
          else pure (ctx, false)

def check (ctx : Context) (id : Nat) : List DataFactory → Except Error Context
  | [] => pure ctx
  | f :: fs => do
      let (ctx, found) ← f.apply ctx id
      if found then pure ctx else check ctx id fs

end DataFactory

namespace DataItem

def Header.validate (h : Header) (chunkSize : Nat) : Except Error Unit := do
  validateField "Stcm::DataItem::Header" "type < 0xff" (h.type < 0xff)
  validateField "Stcm::DataItem::Header" "length <= chunk_size" (h.length.toNat ≤ chunkSize)

/-- `CreateAndInsert` up to the heuristics, with the new item. -/
def insert (ctx : Context) (ptr : ItemPointer) : Except Error (Context × Nat) := do
  let (_, _, src) ← ctx.getRaw ptr.item
  let raw ← ctx.getRecord Header ptr
  raw.validate (src.size - ptr.offset - Pod.size Header)
  let (nitem, ctx) := ctx.create
    (.data { type := raw.type, offsetUnit := raw.offsetUnit, field8 := raw.field8 })
  let ctx ← ctx.splitItem ptr.item ptr.offset nitem
  let ctx ← if 0 < raw.length.toNat then ctx.moveNextToChild nitem.id raw.length.toNat
    else pure ctx
  let (it, children) ← ctx.get nitem.id
  require (it.getSize children = Pod.size Header + raw.length.toNat)
    (Error.assertionFailed "ret.GetSize() == sizeof(Header) + x.t.length")
  pure (ctx, nitem.id)

/-- The end of `CreateAndInsert`. -/
def heuristics (factories : List DataFactory) (ctx : Context) (id : Nat) :
    Except Error Context := do
  let (_, children) ← ctx.get id
  if children.length = 0 then pure ctx else DataFactory.check ctx id factories

def createAndInsert (factories : List DataFactory) (ctx : Context) (ptr : ItemPointer) :
    Except Error Context := do
  let (ctx, id) ← insert ctx ptr
  heuristics factories ctx id

end DataItem

end Stcm

end Neptools

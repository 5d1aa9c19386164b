import Neptools.Format.Context

/-!
Unparsed bytes, out of which the other items are split.
-/

namespace Neptools

open Lib

namespace Context

/-- `AsChecked<RawItem>` -/
def getRaw (ctx : Context) (id : Nat) : Except Error (Item × ItemList × Source) := do
  let (it, children) ← ctx.get id
  match it.body with
  | .raw src => pure (it, children, src)
  | _ => throw .badCast

def isRaw (ctx : Context) (id : Nat) : Bool :=
  match ctx.find? id with
  | some (it, _) => match it.body with
    | .raw _ => true
    | _ => false
  | none => false

/-- `InternalSlice` of `it`, whose bytes are `src`. -/
def internalSlice (ctx : Context) (it : Item) (src : Source) (spos slen : Nat) :
    Except Error (Item × Context) := do
  require (spos + slen ≤ src.size) (Error.assertionFailed "spos+slen <= GetSize()")
  let src ← src.sub spos slen
  let (nitem, ctx) := ctx.create (.raw src)
  pure ({ nitem with position := it.position + spos }, ctx)

/-- Three parts: what is before `pos`, the new item, and what is left. -/
def split2 (ctx : Context) (id pos : Nat) (nitem : Item) (nchildren : ItemList) :
    Except Error Context := do
  let (it, children, src) ← ctx.getRaw id
  let len := nitem.getSize nchildren
  require (pos ≤ src.size ∧ pos + len ≤ src.size)
    (Error.assertionFailed "pos <= GetSize() && pos+len <= GetSize()")
  let remLen := src.size - len - pos
  if pos = 0 ∧ remLen = 0 then ctx.replace id nitem nchildren
  else do
    -- `Slice` takes the labels off before it looks at the pieces
    let this (pieceEnd : Nat) : Piece := { item := { it with labels := [] }, children, pieceEnd }
    let (tail, ctx) ←
      if remLen = 0 then pure ([], ctx)
      else if pos = 0 then pure ([this src.size], ctx)
      else do
        let (rest, ctx) ← ctx.internalSlice it src (pos + len) remLen
        pure ([{ item := rest, children := .nil, pieceEnd := src.size }], ctx)
    let seq := (if pos = 0 then [] else [this pos]) ++
      [{ item := nitem, children := nchildren, pieceEnd := pos + len }] ++ tail
    let ctx ← ctx.slice id seq
    let src ← if pos = 0 then src.slice len remLen else src.slice 0 pos
    pure (ctx.updateItem id fun it => { it with body := .raw src })

/-- `SplitCreate` of an item that is made already. -/
def splitItem (ctx : Context) (id pos : Nat) (nitem : Item) : Except Error Context :=
  ctx.split2 id pos nitem .nil

/-- `Split(offset, size)`, with the new item. -/
def splitRaw (ctx : Context) (id offset size : Nat) : Except Error (Context × Nat) := do
  let (it, _, src) ← ctx.getRaw id
  let (nitem, ctx) ← ctx.internalSlice it src offset size
  let ctx ← ctx.split2 id offset nitem .nil
  pure (ctx, nitem.id)

/-- The first `size` bytes of the raw item that follows become the last child. -/
def moveNextToChild (ctx : Context) (id size : Nat) : Except Error Context := do
  match ctx.children.next? (isItem id) with
  | none => throw .undefinedBehaviour
  | some (next, _) => do
      require (ctx.isRaw next.id) (Error.assertionFailed "asserted_cast")
      let (ctx, nchild) ← ctx.splitRaw next.id 0 size
      let (child, grandchildren) ← ctx.get nchild
      let moved : ItemList := .single child grandchildren
      let rest := ctx.children.update (isItem nchild) fun _ _ => .nil
      pure { ctx with
        pmap := ctx.pmap.removedAll moved
        children := rest.update (isItem id) fun it children => .single it (children ++ moved) }

/-- The bytes from `ptr` on, to the end of its raw item. -/
def getSource (ctx : Context) (ptr : ItemPointer) : Except Error Source := do
  let (_, _, src) ← ctx.getRaw ptr.item
  require (ptr.offset ≤ src.size) (Error.assertionFailed "invalid offset")
  src.sub ptr.offset (src.size - ptr.offset)

end Context

end Neptools

import Mathlib.Data.FinEnum
import Neptools.Format.CStringItem
import Neptools.Stcm.Header

/-!
Reading the tables of an STCM file: the header says where the exports, the links
to other collections and the expansions are.
-/

namespace Neptools

open Lib

namespace Context

/-- `RawItem::Get` -/
def getRecord (α : Type) [Pod α] (ctx : Context) (ptr : ItemPointer) : Except Error α := do
  let (_, _, src) ← ctx.getRaw ptr.item
  require (ptr.offset ≤ src.size) (Error.assertionFailed "invalid offset")
  require (ptr.offset + Pod.size α ≤ src.size) (Error.decodeError "Premature end of data")
  src.preadGen α ptr.offset

/-- `RawItem::GetSource`, of the given length. -/
def getSourceOf (ctx : Context) (ptr : ItemPointer) (len : Nat) : Except Error Source := do
  let (_, _, src) ← ctx.getRaw ptr.item
  require (ptr.offset ≤ src.size) (Error.assertionFailed "invalid offset")
  require (ptr.offset + len ≤ src.size) (Error.decodeError "Premature end of data")
  src.sub ptr.offset len

/-- `GetPtr` of a label. -/
def getPtr (ctx : Context) (l : LabelPtr) : Except Error ItemPointer :=
  match ctx.labels.lookup l with
  | some (some ptr) => pure ptr
  | _ => throw .undefinedBehaviour

/-- `CreateLabelFallback` at a position. -/
def createLabelFallbackAt (ctx : Context) (name : LabelPtr) (pos : Nat) :
    Except Error (Context × LabelPtr) := do
  let ptr ← ctx.getPointer pos
  pure (ctx.createLabelFallback name ptr)

end Context

namespace Stcm

/-! The links to other collections. -/

namespace CollectionLinkItem

def Entry.validate (e : Entry) (fileSize : Nat) : Except Error Unit := do
  validateField "Stcm::CollectionLinkItem::Entry" "name_0 <= file_size" (e.name0.toNat ≤ fileSize)
  validateField "Stcm::CollectionLinkItem::Entry" "name_1 <= file_size" (e.name1.toNat ≤ fileSize)
  validateField "Stcm::CollectionLinkItem::Entry" "ptr == 0" (e.ptr = 0)
  validateField "Stcm::CollectionLinkItem::Entry" "field_0c == 0" (e.field0c = 0)
  validateField "Stcm::CollectionLinkItem::Entry"
    "field_10 == 0 && field_14 == 0 && field_18 == 0 && field_1c == 0"
    (e.field10 = 0 ∧ e.field14 = 0 ∧ e.field18 = 0 ∧ e.field1c = 0)

/-- The label of a name, which becomes a text of its own. -/
def parseName (ctx : Context) (name : UInt32) : Except Error (Context × Option LabelPtr) :=
  if name = 0 then pure (ctx, none)
  else do
    let ptr ← ctx.getPointer name.toNat
    let (ctx, str) ← CStringItem.maybeCreate ctx ptr
    let (ctx, l) ← ctx.getLabelToNamed name.toNat (CStringItem.getLabelName str)
    pure (ctx, some l)

def parse (ctx : Context) (src : Source) : Nat → Except Error (Context × List LinkEntry)
  | 0 => pure (ctx, [])
  | n + 1 => do
      let (e, src) ← src.readGen Entry
      e.validate ctx.getSize
      let (ctx, name0) ← parseName ctx e.name0
      let (ctx, name1) ← parseName ctx e.name1
      let (ctx, es) ← parse ctx src n
      pure (ctx, { name0, name1 } :: es)

end CollectionLinkItem

namespace CollectionLinkHeaderItem

def Header.validate (h : Header) (fileSize : Nat) : Except Error Unit := do
  validateField "Stcm::CollectionLinkHeaderItem::Header" "field_00 == 0" (h.field00 = 0)
  validateField "Stcm::CollectionLinkHeaderItem::Header" "offset <= file_size"
    (h.offset.toNat ≤ fileSize)
  validateField "Stcm::CollectionLinkHeaderItem::Header"
    "offset + sizeof(CollectionLinkItem::Entry)*count <= file_size"
    (h.offset.toNat + Pod.size CollectionLinkItem.Entry * h.count.toNat ≤ fileSize)
  validateField "Stcm::CollectionLinkHeaderItem::Header" "field_0c == 0" (h.field0c = 0)
  validateField "Stcm::CollectionLinkHeaderItem::Header"
    "field_10 == 0 && field_14 == 0 && field_18 == 0 && field_1c == 0"
    (h.field10 = 0 ∧ h.field14 = 0 ∧ h.field18 = 0 ∧ h.field1c = 0)
  validateField "Stcm::CollectionLinkHeaderItem::Header"
    "field_20 == 0 && field_24 == 0 && field_28 == 0 && field_2c == 0"
    (h.field20 = 0 ∧ h.field24 = 0 ∧ h.field28 = 0 ∧ h.field2c = 0)
  validateField "Stcm::CollectionLinkHeaderItem::Header"
    "field_30 == 0 && field_34 == 0 && field_38 == 0 && field_3c == 0"
    (h.field30 = 0 ∧ h.field34 = 0 ∧ h.field38 = 0 ∧ h.field3c = 0)

/-- "collection_link" -/
def dataName : LabelPtr :=
  [0x63, 0x6f, 0x6c, 0x6c, 0x65, 0x63, 0x74, 0x69, 0x6f, 0x6e, 0x5f, 0x6c, 0x69, 0x6e, 0x6b]

/-- Links at the end of the file: it is replaced by a table without entries. -/
def replaceEof (ctx : Context) (ptr : ItemPointer) (count : UInt32) : Except Error Context := do
  validateField "Stcm::CollectionLinkHeaderItem" "ptr2.offset == 0 && x.t.count == 0"
    (ptr.offset = 0 ∧ count = 0)
  let (it, _) ← ctx.get ptr.item
  match it.body with
  | .eof => do
      let (nitem, ctx) := ctx.create (.collectionLink [])
      ctx.replace ptr.item nitem .nil
  | _ => throw .badCast

/-- `CreateAndInsert` once the header is there. -/
def insertLinks (ctx : Context) (data : LabelPtr) (count : UInt32) : Except Error Context := do
  let ptr ← ctx.getPtr data
  if ctx.isRaw ptr.item then do
    let src ← ctx.getSourceOf ptr (count.toNat * Pod.size CollectionLinkItem.Entry)
    let (ctx, entries) ← CollectionLinkItem.parse ctx src count.toNat
    ctx.splitCreate ptr.item ptr.offset (.collectionLink entries)
  else replaceEof ctx ptr count

def createAndInsert (ctx : Context) (ptr : ItemPointer) : Except Error Context := do
  let raw ← ctx.getRecord Header ptr
  raw.validate ctx.getSize
  let (ctx, data) ← ctx.createLabelFallbackAt dataName raw.offset.toNat
  let ctx ← ctx.splitCreate ptr.item ptr.offset (.collectionLinkHeader data)
  insertLinks ctx data raw.count

end CollectionLinkHeaderItem

/-! The expansions. -/

/-- "expansion" -/
def expansionName : LabelPtr := [0x65, 0x78, 0x70, 0x61, 0x6e, 0x73, 0x69, 0x6f, 0x6e]

namespace ExpansionItem

def Header.validate (h : Header) (fileSize : Nat) : Except Error Unit := do
  validateField "Stcm::ExpansionItemItem::Header" "name < file_size" (h.name.toNat < fileSize)
  validateField "Stcm::ExpansionItemItem::Header" "ptr == 0" (h.ptr = 0)
  validateField "Stcm::ExpansionItemItem::Header" "p == 0" (∀ p ∈ h.pad.1, p = 0)

/-- The new item is returned too. -/
def createAndInsert (ctx : Context) (ptr : ItemPointer) : Except Error (Context × Nat) := do
  let raw ← ctx.getRecord Header ptr
  raw.validate ctx.getSize
  let (ctx, name) ← ctx.getLabelTo raw.name.toNat
  let id := ctx.nextId
  let ctx ← ctx.splitCreate ptr.item ptr.offset (.expansion { index := raw.index, name })
  let ptr ← ctx.getPtr name
  let (ctx, _) ← CStringItem.maybeCreate ctx ptr
  pure (ctx, id)

end ExpansionItem

namespace ExpansionsItem

/-- The loop over the expansions. The next one is read from the item that follows
the last one. -/
def createAll (ctx : Context) : (next : Option (Item × ItemList)) → Nat → Except Error Context
  | _, 0 => pure ctx
  | none, _ + 1 => throw .undefinedBehaviour
  | some (it, _), n + 1 => do
      let (ctx, lbl) := ctx.createLabelFallback expansionName { item := it.id, offset := 0 }
      let ptr ← ctx.getPtr lbl
      let (ctx, exp) ← ExpansionItem.createAndInsert ctx ptr
      createAll ctx (ctx.children.next? (Context.isItem exp)) n

def createAndInsert (ctx : Context) (ptr : ItemPointer) (count : UInt32) :
    Except Error Context := do
  let id := ctx.nextId
  let ctx ← ctx.splitCreate ptr.item ptr.offset .expansions
  let ctx ← ctx.moveNextToChild id (count.toNat * Pod.size ExpansionItem.Header)
  let (_, children) ← ctx.get id
  createAll ctx children.head? count.toNat

end ExpansionsItem

/-! The exports. -/

namespace ExportsItem

def Type.ofUint32 (x : UInt32) : ExportsItem.Type := if x = 0 then .code else .data

def Entry.validate [FixedString] (e : Entry) (fileSize : Nat) : Except Error Unit := do
  validateField "Stcm::ExportsItem::Entry" "type == Type::CODE || type == Type::DATA"
    (e.type = ExportsItem.Type.code.toUint32 ∨ e.type = ExportsItem.Type.data.toUint32)
  validateField "Stcm::ExportsItem::Entry" "name.is_valid()" (FixedString.isValid e.name.1 = true)
  validateField "Stcm::ExportsItem::Entry" "offset < file_size" (e.offset.toNat < fileSize)

def parse [FixedString] (size : Nat) (ctx : Context) (src : Source) :
    Nat → Except Error (Context × List EntryType)
  | 0 => pure (ctx, [])
  | n + 1 => do
      let (e, src) ← src.readGen Entry
      e.validate size
      let (ctx, lbl) ← ctx.createLabelFallbackAt (FixedString.cStr e.name) e.offset.toNat
      let (ctx, es) ← parse size ctx src n
      pure (ctx, { type := Type.ofUint32 e.type, name := e.name, lbl } :: es)

/-- `CreateAndInsert` up to what is exported. -/
def insert [FixedString] (ctx : Context) (ptr : ItemPointer) (count : UInt32) :
    Except Error (Context × List EntryType) := do
  let src ← ctx.getSourceOf ptr (count.toNat * Pod.size Entry)
  let (ctx, entries) ← parse ctx.getSize ctx src count.toNat
  let ctx ← ctx.splitCreate ptr.item ptr.offset (.exports entries)
  pure (ctx, entries)

end ExportsItem

/-! The header. -/

namespace HeaderItem

/-- "exports" -/
def exportsName : LabelPtr := [0x65, 0x78, 0x70, 0x6f, 0x72, 0x74, 0x73]

/-- "collection_link_hdr" -/
def collectionLinkName : LabelPtr := CollectionLinkHeaderItem.dataName ++ [0x5f, 0x68, 0x64, 0x72]

/-- The label of the expansions, if there are some. -/
def parseExpansion (ctx : Context) (offset : UInt32) :
    Except Error (Context × Option LabelPtr) :=
  if offset ≠ 0 then do
    let (ctx, l) ← ctx.createLabelFallbackAt expansionName offset.toNat
    pure (ctx, some l)
  else pure (ctx, none)

def parse [FixedString] (ctx : Context) (hdr : Header) : Except Error (Context × HeaderItem) := do
  hdr.validate ctx.getSize
  let (ctx, exportSec) ← ctx.createLabelFallbackAt exportsName hdr.exportOffset.toNat
  let (ctx, collectionLink) ←
    ctx.createLabelFallbackAt collectionLinkName hdr.collectionLinkOffset.toNat
  let (ctx, expansion) ← parseExpansion ctx hdr.expansionOffset
  pure (ctx, { msg := hdr.msg, exportSec, collectionLink, expansion, field28 := hdr.field28 })

def insertExpansions (ctx : Context) (count : UInt32) : Option LabelPtr → Except Error Context
  | none => pure ctx
  | some l => do
      let ptr ← ctx.getPtr l
      ExpansionsItem.createAndInsert ctx ptr count

/-- `CreateAndInsert` up to what is exported. -/
def insert [FixedString] (ctx : Context) (ptr : ItemPointer) :
    Except Error (Context × List ExportsItem.EntryType) := do
  let raw ← ctx.getRecord Header ptr
  let (ctx, hdr) ← parse ctx raw
  let ctx ← ctx.splitCreate ptr.item ptr.offset (.header hdr)
  let ptr ← ctx.getPtr hdr.collectionLink
  let ctx ← CollectionLinkHeaderItem.createAndInsert ctx ptr
  let ctx ← insertExpansions ctx raw.expansionCount hdr.expansion
  let ptr ← ctx.getPtr hdr.exportSec
  ExportsItem.insert ctx ptr raw.exportCount

end HeaderItem

end Stcm

end Neptools

import Neptools.Lib.Hole
import Neptools.Source
import Neptools.Gbnl.Dump
import Neptools.Stcm.Items
import Neptools.Stsc.Items

/-!
Items. A file is a list of items, some of which have lists of items of their
own. Each item object has a number by which it is told apart from all others,
the position it was given last, and the labels that are attached to it.
-/

namespace Neptools

open Lib

/-- What an item is, by the class of its object. -/
inductive Body
  | raw (src : Source)
  | cString (string : Bytes)
  | int32 (value : UInt32)
  | float (bits : UInt32)
  | eof
  | header (header : Stcm.HeaderItem)
  | exports (entries : List Stcm.ExportsItem.EntryType)
  | collectionLinkHeader (data : LabelPtr)
  | collectionLink (entries : List Stcm.CollectionLinkItem.LinkEntry)
  | expansion (expansion : Stcm.ExpansionItem)
  | expansions
  | instruction (instruction : Stcm.InstructionItem)
  | data (data : Stcm.DataItem)
  | stringData (string : Bytes)
  | gbnl (gbnl : Gbnl)
  | stscHeader (header : Stsc.HeaderItem)
  | stscInstruction (instruction : Stsc.InstructionItem)

structure Item where
  id : Nat
  position : Nat
  /-- By offset. -/
  labels : List LabelPtr
  body : Body

abbrev ItemList := Forest Item

namespace Body

/-- `GetSize`, without the children. -/
def ownSize : Body → Nat
  | raw src => src.size
  | cString string => string.length + 1
  | int32 _ => 4
  | float _ => 4
  | eof => 0
  | header _ => Pod.size Stcm.HeaderItem.Header
  | exports entries => Pod.size Stcm.ExportsItem.Entry * entries.length
  | collectionLinkHeader _ => Pod.size Stcm.CollectionLinkHeaderItem.Header
  | collectionLink entries => entries.length * Pod.size Stcm.CollectionLinkItem.Entry
  | expansion _ => Pod.size Stcm.ExpansionItem.Header
  | expansions => 0
  | instruction i =>
      Pod.size Stcm.InstructionItem.Header +
        i.params.length * Pod.size Stcm.InstructionItem.Parameter
  | data _ => Pod.size Stcm.DataItem.Header
  | stringData string => Pod.size Stcm.DataItem.Header + (string.length + 1 + 3) / 4 * 4
  | gbnl g => g.getSize
  | stscHeader h => h.getSize
  | stscInstruction i => i.instruction.getSize

def fixup : Body → Body
  | gbnl g => gbnl g.recalcSize
  | b => b

/-- The argument of `Fixup_`. Only the first three have children. -/
def fixupOffset : Body → Nat
  | expansions => 0
  | instruction i =>
      Pod.size Stcm.InstructionItem.Header +
        i.params.length * Pod.size Stcm.InstructionItem.Parameter
  | data _ => Pod.size Stcm.DataItem.Header
  | b => b.ownSize

/-- `Dump_`, without the children, of an item of the given size. -/
def dump (v : LabelView) (size : Nat) : Body → Except Error (List Sink.Call)
  | raw src => pure [.write src.bytes]
  | cString string => pure [.write (string ++ [0])]
  | int32 value => pure [.write (toBytes value)]
  | float bits => pure [.write (toBytes bits)]
  | eof => pure []
  | header h => h.dump v
  | exports entries => Stcm.ExportsItem.dump v entries
  | collectionLinkHeader link => Stcm.CollectionLinkHeaderItem.dump v link
  | collectionLink entries => Stcm.CollectionLinkItem.dump v entries
  | expansion e => e.dump v
  | expansions => pure []
  | instruction i => i.dump v size
  | data d => pure (d.dump size)
  | stringData string => pure (Stcm.StringDataItem.dump string)
  | gbnl g => g.dump
  | stscHeader h => h.dump v
  | stscInstruction i => i.dump v

end Body

/-- The sizes of all items together. -/
def ItemList.getSize (f : ItemList) : Nat := f.weight fun it => it.body.ownSize

def Item.getSize (it : Item) (children : ItemList) : Nat :=
  it.body.ownSize + ItemList.getSize children

/-- The loops of `Fixup` and `Fixup_`. -/
def ItemList.fixup : Nat → ItemList → ItemList
  | _, .nil => .nil
  | pos, .cons it children siblings =>
      let it := { it with position := pos, body := it.body.fixup }
      let children := fixup (pos + it.body.fixupOffset) children
      .cons it children (fixup (pos + it.getSize children) siblings)

/-- What happens while items are dumped: `Dump` of an item is called, and that
calls functions of the sink. -/
inductive Event
  | item (id : Nat)
  | call (call : Sink.Call)

def ItemList.dump (v : LabelView) : ItemList → Except Error (List Event)
  | .nil => pure []
  | .cons it children siblings => do
      let calls ← it.body.dump v (it.getSize children)
      let inner ← dump v children
      let rest ← dump v siblings
      pure (.item it.id :: calls.map .call ++ inner ++ rest)

end Neptools

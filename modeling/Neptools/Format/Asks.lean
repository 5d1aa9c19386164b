import Neptools.Format.Item

/-!
How writing an item depends on the labels: it asks a few questions about them,
and nothing else about the other items. So two views that give the same answers
give the same bytes.
-/

namespace Neptools

open Lib

/-- `x` and `x'` are the same computation with the answers of two views. If not
`counts`, it never asks for the number of children. -/
inductive Asks (counts : Prop) (v v' : LabelView) :
    {α : Type} → Except Error α → Except Error α → Prop
  | pure {α : Type} (a : α) : Asks counts v v' (Pure.pure a) (Pure.pure a)
  | bind {α β : Type} {x x' : Except Error α} {f f' : α → Except Error β}
      (hx : Asks counts v v' x x') (hf : ∀ a, Asks counts v v' (f a) (f' a)) :
      Asks counts v v' (x >>= f) (x' >>= f')
  | toFilePos (l : LabelPtr) : Asks counts v v' (v.toFilePos l) (v'.toFilePos l)
  | exportCount (l : LabelPtr) : Asks counts v v' (v.exportCount l) (v'.exportCount l)
  | linkCount (l : LabelPtr) : Asks counts v v' (v.linkCount l) (v'.linkCount l)
  | expansionCount (hcounts : counts) (l : LabelPtr) :
      Asks counts v v' (v.expansionCount l) (v'.expansionCount l)

/-- What a view answers, the other answers too. -/
structure LabelView.Extends (counts : Prop) (v v' : LabelView) : Prop where
  toFilePos : ∀ l pos, v.toFilePos l = .ok pos → v'.toFilePos l = .ok pos
  exportCount : ∀ l n, v.exportCount l = .ok n → v'.exportCount l = .ok n
  linkCount : ∀ l n, v.linkCount l = .ok n → v'.linkCount l = .ok n
  expansionCount : counts → ∀ l n, v.expansionCount l = .ok n → v'.expansionCount l = .ok n

namespace Asks

variable {counts : Prop} {v v' : LabelView} {α : Type} {x x' : Except Error α}

theorem keep (h : Asks counts v v' x x') (hv : v.Extends counts v') {a : α} (hx : x = .ok a) :
    x' = .ok a := by
  induction h with
  | pure b => exact hx
  | bind hx' hf ihx ihf =>
      obtain ⟨b, hb, hx⟩ := bind_eq_ok.mp hx
      rw [ihx hb]
      exact ihf b hx
  | toFilePos l => exact hv.toFilePos l _ hx
  | exportCount l => exact hv.exportCount l _ hx
  | linkCount l => exact hv.linkCount l _ hx
  | expansionCount hcounts l => exact hv.expansionCount hcounts l _ hx

theorem toFilePosOrZero (l : Option LabelPtr) :
    Asks counts v v' (v.toFilePosOrZero l) (v'.toFilePosOrZero l) := by
  cases l with
  | none => exact .pure _
  | some l => exact .toFilePos l

end Asks

section

variable {counts : Prop} (v v' : LabelView)

namespace Stcm

theorem HeaderItem.asks (hcounts : counts) (h : HeaderItem) :
    Asks counts v v' (h.dump v) (h.dump v') := by
  have hexpansion : Asks counts v v' (dumpExpansion v h.expansion) (dumpExpansion v' h.expansion) := by
    cases h.expansion with
    | none => exact .pure _
    | some l => exact .bind (.toFilePos l) fun _ => .bind (.expansionCount hcounts l) fun _ => .pure _
  exact .bind (.toFilePos _) fun _ => .bind (.exportCount _) fun _ => .bind (.toFilePos _) fun _ =>
    .bind hexpansion fun _ => .pure _

theorem ExportsItem.asks (entries : List EntryType) :
    Asks counts v v' (ExportsItem.dump v entries) (ExportsItem.dump v' entries) := by
  induction entries with
  | nil => exact .pure _
  | cons e es ih => exact .bind (.toFilePos _) fun _ => .bind ih fun _ => .pure _

theorem CollectionLinkHeaderItem.asks (data : LabelPtr) :
    Asks counts v v' (CollectionLinkHeaderItem.dump v data)
      (CollectionLinkHeaderItem.dump v' data) :=
  .bind (.toFilePos _) fun _ => .bind (.linkCount _) fun _ => .pure _

theorem CollectionLinkItem.asks (entries : List LinkEntry) :
    Asks counts v v' (CollectionLinkItem.dump v entries) (CollectionLinkItem.dump v' entries) := by
  induction entries with
  | nil => exact .pure _
  | cons e es ih =>
      exact .bind (.toFilePosOrZero _) fun _ => .bind (.toFilePosOrZero _) fun _ =>
        .bind ih fun _ => .pure _

theorem ExpansionItem.asks (e : ExpansionItem) : Asks counts v v' (e.dump v) (e.dump v') :=
  .bind (.toFilePos _) fun _ => .pure _

namespace InstructionItem

theorem asks_param48 (p : Param48) : Asks counts v v' (p.dump v) (p.dump v') := by
  cases p with
  | memOffset target => exact .bind (.toFilePos _) fun _ => .pure _
  | _ => exact .pure _

theorem asks_param (p : Param) : Asks counts v v' (p.dump v) (p.dump v') := by
  refine .bind ?_ fun _ => .pure _
  cases p with
  | memOffset target param4 param8 =>
      exact .bind (.toFilePos _) fun _ => .bind (asks_param48 v v' _) fun _ =>
        .bind (asks_param48 v v' _) fun _ => .pure _
  | indirect param0 param8 => exact .bind (asks_param48 v v' _) fun _ => .pure _
  | readStack val => exact .pure _
  | read4ac val => exact .pure _
  | _ => exact .bind (.toFilePos _) fun _ => .pure _

theorem asks_params (params : List Param) :
    Asks counts v v' (dumpParams v params) (dumpParams v' params) := by
  induction params with
  | nil => exact .pure _
  | cons p ps ih => exact .bind (asks_param v v' p) fun _ => .bind ih fun _ => .pure _

theorem asks_target (target : OpcodeTarget) :
    Asks counts v v' (target.dump v) (target.dump v') := by
  cases target with
  | opcode code => exact .pure _
  | target lbl => exact .bind (.toFilePos _) fun _ => .pure _

theorem asks (i : InstructionItem) (size : Nat) :
    Asks counts v v' (i.dump v size) (i.dump v' size) :=
  .bind (asks_target v v' _) fun _ => .bind (asks_params v v' _) fun _ => .pure _

end InstructionItem

end Stcm

namespace Stsc

theorem HeaderItem.asks (h : HeaderItem) : Asks counts v v' (h.dump v) (h.dump v') :=
  .bind (.toFilePos _) fun _ => .pure _

theorem asks_arg (a : Arg) : Asks counts v v' (a.dump v) (a.dump v') := by
  have hlabel : ∀ l, Asks counts v v' (Arg.dumpLabel v l) (Arg.dumpLabel v' l) := fun l =>
    .bind (.toFilePosOrZero l) fun _ => .pure _
  cases a with
  | string label => exact hlabel label
  | code label => exact hlabel label
  | data label => exact hlabel label
  | _ => exact .pure _

theorem asks_args (args : List Arg) : Asks counts v v' (dumpArgs v args) (dumpArgs v' args) := by
  induction args with
  | nil => exact .pure _
  | cons a as ih => exact .bind (asks_arg v v' a) fun _ => .bind ih fun _ => .pure _

theorem asks_targets (tgts : List LabelPtr) :
    Asks counts v v' (dumpTargets v tgts) (dumpTargets v' tgts) := by
  induction tgts with
  | nil => exact .pure _
  | cons l ls ih => exact .bind (.toFilePos _) fun _ => .bind ih fun _ => .pure _

open InstructionJumpSwitchItem in
theorem asks_expressions (expressions : List Expression) :
    Asks counts v v' (dumpExpressions v expressions) (dumpExpressions v' expressions) := by
  induction expressions with
  | nil => exact .pure _
  | cons e es ih => exact .bind (.toFilePos _) fun _ => .bind ih fun _ => .pure _

theorem Instruction.asks (i : Instruction) : Asks counts v v' (i.dump v) (i.dump v') := by
  have hswitch : ∀ switch, Asks counts v v' (dumpSwitch v switch) (dumpSwitch v' switch) :=
    fun switch => .bind (asks_expressions v v' _) fun _ => .pure _
  cases i with
  | simple noReturn args => exact .bind (asks_args v v' _) fun _ => .pure _
  | rndJump tgts => exact .bind (asks_targets v v' _) fun _ => .pure _
  | jumpIf tgt tree => exact .bind (.toFilePos _) fun _ => .pure _
  | jumpSwitchNoire switch => exact hswitch switch
  | jumpSwitchPotbb switch trailingByte => exact .bind (hswitch switch) fun _ => .pure _

theorem InstructionItem.asks (i : InstructionItem) : Asks counts v v' (i.dump v) (i.dump v') :=
  .bind (Instruction.asks v v' _) fun _ => .pure _

end Stsc

end

def Body.isHeader : Body → Bool
  | header _ => true
  | _ => false

/-- Message tables have no labels. -/
theorem Body.asks (v v' : LabelView) (size : Nat) {b : Body} (hgbnl : ∀ g, b ≠ .gbnl g) :
    Asks (b.isHeader = true) v v' (b.dump v size) (b.dump v' size) := by
  cases b with
  | header h => exact h.asks v v' rfl
  | exports entries => exact Stcm.ExportsItem.asks v v' entries
  | collectionLinkHeader link => exact Stcm.CollectionLinkHeaderItem.asks v v' link
  | collectionLink entries => exact Stcm.CollectionLinkItem.asks v v' entries
  | expansion e => exact e.asks v v'
  | instruction i => exact i.asks v v' size
  | gbnl g => exact absurd rfl (hgbnl g)
  | stscHeader h => exact h.asks v v'
  | stscInstruction i => exact i.asks v v'
  | _ => exact .pure _

theorem Body.dump_keep {v v' : LabelView} {size : Nat} {b : Body}
    (hv : v.Extends (b.isHeader = true) v') {calls : List Sink.Call}
    (h : b.dump v size = .ok calls) : b.dump v' size = .ok calls := by
  by_cases hgbnl : ∃ g, b = .gbnl g
  · obtain ⟨g, rfl⟩ := hgbnl
    exact h
  · exact (Body.asks v v' size fun g hg => hgbnl ⟨g, hg⟩).keep hv h

end Neptools

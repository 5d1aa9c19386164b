import Neptools.Format.Context
import Neptools.Gbnl.Layout

/-!
The labels that an item needs to be written: it succeeds exactly when all of
them lead to an item, and those that are counted lead to the right kind of item.
-/

namespace Neptools

open Lib

/-- What is asked of a label while an item is written. -/
inductive Question
  | toFilePos (l : LabelPtr)
  | exportCount (l : LabelPtr)
  | linkCount (l : LabelPtr)
  | expansionCount (l : LabelPtr)
  deriving DecidableEq

def LabelView.Answers (v : LabelView) : Question → Prop
  | .toFilePos l => ∃ pos, v.toFilePos l = .ok pos
  | .exportCount l => ∃ n, v.exportCount l = .ok n
  | .linkCount l => ∃ n, v.linkCount l = .ok n
  | .expansionCount l => ∃ n, v.expansionCount l = .ok n

/-- A computation succeeds exactly when these questions are answered. -/
def Needs {α : Type} (v : LabelView) (qs : List Question) (x : Except Error α) : Prop :=
  (∃ a, x = .ok a) ↔ ∀ q ∈ qs, v.Answers q

namespace Needs

variable {α β : Type} {v : LabelView} {qs qs' : List Question} {x : Except Error α}

theorem pure (a : α) : Needs v [] (Pure.pure a : Except Error α) :=
  iff_of_true ⟨a, rfl⟩ (List.forall_mem_nil _)

theorem bind {f : α → Except Error β} (hx : Needs v qs x) (hf : ∀ a, Needs v qs' (f a)) :
    Needs v (qs ++ qs') (x >>= f) := by
  rw [Needs, List.forall_mem_append]
  constructor
  · rintro ⟨b, hb⟩
    obtain ⟨a, ha, hb⟩ := bind_eq_ok.mp hb
    exact ⟨hx.mp ⟨a, ha⟩, (hf a).mp ⟨b, hb⟩⟩
  · rintro ⟨hqs, hqs'⟩
    obtain ⟨a, rfl⟩ := hx.mpr hqs
    exact (hf a).mpr hqs'

theorem map {f : α → β} (hx : Needs v qs x) : Needs v qs (x >>= fun a => Pure.pure (f a)) := by
  simpa using hx.bind fun a => Needs.pure (f a)

theorem one {q : Question} (h : (∃ a, x = .ok a) ↔ v.Answers q) : Needs v [q] x := by
  rw [Needs, List.forall_mem_singleton, h]

theorem toFilePos (l : LabelPtr) : Needs v [.toFilePos l] (v.toFilePos l) := .one Iff.rfl

theorem exportCount (l : LabelPtr) : Needs v [.exportCount l] (v.exportCount l) := .one Iff.rfl

theorem linkCount (l : LabelPtr) : Needs v [.linkCount l] (v.linkCount l) := .one Iff.rfl

theorem expansionCount (l : LabelPtr) : Needs v [.expansionCount l] (v.expansionCount l) :=
  .one Iff.rfl

end Needs

/-- The questions about a label that may be nil. -/
def Question.ofOption (l : Option LabelPtr) : List Question := l.toList.map .toFilePos

theorem needs_toFilePosOrZero {v : LabelView} (l : Option LabelPtr) :
    Needs v (Question.ofOption l) (v.toFilePosOrZero l) := by
  cases l with
  | none => exact .pure 0
  | some l => exact .toFilePos l

namespace Stcm

def HeaderItem.questions (h : HeaderItem) : List Question :=
  [.toFilePos h.exportSec, .exportCount h.exportSec, .toFilePos h.collectionLink] ++
    h.expansion.toList.flatMap fun l => [.toFilePos l, .expansionCount l]

theorem HeaderItem.needs (v : LabelView) (h : HeaderItem) :
    Needs v h.questions (h.dump v) := by
  have hexpansion : Needs v (h.expansion.toList.flatMap fun l => [.toFilePos l, .expansionCount l])
      (dumpExpansion v h.expansion) := by
    cases h.expansion with
    | none => exact .pure _
    | some l => exact (Needs.toFilePos l).bind fun _ => (Needs.expansionCount l).map
  exact (Needs.toFilePos h.exportSec).bind fun _ => (Needs.exportCount h.exportSec).bind fun _ =>
    (Needs.toFilePos h.collectionLink).bind fun _ => hexpansion.map

def ExportsItem.questions (entries : List EntryType) : List Question :=
  entries.map fun e => .toFilePos e.lbl

theorem ExportsItem.needs (v : LabelView) (entries : List EntryType) :
    Needs v (ExportsItem.questions entries) (ExportsItem.dump v entries) := by
  induction entries with
  | nil => exact .pure _
  | cons e es ih => exact (Needs.toFilePos e.lbl).bind fun _ => ih.map

def CollectionLinkHeaderItem.questions (data : LabelPtr) : List Question :=
  [.toFilePos data, .linkCount data]

theorem CollectionLinkHeaderItem.needs (v : LabelView) (data : LabelPtr) :
    Needs v (CollectionLinkHeaderItem.questions data) (CollectionLinkHeaderItem.dump v data) :=
  (Needs.toFilePos data).bind fun _ => (Needs.linkCount data).map

def CollectionLinkItem.questions (entries : List LinkEntry) : List Question :=
  entries.flatMap fun e => Question.ofOption e.name0 ++ Question.ofOption e.name1

theorem CollectionLinkItem.needs (v : LabelView) (entries : List LinkEntry) :
    Needs v (CollectionLinkItem.questions entries) (CollectionLinkItem.dump v entries) := by
  induction entries with
  | nil => exact .pure _
  | cons e es ih =>
      rw [CollectionLinkItem.questions, List.flatMap_cons, List.append_assoc]
      exact (needs_toFilePosOrZero e.name0).bind fun _ =>
        (needs_toFilePosOrZero e.name1).bind fun _ => ih.map

theorem ExpansionItem.needs (v : LabelView) (e : ExpansionItem) :
    Needs v [.toFilePos e.name] (e.dump v) := (Needs.toFilePos e.name).map

namespace InstructionItem

def Param48.questions : Param48 → List Question
  | .memOffset target => [.toFilePos target]
  | _ => []

theorem Param48.needs (v : LabelView) (p : Param48) : Needs v p.questions (p.dump v) := by
  cases p with
  | memOffset target => exact (Needs.toFilePos target).map
  | _ => exact .pure _

def Param.questions : Param → List Question
  | .memOffset target param4 param8 =>
      .toFilePos target :: (param4.questions ++ param8.questions)
  | .indirect _ param8 => param8.questions
  | .readStack _ => []
  | .read4ac _ => []
  | .instrPtr0 target => [.toFilePos target]
  | .instrPtr1 target => [.toFilePos target]
  | .collLink target => [.toFilePos target]
  | .expansion target => [.toFilePos target]

theorem Param.needs (v : LabelView) (p : Param) : Needs v p.questions (p.dump v) := by
  refine Needs.map ?_
  cases p with
  | memOffset target param4 param8 =>
      exact (Needs.toFilePos target).bind fun _ => (param4.needs v).bind fun _ =>
        (param8.needs v).map
  | indirect param0 param8 => exact (param8.needs v).map
  | readStack val => exact .pure _
  | read4ac val => exact .pure _
  | instrPtr0 target => exact (Needs.toFilePos target).map
  | instrPtr1 target => exact (Needs.toFilePos target).map
  | collLink target => exact (Needs.toFilePos target).map
  | expansion target => exact (Needs.toFilePos target).map

theorem needs_params (v : LabelView) (params : List Param) :
    Needs v (params.flatMap Param.questions) (dumpParams v params) := by
  induction params with
  | nil => exact .pure _
  | cons p ps ih => exact (p.needs v).bind fun _ => ih.map

end InstructionItem

def OpcodeTarget.questions : OpcodeTarget → List Question
  | .target lbl => [.toFilePos lbl]
  | .opcode _ => []

theorem OpcodeTarget.needs (v : LabelView) (target : OpcodeTarget) :
    Needs v target.questions (target.dump v) := by
  cases target with
  | target lbl => exact (Needs.toFilePos lbl).map
  | opcode code => exact .pure _

def InstructionItem.questions (i : InstructionItem) : List Question :=
  i.opcodeTarget.questions ++ i.params.flatMap Param.questions

theorem InstructionItem.needs (v : LabelView) (i : InstructionItem) (size : Nat) :
    Needs v i.questions (i.dump v size) :=
  (i.opcodeTarget.needs v).bind fun _ => (needs_params v i.params).map

end Stcm

namespace Stsc

def Arg.questions : Arg → List Question
  | .string label => Question.ofOption label
  | .code label => Question.ofOption label
  | .data label => Question.ofOption label
  | _ => []

theorem Arg.needs (v : LabelView) (a : Arg) : Needs v a.questions (a.dump v) := by
  cases a with
  | string label => exact (needs_toFilePosOrZero label).map
  | code label => exact (needs_toFilePosOrZero label).map
  | data label => exact (needs_toFilePosOrZero label).map
  | _ => exact .pure _

theorem needs_args (v : LabelView) (args : List Arg) :
    Needs v (args.flatMap Arg.questions) (dumpArgs v args) := by
  induction args with
  | nil => exact .pure _
  | cons a as ih => exact (a.needs v).bind fun _ => ih.map

theorem needs_targets (v : LabelView) (tgts : List LabelPtr) :
    Needs v (tgts.map .toFilePos) (dumpTargets v tgts) := by
  induction tgts with
  | nil => exact .pure _
  | cons l ls ih => exact (Needs.toFilePos l).bind fun _ => ih.map

open InstructionJumpSwitchItem in
theorem needs_expressions (v : LabelView) (expressions : List Expression) :
    Needs v (expressions.map fun e => .toFilePos e.target) (dumpExpressions v expressions) := by
  induction expressions with
  | nil => exact .pure _
  | cons e es ih => exact (Needs.toFilePos e.target).bind fun _ => ih.map

def Instruction.questions : Instruction → List Question
  | simple _ args => args.flatMap Arg.questions
  | rndJump tgts => tgts.map .toFilePos
  | jumpIf tgt _ => [.toFilePos tgt]
  | jumpSwitchNoire switch => switch.expressions.map fun e => .toFilePos e.target
  | jumpSwitchPotbb switch _ => switch.expressions.map fun e => .toFilePos e.target

theorem Instruction.needs (v : LabelView) (i : Instruction) :
    Needs v i.questions (i.dump v) := by
  cases i with
  | simple noReturn args => exact (needs_args v args).map
  | rndJump tgts => exact (needs_targets v tgts).map
  | jumpIf tgt tree => exact (Needs.toFilePos tgt).map
  | jumpSwitchNoire switch => exact (needs_expressions v _).map
  | jumpSwitchPotbb switch trailingByte => exact (needs_expressions v _).map.map

end Stsc

namespace Body

def questions : Body → List Question
  | header h => h.questions
  | exports entries => Stcm.ExportsItem.questions entries
  | collectionLinkHeader link => Stcm.CollectionLinkHeaderItem.questions link
  | collectionLink entries => Stcm.CollectionLinkItem.questions entries
  | expansion e => [.toFilePos e.name]
  | instruction i => i.questions
  | stscHeader h => [.toFilePos h.entryPoint]
  | stscInstruction i => i.instruction.questions
  | _ => []

/-- Message tables need no labels, but room for the NULs of their fixed strings. -/
theorem needs (v : LabelView) (size : Nat) {b : Body} (hgbnl : ∀ g, b ≠ .gbnl g) :
    Needs v b.questions (b.dump v size) := by
  cases b with
  | header h => exact h.needs v
  | exports entries => exact Stcm.ExportsItem.needs v entries
  | collectionLinkHeader link => exact Stcm.CollectionLinkHeaderItem.needs v link
  | collectionLink entries => exact Stcm.CollectionLinkItem.needs v entries
  | expansion e => exact e.needs v
  | instruction i => exact i.needs v size
  | gbnl g => exact absurd rfl (hgbnl g)
  | stscHeader h => exact (Needs.toFilePos h.entryPoint).map
  | stscInstruction i => exact (i.instruction.needs v).map
  | _ => exact .pure _

end Body

namespace Context

/-- A label that leads to an item of the tree. -/
def Leads (c : Context) (l : LabelPtr) (ptr : ItemPointer) (it : Item) (children : ItemList) :
    Prop :=
  c.labels.lookup l = some (some ptr) ∧ c.find? ptr.item = some (it, children)

/-- The label is in place: it leads to an item, and what is counted is the
export section, the collection link or the expansions, at the label. -/
def InPlace (c : Context) : Question → Prop
  | .toFilePos l => ∃ ptr it children, c.Leads l ptr it children
  | .exportCount l => ∃ ptr it children entries, c.Leads l ptr it children ∧ ptr.offset = 0 ∧
      it.body = .exports entries
  | .linkCount l => ∃ ptr it children entries, c.Leads l ptr it children ∧ ptr.offset = 0 ∧
      it.body = .collectionLink entries
  | .expansionCount l => ∃ ptr it children, c.Leads l ptr it children ∧ ptr.offset = 0 ∧
      it.body = .expansions

theorem answers_iff {c : Context} (q : Question) : c.view.Answers q ↔ c.InPlace q := by
  have htarget0 {l : LabelPtr} {ptr : ItemPointer} {it : Item} {children : ItemList}
      (h : c.Leads l ptr it children) (hzero : ptr.offset = 0) :
      c.target0 l = .ok (it, children) := by
    rw [target0, target_of_find? h.1 h.2, ok_bind]
    simp only [require_of hzero, ok_bind, pure_eq_ok]
  have hleads {l : LabelPtr} {x : Item × ItemList} (h : c.target0 l = .ok x) :
      ∃ ptr, c.Leads l ptr x.1 x.2 ∧ ptr.offset = 0 := by
    obtain ⟨⟨it, children, offset⟩, htarget, h⟩ := bind_eq_ok.mp h
    obtain ⟨_, hzero, h⟩ := bind_eq_ok.mp h
    cases h
    obtain ⟨ptr, hptr, hfind, hoffset⟩ := target_eq_ok htarget
    exact ⟨ptr, ⟨hptr, hfind⟩, hoffset.trans (require_eq_ok.mp hzero)⟩
  cases q with
  | toFilePos l =>
      constructor
      · rintro ⟨pos, h⟩
        obtain ⟨⟨it, children, offset⟩, htarget, -⟩ := bind_eq_ok.mp h
        obtain ⟨ptr, hptr, hfind, -⟩ := target_eq_ok htarget
        exact ⟨ptr, it, children, hptr, hfind⟩
      · rintro ⟨ptr, it, children, hptr, hfind⟩
        refine ⟨it.position + ptr.offset, ?_⟩
        change c.toFilePos l = _
        rw [toFilePos, target_of_find? hptr hfind, ok_bind]
        rfl
  | exportCount l =>
      constructor
      · rintro ⟨n, h⟩
        obtain ⟨⟨it, children⟩, htarget, h⟩ := bind_eq_ok.mp h
        obtain ⟨ptr, hl, hzero⟩ := hleads htarget
        dsimp only at h
        split at h
        · rename_i entries hbody
          exact ⟨ptr, it, children, entries, hl, hzero, hbody⟩
        · cases h
      · rintro ⟨ptr, it, children, entries, hl, hzero, hbody⟩
        refine ⟨entries.length, ?_⟩
        change c.exportCount l = _
        rw [exportCount, htarget0 hl hzero, ok_bind]
        simp only [hbody, pure_eq_ok]
  | linkCount l =>
      constructor
      · rintro ⟨n, h⟩
        obtain ⟨⟨it, children⟩, htarget, h⟩ := bind_eq_ok.mp h
        obtain ⟨ptr, hl, hzero⟩ := hleads htarget
        dsimp only at h
        split at h
        · rename_i entries hbody
          exact ⟨ptr, it, children, entries, hl, hzero, hbody⟩
        · cases h
      · rintro ⟨ptr, it, children, entries, hl, hzero, hbody⟩
        refine ⟨entries.length, ?_⟩
        change c.linkCount l = _
        rw [linkCount, htarget0 hl hzero, ok_bind]
        simp only [hbody, pure_eq_ok]
  | expansionCount l =>
      constructor
      · rintro ⟨n, h⟩
        obtain ⟨⟨it, children⟩, htarget, h⟩ := bind_eq_ok.mp h
        obtain ⟨ptr, hl, hzero⟩ := hleads htarget
        dsimp only at h
        split at h
        · rename_i hbody
          exact ⟨ptr, it, children, hl, hzero, hbody⟩
        · cases h
      · rintro ⟨ptr, it, children, hl, hzero, hbody⟩
        refine ⟨children.length, ?_⟩
        change c.expansionCount l = _
        rw [expansionCount, htarget0 hl hzero, ok_bind]
        simp only [hbody, pure_eq_ok]

end Context

end Neptools

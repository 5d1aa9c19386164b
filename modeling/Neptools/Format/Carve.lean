import Neptools.Stcm.Carve
import Neptools.Stsc.Carve

/-!
Runs of a parser: instructions are carved out of raw items, among the other
things parsers do. As long as each guard is asked for a number of bytes that is in
the window, or not even in the file, every instruction is read within its raw
item and fits there. A guard that is not breaks this, since windows shrink as
the items behind them are read first.
-/

namespace Neptools

open Lib

namespace Context

inductive CarveOp
  | stsc (flavor : Stsc.Flavor) (ptr : ItemPointer)
  | stcm (ptr : ItemPointer)
  | other (op : ParseOp)

def carveStep (ctx : Context) : CarveOp → Except Error Context
  | .stsc flavor ptr => do
      let (ctx, _) ← Stsc.InstructionItem.insert flavor ctx ptr
      pure ctx
  | .stcm ptr => do
      let (ctx, _) ← Stcm.InstructionItem.insert ctx ptr
      pure ctx
  | .other op => ctx.parseStep op

/-- What is carved is read within its raw item, and fits there. -/
def CarvesWithin (ctx : Context) (op : CarveOp) : Prop :=
  match op with
  | .other _ => True
  | _ => Contained (ctx.carveStep op)

/-- No guard is asked for bytes that the file has and the window has not. -/
def Guarded (ctx : Context) : CarveOp → Prop
  | .stsc flavor ptr =>
      ∀ w, ctx.getSource ptr = .ok w → ∀ n ∈ Stsc.guards flavor w, w.Spans n
  | .stcm ptr =>
      ∀ w, ctx.getSource ptr = .ok w → ∀ n ∈ Stcm.InstructionItem.guards w, w.Spans n
  | .other op => ctx.HeadersAlone op

instance (ctx : Context) : DecidablePred ctx.CarvesWithin
  | .stsc flavor ptr => inferInstanceAs (Decidable (Contained (ctx.carveStep (.stsc flavor ptr))))
  | .stcm ptr => inferInstanceAs (Decidable (Contained (ctx.carveStep (.stcm ptr))))
  | .other _ => .isTrue trivial

instance (ctx : Context) : DecidablePred ctx.Guarded
  | .stsc flavor ptr => inferInstanceAs (Decidable
      (∀ w, ctx.getSource ptr = .ok w → ∀ n ∈ Stsc.guards flavor w, w.Spans n))
  | .stcm ptr => inferInstanceAs (Decidable
      (∀ w, ctx.getSource ptr = .ok w → ∀ n ∈ Stcm.InstructionItem.guards w, w.Spans n))
  | .other op => inferInstanceAs (Decidable (ctx.HeadersAlone op))

theorem Consistent.carveStep {ctx ctx' : Context} {op : CarveOp} (h : ctx.Consistent)
    (hguarded : ctx.Guarded op) (hstep : ctx.carveStep op = .ok ctx') : ctx'.Consistent := by
  cases op with
  | stsc flavor ptr =>
      obtain ⟨y, hinsert, hstep⟩ := bind_eq_ok.mp hstep
      cases hstep
      exact Stsc.InstructionItem.insert_consistent h hinsert
  | stcm ptr =>
      obtain ⟨y, hinsert, hstep⟩ := bind_eq_ok.mp hstep
      cases hstep
      exact Stcm.InstructionItem.insert_consistent h hinsert
  | other op => exact h.parseStep hguarded hstep

theorem Consistent.carvesWithin {ctx : Context} {op : CarveOp} (h : ctx.Consistent)
    (hguarded : ctx.Guarded op) : ctx.CarvesWithin op := by
  cases op with
  | stsc flavor ptr => exact (Stsc.contained_insert hguarded).bind fun _ _ => Contained.ok _
  | stcm ptr =>
      exact (Stcm.InstructionItem.contained_insert h hguarded).bind fun _ _ => Contained.ok _
  | other op => trivial

/-- The guards are right about their windows exactly where they are asked for a
number of bytes that is there, or not even in the file; and where they are, every
instruction is read within its raw item. -/
theorem guards_window (s : Source) (n : Nat) (file : Source) (ops : List CarveOp) :
    ((s.checkSize n = .ok () → n ≤ s.size) ↔ s.Spans n) ∧
      ((s.checkRemainingSize n = .ok () → s.get + n ≤ s.size) ↔
        s.get + n ≤ s.size ∨ s.getOrigSize < (s.get + n) % 2 ^ 64) ∧
      (EveryStep carveStep Guarded (root file) ops →
        EveryStep carveStep CarvesWithin (root file) ops) :=
  ⟨s.checkSize_guards_iff n, s.checkRemainingSize_guards_iff n,
    EveryStep.imp_of_invariant (I := Consistent)
      (fun _ _ _ h hguarded hstep => h.carveStep hguarded hstep)
      (fun _ _ h hguarded => h.carvesWithin hguarded) (.root file)⟩

/-- A file of 19 bytes: the header, a jump over one byte, and a return. The byte
between them is the opcode of another jump, which would need four more bytes. -/
def jumpOverJump : Bytes :=
  [0x53, 0x54, 0x53, 0x43, 12, 0, 0, 0, 0, 0, 0, 0,
    0x0a, 18, 0, 0, 0, 0x0a, 0x01]

/-- What reading the file starts with. -/
def readHeader (size entryPoint : Nat) : List CarveOp :=
  [.other (.split 0 size .eof),
    .other (.createLabelFallback Stsc.HeaderItem.entryPointName { item := 0, offset := entryPoint }),
    .other (.split 0 0 (.stscHeader { entryPoint := Stsc.HeaderItem.entryPointName
                                      extraHeaders1 := none, extraHeaders2 := none
                                      extraHeaders4 := none }))]

/-- The target of the jump is read first, and the byte behind the jump is all that
is left then. -/
def readJumpOverJump : List CarveOp :=
  readHeader 19 12 ++ [.stsc .noire { item := 0, offset := 0 },
    .stsc .noire { item := 0, offset := 1 }, .stsc .noire { item := 0, offset := 0 }]

theorem guards_window_shrunk :
    let w : Source := { file := jumpOverJump, offset := 17, size := 1, get := 1
                        window_le := by decide }
    (w.checkSize 5 = .ok () ∧ ¬ 5 ≤ w.size) ∧
      (w.checkRemainingSize 4 = .ok () ∧ ¬ w.get + 4 ≤ w.size) ∧
        ¬ EveryStep carveStep CarvesWithin (root (.fromMemory jumpOverJump)) readJumpOverJump := by
  refine ⟨⟨rfl, by decide⟩, ⟨rfl, by decide⟩, ?_⟩
  decide +kernel

/-- With a return between them, the guards hold. -/
theorem guards_window_return : EveryStep carveStep CarvesWithin
    (root (.fromMemory (jumpOverJump.set 17 0x01))) readJumpOverJump :=
  (guards_window (.fromMemory []) 0 _ _).2.2 (by decide +kernel)

end Context

end Neptools

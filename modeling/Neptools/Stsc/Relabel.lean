import Neptools.Format.Relabel
import Neptools.Stsc.Parse

/-!
Until an item of an STSC file is split off, reading it only makes labels.
-/

namespace Neptools

open Lib

namespace Stsc

open Context

namespace RawArg

theorem relabeling_parseLabel (ctx : Context) (r : UInt32) : Relabeling ctx (parseLabel ctx r) := by
  rw [parseLabel]
  split
  · exact .ok _
  · exact (relabeling_getLabelTo _ _).bind fun _ _ => .ok _

theorem relabeling_parseString (ctx : Context) (r : UInt32) :
    Relabeling ctx (parseString ctx r) := by
  rw [parseString]
  split
  · exact .ok _
  · refine .after fun ptr => ?_
    split
    · refine .after fun src => .after fun string => ?_
      exact (relabeling_getLabelToNamed _ _ _).bind fun _ _ => .ok _
    · exact (relabeling_getLabelTo _ _).bind fun _ _ => .ok _

theorem relabeling_parse (ctx : Context) (a : RawArg) : Relabeling ctx (a.parse ctx) := by
  cases a with
  | uint8 _ | uint16 _ | uint32 _ | float _ => exact .ok _
  | string r => exact (relabeling_parseString ctx r).bind fun _ _ => .ok _
  | code r | data r => exact (relabeling_parseLabel ctx r).bind fun _ _ => .ok _

end RawArg

theorem relabeling_parseArgs (ctx : Context) (as : List RawArg) :
    Relabeling ctx (parseArgs ctx as) := by
  induction as generalizing ctx with
  | nil => exact .ok _
  | cons a as ih =>
      refine (a.relabeling_parse ctx).bind fun ctx' arg => ?_
      exact (ih ctx').bind fun _ _ => .ok _

theorem relabeling_parseSimple (ctx : Context) (noReturn : Bool) (ts : List ArgType)
    (src : Source) : Relabeling ctx (parseSimple ctx noReturn ts src) :=
  .after fun _ => .after fun _ => .after fun _ =>
    (relabeling_parseArgs ctx _).bind fun _ _ => .ok _

theorem relabeling_parseTargets (ctx : Context) (src : Source) (n : Nat) :
    Relabeling ctx (parseTargets ctx src n) := by
  induction n generalizing ctx src with
  | zero => exact .ok _
  | succ n ih =>
      refine .after fun ⟨t, src'⟩ => .after fun _ => ?_
      refine (relabeling_getLabelTo ctx _).bind fun ctx' l => ?_
      exact (ih ctx' src').bind fun _ _ => .ok _

theorem relabeling_parseRndJump (ctx : Context) (src : Source) :
    Relabeling ctx (parseRndJump ctx src) :=
  .after fun _ => .after fun ⟨_, src'⟩ => .after fun _ =>
    (relabeling_parseTargets ctx src' _).bind fun _ _ => .ok _

namespace InstructionJumpIfItem

theorem relabeling_parse (ctx : Context) (src : Source) : Relabeling ctx (parse ctx src) := by
  refine .after fun _ => .after fun ⟨fp, src'⟩ => .after fun _ => ?_
  exact (relabeling_getLabelTo ctx _).bind fun ctx' tgt => .after fun _ => .after fun _ => .ok _

end InstructionJumpIfItem

namespace InstructionJumpSwitchItem

theorem relabeling_parseExpressions (ctx : Context) (src : Source) (n : Nat) :
    Relabeling ctx (parseExpressions ctx src n) := by
  induction n generalizing ctx src with
  | zero => exact .ok _
  | succ n ih =>
      refine .after fun ⟨exp, src'⟩ => .after fun _ => ?_
      refine (relabeling_getLabelTo ctx _).bind fun ctx' target => ?_
      exact (ih ctx' src').bind fun _ _ => .ok _

theorem relabeling_parse (ctx : Context) (src : Source) : Relabeling ctx (parse ctx src) :=
  .after fun _ => .after fun ⟨_, src'⟩ => .after fun _ =>
    (relabeling_parseExpressions ctx src' _).bind fun _ _ => .ok _

end InstructionJumpSwitchItem

/-- An instruction is read before its item is made. -/
theorem relabeling_parseInstruction (ctx : Context) (src : Source) (t : InstructionType) :
    Relabeling ctx (parseInstruction ctx src t) := by
  cases t with
  | simple noReturn ts => exact relabeling_parseSimple ctx noReturn ts src
  | rndJump => exact relabeling_parseRndJump ctx src
  | unimplemented => exact .error _
  | jumpIf => exact InstructionJumpIfItem.relabeling_parse ctx src
  | jumpSwitchNoire =>
      exact (InstructionJumpSwitchItem.relabeling_parse ctx src).bind fun _ _ => .ok _
  | jumpSwitchPotbb =>
      exact (InstructionJumpSwitchItem.relabeling_parse ctx src).bind fun _ _ =>
        .after fun _ => .after fun _ => .ok _

/-- What an instruction is made of. -/
theorem InstructionItem.insert_ok {f : Flavor} {ctx ctx' : Context} {ptr : ItemPointer} {id : Nat}
    {i : Instruction} (h : InstructionItem.insert f ctx ptr = .ok (ctx', id, i)) :
    ∃ ctx₁ opcode, ctx.Relabels ctx₁ ∧ id = ctx₁.nextId ∧
      ctx₁.splitCreate ptr.item ptr.offset (.stscInstruction { opcode, instruction := i }) =
        .ok ctx' := by
  obtain ⟨src, -, h⟩ := bind_eq_ok.mp h
  obtain ⟨_, -, h⟩ := bind_eq_ok.mp h
  obtain ⟨⟨opcode, src'⟩, -, h⟩ := bind_eq_ok.mp h
  obtain ⟨⟨ctx₁, i'⟩, hparse, h⟩ := bind_eq_ok.mp h
  obtain ⟨ctx₂, hsplit, h⟩ := bind_eq_ok.mp h
  cases h
  exact ⟨ctx₁, opcode, relabeling_parseInstruction ctx src' _ ctx₁ i hparse, rfl, hsplit⟩

theorem InstructionItem.insert_consistent {f : Flavor} {ctx : Context} (hctx : ctx.Consistent)
    {ptr : ItemPointer} {y : Context × Nat × Instruction}
    (h : InstructionItem.insert f ctx ptr = .ok y) : y.1.Consistent := by
  obtain ⟨ctx₁, opcode, hrelabels, -, hsplit⟩ := InstructionItem.insert_ok h
  exact (hrelabels.consistent hctx).splitCreate (fun hheader => by cases hheader) hsplit

end Stsc

end Neptools

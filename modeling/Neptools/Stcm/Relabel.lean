import Neptools.Format.Relabel
import Neptools.Stcm.Parse

/-!
Until an instruction of an STCM file is split off, reading it only makes labels.
-/

namespace Neptools

open Lib

namespace Stcm

namespace InstructionItem

open Context Parameter

theorem relabeling_param48 (ctx : Context) (x : UInt32) : Relabeling ctx (Param48.parse ctx x) := by
  rw [Param48.parse]
  split
  · exact (relabeling_getLabelTo ctx _).bind fun _ _ => .ok _
  · split
    · exact .ok _
    · split
      · exact .ok _
      · split
        · exact .ok _
        · split
          · exact .ok _
          · exact .error _

theorem relabeling_param (ctx : Context) (p : Parameter) : Relabeling ctx (Param.parse ctx p) := by
  have hlabel (pos : Nat) (f : LabelPtr → Param) :
      Relabeling ctx (ctx.getLabelTo pos >>= fun x => pure (x.1, f x.2)) :=
    (relabeling_getLabelTo ctx pos).bind fun _ _ => .ok _
  refine .after fun _ => ?_
  split
  · refine (relabeling_getLabelTo ctx _).bind fun ctx₁ _ => ?_
    refine (relabeling_param48 ctx₁ _).bind fun ctx₂ _ => ?_
    exact (relabeling_param48 ctx₂ _).bind fun _ _ => .ok _
  · split
    · exact (relabeling_param48 ctx _).bind fun _ _ => .ok _
    · split
      · split
        · exact .ok _
        · split
          · exact .ok _
          · split
            · exact hlabel _ _
            · split
              · exact hlabel _ _
              · split
                · exact hlabel _ _
                · split
                  · exact hlabel _ _
                  · exact .error _
      · exact .error _

theorem relabeling_params (ctx : Context) (src : Source) (n : Nat) :
    Relabeling ctx (parseParams ctx src n) := by
  induction n generalizing ctx src with
  | zero => exact .ok _
  | succ n ih =>
      refine .after fun ⟨raw, src'⟩ => ?_
      refine (relabeling_param ctx raw).bind fun ctx' p => ?_
      exact (ih ctx' src').bind fun _ _ => .ok _

theorem relabeling_parse (ctx : Context) (src : Source) : Relabeling ctx (parse ctx src) := by
  refine .after fun x => .after fun _ => ?_
  have hrest (ctx' : Context) (opcodeTarget : OpcodeTarget) : Relabeling ctx'
      (parseParams ctx' x.2 x.1.paramCount.toNat >>= fun y =>
        pure (y.1, ({ params := y.2, opcodeTarget } : InstructionItem))) :=
    (relabeling_params ctx' x.2 _).bind fun _ _ => .ok _
  dsimp only
  split
  · refine (relabeling_getLabelTo ctx _).bind fun ctx' l => ?_
    rw [pure_eq_ok, ok_bind]
    exact hrest ctx' _
  · rw [pure_eq_ok, ok_bind]
    exact hrest ctx _

/-- What an instruction is made of, with the data that became its child. -/
theorem insert_ok {ctx ctx' : Context} {ptr : ItemPointer} {id : Nat} {i : InstructionItem}
    (h : insert ctx ptr = .ok (ctx', id, i)) :
    ∃ ctx₁ ctx₂ remData, ctx.Relabels ctx₁ ∧ id = ctx₁.nextId ∧
      ctx₁.splitCreate ptr.item ptr.offset (.instruction i) = .ok ctx₂ ∧
      (ctx' = ctx₂ ∨ ctx₂.moveNextToChild id remData = .ok ctx') := by
  obtain ⟨src, -, h⟩ := bind_eq_ok.mp h
  obtain ⟨_, -, h⟩ := bind_eq_ok.mp h
  obtain ⟨inst, -, h⟩ := bind_eq_ok.mp h
  obtain ⟨_, -, h⟩ := bind_eq_ok.mp h
  obtain ⟨⟨ctx₁, i'⟩, hparse, h⟩ := bind_eq_ok.mp h
  have hrelabels := relabeling_parse ctx src ctx₁ i' hparse
  obtain ⟨ctx₂, hsplit, h⟩ := bind_eq_ok.mp h
  dsimp only at h
  split at h
  · obtain ⟨ctx₃, hmove, h⟩ := bind_eq_ok.mp h
    obtain ⟨_, -, h⟩ := bind_eq_ok.mp h
    obtain ⟨_, -, h⟩ := bind_eq_ok.mp h
    cases h
    exact ⟨ctx₁, ctx₂, _, hrelabels, rfl, hsplit, .inr hmove⟩
  · obtain ⟨ctx₃, heq, h⟩ := bind_eq_ok.mp h
    cases heq
    obtain ⟨_, -, h⟩ := bind_eq_ok.mp h
    obtain ⟨_, -, h⟩ := bind_eq_ok.mp h
    cases h
    exact ⟨ctx₁, ctx', 0, hrelabels, rfl, hsplit, .inl rfl⟩

theorem insert_consistent {ctx : Context} (hctx : ctx.Consistent) {ptr : ItemPointer}
    {y : Context × Nat × InstructionItem} (h : insert ctx ptr = .ok y) : y.1.Consistent := by
  obtain ⟨ctx₁, ctx₂, remData, hrelabels, hid, hsplit, hctx'⟩ := insert_ok h
  have hctx₁ := hrelabels.consistent hctx
  have hctx₂ := hctx₁.splitCreate (fun hheader => by cases hheader) hsplit
  rcases hctx' with rfl | hmove
  · exact hctx₂
  · obtain ⟨k, r, src, p, -, -, -, -, -, -, hp⟩ := hctx₁.splitCreate_ok hsplit
    have hfind : ctx₂.find? ctx₁.nextId = some (p.newItem r ptr.offset _, .nil) :=
      hctx₂.find?_of_mem hp.mem_new
    have hnest : ctx₂.nest y.2.1 remData = .ok y.1 := by
      rw [hid] at hmove ⊢
      rw [Context.nest, Context.get, hfind]
      exact hmove
    exact hctx₂.nest hnest

end InstructionItem

end Stcm

end Neptools

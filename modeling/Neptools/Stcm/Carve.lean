import Neptools.Format.Contained
import Neptools.Stcm.Relabel

/-!
The instructions of an STCM file are read within their raw items, as long as no
guard is asked for a number of bytes that the file has and the window has not.
What is behind the parameters of an instruction is then in the raw item that is
left.
-/

namespace Neptools

open Lib

namespace Stcm

open Context Source

namespace InstructionItem

open Parameter

variable {w : Source}

theorem Header.contained_validate (h : Header) (fileSize : Nat) :
    Contained (h.validate fileSize) := by
  refine (Contained.validateField _ _ _).bind fun _ _ => ?_
  refine (Contained.validateField _ _ _).bind fun _ _ => ?_
  refine (Contained.validateField _ _ _).bind fun _ _ => ?_
  split
  · exact Contained.validateField _ _ _
  · exact Contained.validateField _ _ _

/-- The size of an instruction is checked against its parameters. -/
theorem Header.room_of_validate {h : Header} {fileSize : Nat} {u : Unit}
    (hvalid : h.validate fileSize = .ok u) :
    Pod.size Header + h.paramCount.toNat * Pod.size Parameter ≤ h.size.toNat := by
  obtain ⟨_, -, hvalid⟩ := bind_eq_ok.mp hvalid
  obtain ⟨_, -, hvalid⟩ := bind_eq_ok.mp hvalid
  obtain ⟨_, hroom, -⟩ := bind_eq_ok.mp hvalid
  exact require_eq_ok.mp hroom

theorem Parameter.contained_validate48 (param : UInt32) (fileSize : Nat) :
    Contained (validate48 param fileSize) := by
  rw [validate48]
  split
  · exact Contained.validateField _ _ _
  · split
    · exact Contained.ok ()
    · split
      · exact Contained.ok ()
      · exact Contained.validateField _ _ _

theorem Parameter.contained_check (cond : String) (p : Prop) [Decidable p] :
    Contained (check cond p) := Contained.validateField _ _ _

theorem Parameter.contained_validate (p : Parameter) (fileSize : Nat) :
    Contained (p.validate fileSize) := by
  rw [Parameter.validate]
  split
  · refine (contained_check _ _).bind fun _ _ => ?_
    exact (contained_validate48 _ _).bind fun _ _ => contained_validate48 _ _
  · split
    · exact (contained_check _ _).bind fun _ _ => contained_validate48 _ _
    · split
      · split
        · exact (contained_check _ _).bind fun _ _ => contained_check _ _
        · split
          · exact (contained_check _ _).bind fun _ _ => contained_check _ _
          · split
            · exact (contained_check _ _).bind fun _ _ => contained_check _ _
            · split
              · exact (contained_check _ _).bind fun _ _ => contained_check _ _
              · exact contained_check _ _
      · exact contained_check _ _

theorem reads_param48 (ctx : Context) (x : UInt32) :
    Reads (fun _ => True) (Param48.parse ctx x) := by
  rw [Param48.parse]
  split
  · exact (reads_getLabelTo ctx _).bind fun _ _ _ => Reads.ok trivial
  · split
    · exact Reads.ok trivial
    · split
      · exact Reads.ok trivial
      · split
        · exact Reads.ok trivial
        · split
          · exact Reads.ok trivial
          · exact Reads.error (by simp [Error.Outside])

theorem reads_param (ctx : Context) (p : Parameter) :
    Reads (fun _ => True) (Param.parse ctx p) := by
  have hlabel (pos : Nat) (f : LabelPtr → Param) :
      Reads (fun _ => True) (ctx.getLabelTo pos >>= fun x => pure (x.1, f x.2)) :=
    (reads_getLabelTo ctx pos).bind fun _ _ _ => Reads.ok trivial
  refine Reads.after (p.contained_validate _) fun _ _ => ?_
  split
  · refine (reads_getLabelTo ctx _).bind fun ctx₁ _ _ => ?_
    refine (reads_param48 ctx₁ _).bind fun ctx₂ _ _ => ?_
    exact (reads_param48 ctx₂ _).bind fun _ _ _ => Reads.ok trivial
  · split
    · exact (reads_param48 ctx _).bind fun _ _ _ => Reads.ok trivial
    · split
      · split
        · exact Reads.ok trivial
        · split
          · exact Reads.ok trivial
          · split
            · exact hlabel _ _
            · split
              · exact hlabel _ _
              · split
                · exact hlabel _ _
                · split
                  · exact hlabel _ _
                  · exact Reads.error (by simp [Error.Outside])
      · exact Reads.error (by simp [Error.Outside])

theorem reads_params (ctx : Context) {pos n : Nat} (h : pos + n * Pod.size Parameter ≤ w.size) :
    Reads (fun ps => ps.length = n) (parseParams ctx (w.at_ pos) n) := by
  induction n generalizing ctx pos with
  | zero => exact Reads.ok rfl
  | succ n ih =>
      rw [Nat.succ_mul] at h
      have hfit : pos + Pod.size Parameter ≤ w.size := by omega
      have hrest : pos + Pod.size Parameter + n * Pod.size Parameter ≤ w.size := by omega
      rw [parseParams, Source.readGen_of_le hfit, ok_bind]
      refine (reads_param ctx _).bind fun ctx₁ p _ => ?_
      refine (ih ctx₁ hrest).bind fun ctx₂ ps hps => Reads.ok ?_
      exact congrArg Nat.succ hps

/-- The parameters are as many as the header says, and the size covers them. -/
theorem reads_parse (ctx : Context) (hheader : Pod.size Header ≤ w.size)
    (hsize : (w.valueAt Header 0).size.toNat ≤ w.size) :
    Reads (fun i => i.params.length = (w.valueAt Header 0).paramCount.toNat ∧
      Pod.size Header + i.params.length * Pod.size Parameter ≤
        (w.valueAt Header 0).size.toNat) (parse ctx (w.at_ 0)) := by
  rw [parse, Source.readGen_of_le (by rwa [Nat.zero_add]), ok_bind]
  dsimp only
  rw [show Pod.ofBytes (Lib.slice w.bytes 0 (Pod.size Header)) = w.valueAt Header 0 from rfl]
  generalize w.valueAt Header 0 = instr at hsize ⊢
  refine Reads.after (instr.contained_validate _) fun _ hvalid => ?_
  have hroom := Header.room_of_validate hvalid
  have hparams : 0 + Pod.size Header + instr.paramCount.toNat * Pod.size Parameter ≤ w.size := by
    omega
  have hrest (ctx' : Context) (opcodeTarget : OpcodeTarget) :
      Reads (fun i => i.params.length = instr.paramCount.toNat ∧
        Pod.size Header + i.params.length * Pod.size Parameter ≤ instr.size.toNat)
      (parseParams ctx' (w.at_ (0 + Pod.size Header)) instr.paramCount.toNat >>= fun x =>
        pure (x.1, ({ params := x.2, opcodeTarget } : InstructionItem))) :=
    (reads_params ctx' hparams).bind fun ctx'' params hps => Reads.ok ⟨hps, by rwa [hps]⟩
  split
  · refine (reads_getLabelTo ctx _).bind fun ctx' l _ => ?_
    rw [pure_eq_ok, ok_bind]
    exact hrest ctx' _
  · rw [pure_eq_ok, ok_bind]
    exact hrest ctx _

/-- What the guards of the instruction at the start of the window are asked for. -/
def guards (w : Source) : List Nat := [Pod.size Header, (w.valueAt Header 0).size.toNat]

/-- The data of an instruction is in what is left behind it. -/
theorem exists_data {ctx ctx' : Context} (hctx : ctx.Consistent) {ptr : ItemPointer}
    {i : InstructionItem} {src : Source} {remData : Nat}
    (hsplit : ctx.splitCreate ptr.item ptr.offset (.instruction i) = .ok ctx')
    (hbody : ctx.bodyOf ptr.item = some (.raw src))
    (hroom : ptr.offset + (Body.instruction i).ownSize + remData ≤ src.size) (hdata : remData ≠ 0) :
    ∃ next back, ctx'.children.next? (isItem ctx.nextId) = some (next, .nil) ∧
      next.body = .raw back ∧ ctx'.bodyOf next.id = some (.raw back) ∧ remData ≤ back.size ∧
      back.bytes = Lib.slice src.bytes (ptr.offset + (Body.instruction i).ownSize)
        (src.size - (Body.instruction i).ownSize - ptr.offset) := by
  have hctx' := hctx.splitCreate (fun hheader => by cases hheader) hsplit
  obtain ⟨k, r, src', p, hid, hraw, hk, hapart, hapartNew, -, hp⟩ := hctx.splitCreate_ok hsplit
  have hr : (r, .nil) ∈ ctx.children.subtrees := by
    rw [hk, Hole.mem_subtrees_plug]
    exact .inl List.mem_cons_self
  have hsrc := hctx.bodyOf_of_mem hr
  rw [hid, hbody, hraw] at hsrc
  cases hsrc
  have hne : r.id ≠ ctx.nextId := Nat.ne_of_lt (hctx.numbered r (Forest.mem_nodes.mpr ⟨_, hr⟩))
  obtain ⟨next, hnext, hmem, hback⟩ := hp.next? hapartNew.before hne (by
    change src.size - ((Body.instruction i).ownSize + 0) - ptr.offset ≠ 0
    omega)
  refine ⟨next, p.back, hnext, hback, (hctx'.bodyOf_of_mem hmem).trans (congrArg _ hback), ?_,
    hp.backBytes⟩
  have hlength := congrArg List.length hp.backBytes
  rw [Source.length_bytes, length_slice_of_le] at hlength
  · rw [hlength]
    change remData ≤ src.size - ((Body.instruction i).ownSize + 0) - ptr.offset
    omega
  · rw [Source.length_bytes]
    change ptr.offset + ((Body.instruction i).ownSize + 0) +
      (src.size - ((Body.instruction i).ownSize + 0) - ptr.offset) ≤ src.size
    omega

theorem contained_insert {ctx : Context} (hctx : ctx.Consistent) {ptr : ItemPointer}
    (h : ∀ w, ctx.getSource ptr = .ok w → ∀ n ∈ guards w, w.Spans n) :
    Contained (insert ctx ptr) := by
  refine (contained_getSource _ _).bind fun w hw => ?_
  obtain ⟨src, hbody, hsize, hat⟩ := getSource_spec hw
  have hspans := h w hw
  refine (Source.contained_checkSize _ _).bind fun _ hcheck => ?_
  have hheader : Pod.size Header ≤ w.size := (hspans _ List.mem_cons_self).le hcheck
  rw [Source.preadGen_of_le (by rwa [Nat.zero_add]), ok_bind]
  dsimp only
  rw [show Pod.ofBytes (Lib.slice w.bytes 0 (Pod.size Header)) = w.valueAt Header 0 from rfl]
  refine (Source.contained_checkSize _ _).bind fun _ hcheck => ?_
  have hinst := (hspans _ (List.mem_cons_of_mem _ List.mem_cons_self)).le hcheck
  have hparse := reads_parse ctx hheader hinst
  rw [← hat] at hparse
  refine hparse.contained.bind fun parsed hok => ?_
  obtain ⟨ctx', instruction⟩ := parsed
  have hrelabels := relabeling_parse ctx _ ctx' instruction hok
  obtain ⟨hparams, hroom⟩ := hparse.good ctx' instruction hok
  have hbody' := (hrelabels.bodyOf ptr.item).trans hbody
  have hctx' := hrelabels.consistent hctx
  dsimp only
  refine Contained.bind (contained_split2 fun src' hsrc' => ?_) fun ctx'' hsplit => ?_
  · have hsrc' : ctx'.bodyOf ptr.item = some (.raw src') := hsrc'
    rw [hbody'] at hsrc'
    cases hsrc'
    change ptr.offset + (Pod.size Header + instruction.params.length * Pod.size Parameter + 0) ≤
      src.size
    omega
  · have hsized (ctx₃ : Context) : Contained (ctx₃.get ctx'.nextId >>= fun x => do
        require (x.1.getSize x.2 = (w.valueAt Header 0).size.toNat)
          (Error.assertionFailed "ret.GetSize() == inst.size")
        pure (ctx₃, ctx'.nextId, instruction)) := by
      refine (contained_get _ _).bind fun _ _ => ?_
      exact (Contained.require (by simp [Error.Outside])).bind fun _ _ => Contained.ok _
    split
    · rename_i hdata
      have hfit : ptr.offset + (Body.instruction instruction).ownSize +
          ((w.valueAt Header 0).size.toNat - Pod.size Header -
            Pod.size Parameter * (w.valueAt Header 0).paramCount.toNat) ≤ src.size := by
        change ptr.offset + (Pod.size Header + instruction.params.length * Pod.size Parameter) +
          ((w.valueAt Header 0).size.toNat - Pod.size Header -
            Pod.size Parameter * (w.valueAt Header 0).paramCount.toNat) ≤ src.size
        rw [hparams] at hroom ⊢
        rw [Nat.mul_comm (Pod.size Parameter)]
        omega
      obtain ⟨next, back, hnext, -, hback, hle, -⟩ := exists_data hctx' hsplit hbody' hfit hdata
      exact (contained_moveNextToChild hnext hback hle).bind fun ctx₃ _ => hsized ctx₃
    · exact hsized ctx''

end InstructionItem

end Stcm

end Neptools

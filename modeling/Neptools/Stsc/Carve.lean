import Neptools.Format.Contained
import Neptools.Stsc.Relabel

/-!
The instructions of an STSC file are read within their raw items, as long as no
guard is asked for a number of bytes that the file has and the window has not.
-/

namespace Neptools

open Lib

namespace Stsc

open Context Source

namespace RawArg

def type : RawArg → ArgType
  | uint8 _ => .uint8
  | uint16 _ => .uint16
  | uint32 _ => .uint32
  | float _ => .float
  | string _ => .string
  | code _ => .code
  | data _ => .data

theorem type_ofBytes (t : ArgType) (bs : Bytes) : (ofBytes t bs).type = t := by
  cases t <;> rfl

theorem contained_validate (size : Nat) (a : RawArg) : Contained (a.validate size) := by
  cases a with
  | string _ | code _ | data _ => exact Contained.validateField _ _ _
  | uint8 _ | uint16 _ | uint32 _ | float _ => exact Contained.ok ()

theorem reads_parseLabel (ctx : Context) (r : UInt32) :
    Reads (fun _ => True) (parseLabel ctx r) := by
  rw [parseLabel]
  split
  · exact Reads.ok trivial
  · exact (reads_getLabelTo _ _).bind fun _ _ _ => Reads.ok trivial

theorem reads_parseString (ctx : Context) (r : UInt32) :
    Reads (fun _ => True) (parseString ctx r) := by
  rw [parseString]
  split
  · exact Reads.ok trivial
  · refine Reads.after (contained_getPointer _ _) fun ptr _ => ?_
    split
    · refine Reads.after (contained_getSource _ _) fun src _ => ?_
      refine Reads.after (src.contained_preadCString _) fun string _ => ?_
      exact (reads_getLabelToNamed _ _ _).bind fun _ _ _ => Reads.ok trivial
    · exact (reads_getLabelTo _ _).bind fun _ _ _ => Reads.ok trivial

theorem reads_parse (ctx : Context) (a : RawArg) :
    Reads (fun arg => arg.type = a.type) (a.parse ctx) := by
  cases a with
  | uint8 _ | uint16 _ | uint32 _ | float _ => exact Reads.ok rfl
  | string r => exact (reads_parseString ctx r).bind fun _ _ _ => Reads.ok rfl
  | code r | data r => exact (reads_parseLabel ctx r).bind fun _ _ _ => Reads.ok rfl

end RawArg

theorem type_rawArgs (ts : List ArgType) (bs : Bytes) : (rawArgs ts bs).map RawArg.type = ts := by
  induction ts generalizing bs with
  | nil => rfl
  | cons t ts ih => rw [rawArgs, List.map_cons, RawArg.type_ofBytes, ih]

theorem contained_validateArgs (size : Nat) (as : List RawArg) :
    Contained (validateArgs size as) := by
  induction as with
  | nil => exact Contained.ok ()
  | cons a as ih => exact (a.contained_validate size).bind fun _ _ => ih

theorem reads_parseArgs (ctx : Context) (as : List RawArg) :
    Reads (fun args => args.map Arg.type = as.map RawArg.type) (parseArgs ctx as) := by
  induction as generalizing ctx with
  | nil => exact Reads.ok rfl
  | cons a as ih =>
      refine (RawArg.reads_parse ctx a).bind fun ctx' arg harg => ?_
      refine (ih ctx').bind fun ctx'' args hargs => Reads.ok ?_
      rw [List.map_cons, List.map_cons, harg, hargs]

variable {w : Source}

theorem reads_parseSimple (ctx : Context) (noReturn : Bool) (ts : List ArgType)
    (h : w.Spans (argsSize ts + 1)) :
    Reads (fun i => i.getSize ≤ w.size) (parseSimple ctx noReturn ts (w.at_ 1)) := by
  refine Reads.after (Source.contained_checkSize _ _) fun _ hcheck => ?_
  have hle : argsSize ts + 1 ≤ w.size := Source.Spans.le h hcheck
  obtain ⟨raw, hread, -⟩ := Source.read_of_le (show 1 + argsSize ts ≤ w.size by omega)
  rw [hread, ok_bind]
  refine Reads.after (contained_validateArgs _ _) fun _ _ => ?_
  refine (reads_parseArgs ctx _).bind fun ctx' args hargs => Reads.ok ?_
  rw [type_rawArgs] at hargs
  rw [Instruction.getSize, ← Function.comp_def, ← List.map_map, hargs]
  exact hle

theorem reads_parseTargets (ctx : Context) {pos n : Nat} (h : pos + 4 * n ≤ w.size) :
    Reads (fun ls => ls.length = n) (parseTargets ctx (w.at_ pos) n) := by
  induction n generalizing ctx pos with
  | zero => exact Reads.ok rfl
  | succ n ih =>
      have hfit : pos + Pod.size UInt32 ≤ w.size := by
        change pos + 4 ≤ w.size
        omega
      rw [parseTargets, Source.readUint32, Source.readUint_of_le hfit, ok_bind]
      refine Reads.after (Contained.validateField _ _ _) fun _ _ => ?_
      refine (reads_getLabelTo ctx _).bind fun ctx' l _ => ?_
      refine (ih ctx' (show pos + 4 + 4 * n ≤ w.size by omega)).bind fun ctx'' ls hls => ?_
      exact Reads.ok (congrArg Nat.succ hls)

theorem reads_parseRndJump (ctx : Context) (hcount : w.Spans 2)
    (h : w.Spans (2 + 4 * (valueAt UInt8 w 1).toNat)) :
    Reads (fun i => i.getSize ≤ w.size) (parseRndJump ctx (w.at_ 1)) := by
  have hn := (valueAt UInt8 w 1).toNat_lt
  refine Reads.after (Source.contained_checkRemainingSize _ _) fun _ hcheck => ?_
  have hfit : 1 + Pod.size UInt8 ≤ w.size := hcount.le_remaining (by decide) hcheck
  rw [Source.readUint8, Source.readUint_of_le hfit, ok_bind]
  change Reads _ ((w.at_ 2).checkRemainingSize (4 * (valueAt UInt8 w 1).toNat) >>= _)
  refine Reads.after (Source.contained_checkRemainingSize _ _) fun _ hcheck => ?_
  have hle := h.le_remaining (by omega) hcheck
  refine (reads_parseTargets ctx hle).bind fun ctx' tgts htgts => Reads.ok ?_
  rw [Instruction.getSize, htgts, Nat.mul_comm]
  exact hle

namespace InstructionJumpIfItem

theorem contained_parseTree (size : UInt16) {pos n : Nat}
    (h : pos + n * Pod.size NodeParams ≤ w.size) :
    Contained (parseTree size (w.at_ pos) n) ∧
      ∀ tree, parseTree size (w.at_ pos) n = .ok tree → tree.length = n := by
  induction n generalizing pos with
  | zero => exact ⟨Contained.ok _, fun tree htree => by cases htree; rfl⟩
  | succ n ih =>
      have hfit : pos + Pod.size NodeParams ≤ w.size := by
        rw [Nat.succ_mul] at h
        omega
      have hrest : pos + Pod.size NodeParams + n * Pod.size NodeParams ≤ w.size := by
        rw [Nat.succ_mul] at h
        omega
      obtain ⟨hcontained, hlength⟩ := ih hrest
      rw [parseTree, Source.readGen_of_le hfit, ok_bind]
      have hvalidate (nd : NodeParams) : Contained (nd.validate size) :=
        (Contained.validateField _ _ _).bind fun _ _ => Contained.validateField _ _ _
      constructor
      · exact (hvalidate _).bind fun _ _ => hcontained.bind fun _ _ => Contained.ok _
      · intro tree htree
        obtain ⟨_, -, htree⟩ := bind_eq_ok.mp htree
        obtain ⟨rest, hparse, htree⟩ := bind_eq_ok.mp htree
        cases htree
        exact congrArg Nat.succ (hlength rest hparse)

theorem reads_parse (ctx : Context) (h : w.Spans (1 + Pod.size FixParams)) :
    Reads (fun i => i.getSize ≤ w.size) (parse ctx (w.at_ 1)) := by
  refine Reads.after (Source.contained_checkRemainingSize _ _) fun _ hcheck => ?_
  have hfit := h.le_remaining (by decide) hcheck
  rw [Source.readGen_of_le hfit, ok_bind]
  dsimp only
  generalize (Pod.ofBytes (slice w.bytes 1 (Pod.size FixParams)) : FixParams) = fp
  refine Reads.after ((Contained.validateField _ _ _).bind fun _ _ =>
    Contained.validateField _ _ _) fun _ hvalidate => ?_
  -- the nodes are compared with the window, not with the file
  obtain ⟨_, hroom, -⟩ := bind_eq_ok.mp hvalidate
  have hroom : fp.size.toNat * Pod.size NodeParams ≤ w.size - (1 + Pod.size FixParams) :=
    require_eq_ok.mp hroom
  refine (reads_getLabelTo ctx _).bind fun ctx' tgt _ => ?_
  refine Reads.after (Source.contained_checkRemainingSize _ _) fun _ _ => ?_
  have hnodes : 1 + Pod.size FixParams + fp.size.toNat * Pod.size NodeParams ≤ w.size := by omega
  obtain ⟨hcontained, hlength⟩ := contained_parseTree fp.size hnodes
  refine Reads.after hcontained fun tree htree => Reads.ok ?_
  rw [Instruction.getSize, hlength tree htree]
  exact hnodes

end InstructionJumpIfItem

namespace InstructionJumpSwitchItem

theorem reads_parseExpressions (ctx : Context) {pos n : Nat}
    (h : pos + n * Pod.size ExpressionParams ≤ w.size) :
    Reads (fun x => x.1 = w.at_ (pos + n * Pod.size ExpressionParams) ∧ x.2.length = n)
      (parseExpressions ctx (w.at_ pos) n) := by
  induction n generalizing ctx pos with
  | zero => exact Reads.ok ⟨by rw [Nat.zero_mul, Nat.add_zero], rfl⟩
  | succ n ih =>
      rw [Nat.succ_mul] at h ⊢
      have hfit : pos + Pod.size ExpressionParams ≤ w.size := by omega
      have hrest : pos + Pod.size ExpressionParams + n * Pod.size ExpressionParams ≤ w.size := by
        omega
      rw [parseExpressions, Source.readGen_of_le hfit, ok_bind]
      refine Reads.after (Contained.validateField _ _ _) fun _ _ => ?_
      refine (reads_getLabelTo ctx _).bind fun ctx' target _ => ?_
      refine (ih ctx' hrest).bind fun ctx'' ⟨src, exps⟩ ⟨hsrc, hlength⟩ => Reads.ok ?_
      refine ⟨hsrc.trans ?_, congrArg Nat.succ hlength⟩
      rw [Nat.add_assoc, Nat.add_comm (Pod.size ExpressionParams)]

theorem FixParams.count_le (fp : FixParams) : fp.count.toNat ≤ fp.size.toNat := by
  rw [count]
  split
  · rw [UInt16.toNat_and]
    exact Nat.and_le_left
  · exact Nat.le_refl _

/-- The cases end where the size in front of them says. -/
theorem reads_parse (ctx : Context) (h : w.Spans (1 + Pod.size FixParams)) :
    Reads (fun x => 1 + Pod.size FixParams +
        (valueAt FixParams w 1).size.toNat * Pod.size ExpressionParams ≤ w.size ∧
        x.2.expressions.length = (valueAt FixParams w 1).count.toNat ∧
        x.1 = w.at_ (1 + Pod.size FixParams +
          (valueAt FixParams w 1).count.toNat * Pod.size ExpressionParams))
      (parse ctx (w.at_ 1)) := by
  refine Reads.after (Source.contained_checkRemainingSize _ _) fun _ hcheck => ?_
  have hfit := h.le_remaining (by decide) hcheck
  rw [Source.readGen_of_le hfit, ok_bind]
  dsimp only
  rw [show Pod.ofBytes (slice w.bytes 1 (Pod.size FixParams)) = valueAt FixParams w 1 from rfl]
  generalize valueAt FixParams w 1 = fp
  refine Reads.after (Contained.validateField _ _ _) fun _ hroom => ?_
  have hroom : fp.size.toNat * Pod.size ExpressionParams ≤ w.size - (1 + Pod.size FixParams) :=
    require_eq_ok.mp hroom
  have hcount := Nat.mul_le_mul_right (Pod.size ExpressionParams) fp.count_le
  have hexps : 1 + Pod.size FixParams + fp.count.toNat * Pod.size ExpressionParams ≤ w.size := by
    omega
  refine (reads_parseExpressions ctx hexps).bind fun ctx' ⟨src, exps⟩ ⟨hsrc, hlength⟩ => Reads.ok ?_
  exact ⟨by omega, hlength, hsrc⟩

end InstructionJumpSwitchItem

theorem reads_parseJumpSwitchNoire (ctx : Context)
    (h : w.Spans (1 + Pod.size InstructionJumpSwitchItem.FixParams)) :
    Reads (fun i => i.getSize ≤ w.size) (parseJumpSwitchNoire ctx (w.at_ 1)) := by
  refine (InstructionJumpSwitchItem.reads_parse ctx h).bind
    fun ctx' ⟨src, switch⟩ ⟨hroom, hlength, _⟩ => Reads.ok ?_
  have hcount := Nat.mul_le_mul_right (Pod.size InstructionJumpSwitchItem.ExpressionParams)
    (valueAt InstructionJumpSwitchItem.FixParams w 1).count_le
  rw [Instruction.getSize, Instruction.switchSize, hlength]
  omega

/-- What the guards behind the opcode are asked for. The trailing byte of a
switch is only looked for when its cases have room. -/
def InstructionType.guards (w : Source) : InstructionType → List Nat
  | .simple _ ts => [argsSize ts + 1]
  | .rndJump => [2, 2 + 4 * (valueAt UInt8 w 1).toNat]
  | .unimplemented => []
  | .jumpIf => [1 + Pod.size InstructionJumpIfItem.FixParams]
  | .jumpSwitchNoire => [1 + Pod.size InstructionJumpSwitchItem.FixParams]
  | .jumpSwitchPotbb =>
      let fp := valueAt InstructionJumpSwitchItem.FixParams w 1
      let fixed := 1 + Pod.size InstructionJumpSwitchItem.FixParams
      let room := fp.size.toNat * Pod.size InstructionJumpSwitchItem.ExpressionParams
      if fixed + room ≤ w.size then
        [fixed, fixed + fp.count.toNat * Pod.size InstructionJumpSwitchItem.ExpressionParams + 1]
      else [fixed]

theorem reads_parseJumpSwitchPotbb (ctx : Context)
    (h : ∀ n ∈ InstructionType.guards w .jumpSwitchPotbb, w.Spans n) :
    Reads (fun i => i.getSize ≤ w.size) (parseJumpSwitchPotbb ctx (w.at_ 1)) := by
  have hfixed : w.Spans (1 + Pod.size InstructionJumpSwitchItem.FixParams) := by
    refine h _ ?_
    rw [InstructionType.guards]
    split
    · exact List.mem_cons_self
    · exact List.mem_cons_self
  refine (InstructionJumpSwitchItem.reads_parse ctx hfixed).bind
    fun ctx' ⟨src, switch⟩ ⟨hroom, hlength, hsrc⟩ => ?_
  dsimp only at hroom hlength hsrc ⊢
  rw [hsrc]
  have hbyte := h (1 + Pod.size InstructionJumpSwitchItem.FixParams +
    (valueAt InstructionJumpSwitchItem.FixParams w 1).count.toNat *
      Pod.size InstructionJumpSwitchItem.ExpressionParams + 1) (by
    rw [InstructionType.guards, if_pos hroom]
    exact List.mem_cons_of_mem _ List.mem_cons_self)
  have hcount := (valueAt InstructionJumpSwitchItem.FixParams w 1).count.toNat_lt
  refine Reads.after (Source.contained_checkRemainingSize _ _) fun _ hcheck => ?_
  have hfit := hbyte.le_remaining (by
    change 1 + 6 + (valueAt InstructionJumpSwitchItem.FixParams w 1).count.toNat * 8 + 1 < 2 ^ 64
    omega) hcheck
  rw [Source.readUint8, Source.readUint_of_le hfit, ok_bind]
  refine Reads.ok ?_
  rw [Instruction.getSize, Instruction.switchSize, hlength, Nat.add_comm]
  exact hfit

theorem reads_parseInstruction (ctx : Context) (t : InstructionType)
    (h : ∀ n ∈ t.guards w, w.Spans n) :
    Reads (fun i => i.getSize ≤ w.size) (parseInstruction ctx (w.at_ 1) t) := by
  cases t with
  | simple noReturn ts => exact reads_parseSimple ctx noReturn ts (h _ List.mem_cons_self)
  | rndJump =>
      exact reads_parseRndJump ctx (h _ List.mem_cons_self)
        (h _ (List.mem_cons_of_mem _ List.mem_cons_self))
  | unimplemented => exact Reads.error not_false
  | jumpIf => exact InstructionJumpIfItem.reads_parse ctx (h _ List.mem_cons_self)
  | jumpSwitchNoire => exact reads_parseJumpSwitchNoire ctx (h _ List.mem_cons_self)
  | jumpSwitchPotbb => exact reads_parseJumpSwitchPotbb ctx h

/-- What the guards of the instruction at the start of the window are asked for. -/
def guards (f : Flavor) (w : Source) : List Nat :=
  1 :: (instructionMap f (valueAt UInt8 w 0)).guards w

theorem contained_insert {f : Flavor} {ctx : Context} {ptr : ItemPointer}
    (h : ∀ w, ctx.getSource ptr = .ok w → ∀ n ∈ guards f w, w.Spans n) :
    Contained (InstructionItem.insert f ctx ptr) := by
  refine (contained_getSource _ _).bind fun w hw => ?_
  obtain ⟨src, hbody, hsize, hat⟩ := getSource_spec hw
  have hspans := h w hw
  refine (Source.contained_checkSize _ _).bind fun _ hcheck => ?_
  have hone : 0 + Pod.size UInt8 ≤ w.size := (hspans _ List.mem_cons_self).le hcheck
  rw [hat, Source.readUint8, Source.readUint_of_le hone, ok_bind]
  have hparse := reads_parseInstruction ctx (instructionMap f (valueAt UInt8 w 0))
    fun n hn => hspans n (List.mem_cons_of_mem _ hn)
  refine hparse.contained.bind fun parsed hok => ?_
  obtain ⟨ctx', instruction⟩ := parsed
  have hrelabels := relabeling_parseInstruction ctx _ _ ctx' instruction hok
  have hfit := hparse.good ctx' instruction hok
  refine Contained.bind (contained_split2 fun src' hsrc' => ?_) fun _ _ => Contained.ok _
  have hsrc' : ctx'.bodyOf ptr.item = some (.raw src') := hsrc'
  rw [hrelabels.bodyOf, hbody] at hsrc'
  cases hsrc'
  change ptr.offset + (instruction.getSize + 0) ≤ src.size
  omega

end Stsc

end Neptools

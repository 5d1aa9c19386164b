import Neptools.Format.Defined
import Neptools.Format.Parsed
import Neptools.Stsc.File
import Neptools.Stsc.Relabel

/-!
Reading the items of an STSC file is refused or goes well, as long as it starts at an item
that is there.
-/

namespace Neptools

open Lib

namespace Stsc

open Context

variable {ctx : Context}

namespace RawArg

theorem defined_parseLabel (h : ctx.Indexed) (r : UInt32) : Defined (parseLabel ctx r) := by
  rw [parseLabel]
  split
  · exact .ok _
  · exact (h.defined_getLabelTo _).bind fun _ _ => .ok _

theorem defined_parseString (h : ctx.Indexed) (r : UInt32) : Defined (parseString ctx r) := by
  rw [parseString]
  split
  · exact .ok _
  · obtain ⟨ptr, hptr, hid⟩ := h.exists_getPointer r.toNat
    rw [hptr, ok_bind]
    split
    · refine (defined_getSource hid).bind fun src _ => ?_
      refine .bind (.of_read (src.failsLikeReads_preadCString 0)) fun string _ => ?_
      exact (h.defined_getLabelToNamed _ _).bind fun _ _ => .ok _
    · exact (h.defined_getLabelTo _).bind fun _ _ => .ok _

theorem defined_parse (h : ctx.Indexed) (a : RawArg) : Defined (a.parse ctx) := by
  cases a with
  | uint8 _ | uint16 _ | uint32 _ | float _ => exact .ok _
  | string r => exact (defined_parseString h r).bind fun _ _ => .ok _
  | code r | data r => exact (defined_parseLabel h r).bind fun _ _ => .ok _

theorem failsLikeReads_validate (size : Nat) (a : RawArg) : FailsLikeReads (a.validate size) := by
  cases a with
  | string _ | code _ | data _ => exact .validateField _ _ _
  | uint8 _ | uint16 _ | uint32 _ | float _ => exact .ok ()

end RawArg

theorem failsLikeReads_validateArgs (size : Nat) (as : List RawArg) :
    FailsLikeReads (validateArgs size as) := by
  induction as with
  | nil => exact .ok ()
  | cons a as ih => exact (a.failsLikeReads_validate size).bind fun _ => ih

theorem defined_parseArgs (h : ctx.Indexed) (as : List RawArg) : Defined (parseArgs ctx as) := by
  induction as generalizing ctx with
  | nil => exact .ok _
  | cons a as ih =>
      refine h.bind_relabeling (a.defined_parse h) (a.relabeling_parse ctx) fun ctx' arg _ h' => ?_
      exact (ih h').bind fun _ _ => .ok _

theorem defined_parseSimple (h : ctx.Indexed) (noReturn : Bool) (ts : List ArgType)
    (src : Source) : Defined (parseSimple ctx noReturn ts src) := by
  refine .bind (.of_read (src.failsLikeReads_checkSize _)) fun _ _ => ?_
  refine .bind (.of_read (src.failsLikeReads_read _)) fun raw _ => ?_
  refine .bind (.of_read (failsLikeReads_validateArgs _ _)) fun _ _ => ?_
  exact (defined_parseArgs h _).bind fun _ _ => .ok _

theorem defined_parseTargets (h : ctx.Indexed) (src : Source) (n : Nat) :
    Defined (parseTargets ctx src n) := by
  induction n generalizing ctx src with
  | zero => exact .ok _
  | succ n ih =>
      refine .bind (.of_read (src.failsLikeReads_readUint UInt32 .little)) fun x _ => ?_
      refine .bind (.of_read (.validateField _ _ _)) fun _ _ => ?_
      refine h.bind_relabeling (h.defined_getLabelTo _) (relabeling_getLabelTo ctx _)
        fun ctx' l _ h' => ?_
      exact (ih h' x.2).bind fun _ _ => .ok _

theorem defined_parseRndJump (h : ctx.Indexed) (src : Source) :
    Defined (parseRndJump ctx src) := by
  refine .bind (.of_read (src.failsLikeReads_checkSize _)) fun _ _ => ?_
  refine .bind (.of_read (src.failsLikeReads_readUint UInt8 .little)) fun x _ => ?_
  refine .bind (.of_read (x.2.failsLikeReads_checkSize _)) fun _ _ => ?_
  exact (defined_parseTargets h x.2 _).bind fun _ _ => .ok _

theorem InstructionJumpIfItem.failsLikeReads_parseTree (size : UInt16) (src : Source) (n : Nat) :
    FailsLikeReads (parseTree size src n) := by
  induction n generalizing src with
  | zero => exact .ok _
  | succ n ih =>
      refine (src.failsLikeReads_readGen NodeParams).bind fun x => ?_
      refine .bind (.bind (.validateField _ _ _) fun _ => .validateField _ _ _) fun _ => ?_
      exact (ih x.2).bind fun _ => .ok _

theorem InstructionJumpIfItem.defined_parse (h : ctx.Indexed) (src : Source) :
    Defined (parse ctx src) := by
  refine .bind (.of_read (src.failsLikeReads_checkSize _)) fun _ _ => ?_
  refine .bind (.of_read (src.failsLikeReads_readGen FixParams)) fun x _ => ?_
  refine .bind (.of_read (.bind (.validateField _ _ _) fun _ => .validateField _ _ _))
    fun _ _ => ?_
  refine (h.defined_getLabelTo _).bind fun y _ => ?_
  refine .bind (.of_read (x.2.failsLikeReads_checkSize _)) fun _ _ => ?_
  exact .bind (.of_read (failsLikeReads_parseTree _ _ _)) fun _ _ => .ok _

theorem InstructionJumpSwitchItem.defined_parseExpressions (h : ctx.Indexed) (src : Source)
    (n : Nat) : Defined (parseExpressions ctx src n) := by
  induction n generalizing ctx src with
  | zero => exact .ok _
  | succ n ih =>
      refine .bind (.of_read (src.failsLikeReads_readGen ExpressionParams)) fun x _ => ?_
      refine .bind (.of_read (.validateField _ _ _)) fun _ _ => ?_
      refine h.bind_relabeling (h.defined_getLabelTo _) (relabeling_getLabelTo ctx _)
        fun ctx' l _ h' => ?_
      exact (ih h' x.2).bind fun _ _ => .ok _

theorem InstructionJumpSwitchItem.defined_parse (h : ctx.Indexed) (src : Source) :
    Defined (parse ctx src) := by
  refine .bind (.of_read (src.failsLikeReads_checkSize _)) fun _ _ => ?_
  refine .bind (.of_read (src.failsLikeReads_readGen FixParams)) fun x _ => ?_
  refine .bind (.of_read (.validateField _ _ _)) fun _ _ => ?_
  exact (defined_parseExpressions h x.2 _).bind fun _ _ => .ok _

theorem defined_parseInstruction (h : ctx.Indexed) (src : Source) (t : InstructionType) :
    Defined (parseInstruction ctx src t) := by
  cases t with
  | simple noReturn ts => exact defined_parseSimple h noReturn ts src
  | rndJump => exact defined_parseRndJump h src
  | unimplemented => exact .error nofun
  | jumpIf => exact InstructionJumpIfItem.defined_parse h src
  | jumpSwitchNoire => exact (InstructionJumpSwitchItem.defined_parse h src).bind fun _ _ => .ok _
  | jumpSwitchPotbb =>
      refine (InstructionJumpSwitchItem.defined_parse h src).bind fun x _ => ?_
      refine .bind (.of_read (x.2.1.failsLikeReads_checkSize _)) fun _ _ => ?_
      exact .bind (.of_read (x.2.1.failsLikeReads_readUint UInt8 .little)) fun _ _ => .ok _

theorem InstructionItem.defined_createAndInsert (f : Flavor) (h : ctx.Indexed) {ptr : ItemPointer}
    (hid : ptr.item ∈ ctx.children.nodes.map Item.id) : Defined (createAndInsert f ctx ptr) := by
  refine .bind ?_ fun _ _ => .ok _
  refine (defined_getSource hid).bind fun src _ => ?_
  refine .bind (.of_read (src.failsLikeReads_checkSize _)) fun _ _ => ?_
  refine .bind (.of_read (src.failsLikeReads_readUint UInt8 .little)) fun x _ => ?_
  refine h.bind_relabeling (defined_parseInstruction h x.2 _) (relabeling_parseInstruction ctx _ _)
    fun ctx' i hrelabels h' => ?_
  rw [← hrelabels.ids] at hid
  exact (h'.consistent.defined_splitCreate hid).bind fun _ _ => .ok _

/-! The labels an instruction has lead to items. -/

/-- The label of the call, if it is about one, is at some place. -/
def Visit.Placed (ctx : Context) : Visit → Prop
  | string l | code l | checkedCode l => ctx.LabelPlaced l
  | next _ => True

variable {ctx' : Context}

theorem Visit.Placed.mono {v : Visit} (h : v.Placed ctx) (hread : ctx.StaysRead ctx') :
    v.Placed ctx' := by
  cases v with
  | string l | code l | checkedCode l => exact hread.placed l h
  | next _ => trivial

theorem labelPlaced_of_getLabelTo (h : ctx.Consistent) {pos : Nat} {l : LabelPtr}
    (hl : ctx.getLabelTo pos = .ok (ctx', l)) : ctx'.LabelPlaced l := by
  obtain ⟨ptr, -, hl⟩ := bind_eq_ok.mp hl
  exact ⟨ptr, h.getLabelToPtr_lookup hl⟩

namespace RawArg

theorem placed_parseString (h : ctx.Consistent) {r : UInt32} {l : LabelPtr}
    (hparse : parseString ctx r = .ok (ctx', some l)) : ctx'.LabelPlaced l := by
  rw [parseString] at hparse
  split at hparse
  · cases hparse
  · obtain ⟨ptr, hptr, hparse⟩ := bind_eq_ok.mp hparse
    split at hparse
    · obtain ⟨src, -, hparse⟩ := bind_eq_ok.mp hparse
      obtain ⟨string, -, hparse⟩ := bind_eq_ok.mp hparse
      obtain ⟨⟨ctx₁, l⟩, hl, hparse⟩ := bind_eq_ok.mp hparse
      cases hparse
      obtain ⟨ptr, -, hasked⟩ := getLabelToNamed_ok hl
      refine ⟨ptr, h.lookup_of_asked (hasked.imp_right ?_)⟩
      rintro ⟨x, hget, heq⟩
      exact ⟨x, _, hget, heq⟩
    · obtain ⟨⟨ctx₁, l⟩, hl, hparse⟩ := bind_eq_ok.mp hparse
      cases hparse
      exact labelPlaced_of_getLabelTo h hl

theorem placed_parseLabel (h : ctx.Consistent) {r : UInt32} {l : LabelPtr}
    (hparse : parseLabel ctx r = .ok (ctx', some l)) : ctx'.LabelPlaced l := by
  rw [parseLabel] at hparse
  split at hparse
  · cases hparse
  · obtain ⟨⟨ctx₁, l⟩, hl, hparse⟩ := bind_eq_ok.mp hparse
    cases hparse
    exact labelPlaced_of_getLabelTo h hl

theorem placed_parse (h : ctx.Consistent) {a : RawArg} {arg : Arg}
    (hparse : a.parse ctx = .ok (ctx', arg)) : ∀ v ∈ arg.visits, v.Placed ctx' := by
  cases a with
  | uint8 _ | uint16 _ | uint32 _ | float _ =>
      cases hparse
      exact fun _ hnil => nomatch hnil
  | string r =>
      obtain ⟨⟨ctx₁, l⟩, hl, hparse⟩ := bind_eq_ok.mp hparse
      cases hparse
      cases l with
      | none => exact fun _ hnil => nomatch hnil
      | some l => simpa [Arg.visits, Visit.Placed] using placed_parseString h hl
  | code r =>
      obtain ⟨⟨ctx₁, l⟩, hl, hparse⟩ := bind_eq_ok.mp hparse
      cases hparse
      cases l with
      | none => exact fun _ hnil => nomatch hnil
      | some l => simpa [Arg.visits, Visit.Placed] using placed_parseLabel h hl
  | data r =>
      obtain ⟨⟨ctx₁, l⟩, hl, hparse⟩ := bind_eq_ok.mp hparse
      cases hparse
      exact fun _ hnil => nomatch hnil

end RawArg

theorem placed_parseArgs (h : ctx.Consistent) {as : List RawArg} {args : List Arg}
    (hparse : parseArgs ctx as = .ok (ctx', args)) :
    ∀ v ∈ args.flatMap Arg.visits, v.Placed ctx' := by
  induction as generalizing ctx args with
  | nil =>
      cases hparse
      exact fun _ hnil => nomatch hnil
  | cons a as ih =>
      obtain ⟨⟨ctx₁, arg⟩, ha, hparse⟩ := bind_eq_ok.mp hparse
      obtain ⟨⟨ctx₂, rest⟩, hrest, hparse⟩ := bind_eq_ok.mp hparse
      cases hparse
      have hrelabels := relabeling_parseArgs ctx₁ as _ _ hrest
      intro v hv
      rw [List.flatMap_cons, List.mem_append] at hv
      rcases hv with hv | hv
      · exact (RawArg.placed_parse h ha v hv).mono hrelabels.staysRead
      · exact ih ((a.relabeling_parse ctx _ _ ha).consistent h) hrest v hv

theorem placed_parseTargets (h : ctx.Consistent) {src : Source} {n : Nat} {tgts : List LabelPtr}
    (hparse : parseTargets ctx src n = .ok (ctx', tgts)) : ∀ l ∈ tgts, ctx'.LabelPlaced l := by
  induction n generalizing ctx src tgts with
  | zero =>
      cases hparse
      exact fun _ hnil => nomatch hnil
  | succ n ih =>
      obtain ⟨⟨t, src'⟩, -, hparse⟩ := bind_eq_ok.mp hparse
      obtain ⟨_, -, hparse⟩ := bind_eq_ok.mp hparse
      obtain ⟨⟨ctx₁, l⟩, hl, hparse⟩ := bind_eq_ok.mp hparse
      obtain ⟨⟨ctx₂, ls⟩, hls, hparse⟩ := bind_eq_ok.mp hparse
      cases hparse
      have hrelabels := relabeling_parseTargets ctx₁ src' n _ _ hls
      rw [List.forall_mem_cons]
      exact ⟨hrelabels.staysRead.placed l (labelPlaced_of_getLabelTo h hl),
        ih ((relabeling_getLabelTo ctx _ _ _ hl).consistent h) hls⟩

theorem InstructionJumpSwitchItem.placed_parseExpressions (h : ctx.Consistent) {src : Source}
    {n : Nat} {x : Source × List Expression}
    (hparse : parseExpressions ctx src n = .ok (ctx', x)) :
    ∀ e ∈ x.2, ctx'.LabelPlaced e.target := by
  induction n generalizing ctx src x with
  | zero =>
      cases hparse
      exact fun _ hnil => nomatch hnil
  | succ n ih =>
      obtain ⟨⟨exp, src'⟩, -, hparse⟩ := bind_eq_ok.mp hparse
      obtain ⟨_, -, hparse⟩ := bind_eq_ok.mp hparse
      obtain ⟨⟨ctx₁, l⟩, hl, hparse⟩ := bind_eq_ok.mp hparse
      obtain ⟨⟨ctx₂, src₂, es⟩, hes, hparse⟩ := bind_eq_ok.mp hparse
      cases hparse
      have hrelabels := relabeling_parseExpressions ctx₁ src' n _ _ hes
      rw [List.forall_mem_cons]
      exact ⟨hrelabels.staysRead.placed l (labelPlaced_of_getLabelTo h hl),
        ih ((relabeling_getLabelTo ctx _ _ _ hl).consistent h) hes⟩

theorem InstructionJumpSwitchItem.placed_visits {i : InstructionJumpSwitchItem} {id : Nat}
    (h : ∀ e ∈ i.expressions, ctx.LabelPlaced e.target) : ∀ v ∈ i.visits id, v.Placed ctx := by
  intro v hv
  rw [visits, List.mem_append, List.mem_map] at hv
  rcases hv with ⟨e, he, rfl⟩ | hv
  · exact h e he
  · split at hv
    · cases hv
    · rw [List.mem_singleton.mp hv]
      trivial

theorem InstructionJumpSwitchItem.placed_parse (h : ctx.Consistent) {src : Source} {id : Nat}
    {x : Source × InstructionJumpSwitchItem} (hparse : parse ctx src = .ok (ctx', x)) :
    ∀ v ∈ x.2.visits id, v.Placed ctx' := by
  obtain ⟨_, -, hparse⟩ := bind_eq_ok.mp hparse
  obtain ⟨⟨fp, src'⟩, -, hparse⟩ := bind_eq_ok.mp hparse
  obtain ⟨_, -, hparse⟩ := bind_eq_ok.mp hparse
  obtain ⟨⟨ctx₁, src₁, es⟩, hes, hparse⟩ := bind_eq_ok.mp hparse
  cases hparse
  exact placed_visits (placed_parseExpressions h hes)

theorem placed_parseInstruction (h : ctx.Consistent) {src : Source} {t : InstructionType}
    {i : Instruction} (id : Nat) (hparse : parseInstruction ctx src t = .ok (ctx', i)) :
    ∀ v ∈ i.visits id, v.Placed ctx' := by
  cases t with
  | simple noReturn ts =>
      obtain ⟨_, -, hparse⟩ := bind_eq_ok.mp hparse
      obtain ⟨raw, -, hparse⟩ := bind_eq_ok.mp hparse
      obtain ⟨_, -, hparse⟩ := bind_eq_ok.mp hparse
      obtain ⟨⟨ctx₁, args⟩, hargs, hparse⟩ := bind_eq_ok.mp hparse
      cases hparse
      intro v hv
      rw [Instruction.visits, List.mem_append] at hv
      rcases hv with hv | hv
      · exact placed_parseArgs h hargs v hv
      · split at hv
        · cases hv
        · rw [List.mem_singleton.mp hv]
          trivial
  | rndJump =>
      obtain ⟨_, -, hparse⟩ := bind_eq_ok.mp hparse
      obtain ⟨⟨n, src'⟩, -, hparse⟩ := bind_eq_ok.mp hparse
      obtain ⟨_, -, hparse⟩ := bind_eq_ok.mp hparse
      obtain ⟨⟨ctx₁, tgts⟩, htgts, hparse⟩ := bind_eq_ok.mp hparse
      cases hparse
      intro v hv
      rw [Instruction.visits, List.mem_append, List.mem_map] at hv
      rcases hv with ⟨l, hl, rfl⟩ | hv
      · exact placed_parseTargets h htgts l hl
      · rw [List.mem_singleton.mp hv]
        trivial
  | unimplemented => cases hparse
  | jumpIf =>
      obtain ⟨_, -, hparse⟩ := bind_eq_ok.mp hparse
      obtain ⟨⟨fp, src'⟩, -, hparse⟩ := bind_eq_ok.mp hparse
      obtain ⟨_, -, hparse⟩ := bind_eq_ok.mp hparse
      obtain ⟨⟨ctx₁, tgt⟩, htgt, hparse⟩ := bind_eq_ok.mp hparse
      obtain ⟨_, -, hparse⟩ := bind_eq_ok.mp hparse
      obtain ⟨tree, -, hparse⟩ := bind_eq_ok.mp hparse
      cases hparse
      rw [Instruction.visits, List.forall_mem_cons]
      refine ⟨labelPlaced_of_getLabelTo h htgt, fun v hv => ?_⟩
      rw [List.mem_singleton.mp hv]
      trivial
  | jumpSwitchNoire =>
      obtain ⟨⟨ctx₁, src₁, switch⟩, hswitch, hparse⟩ := bind_eq_ok.mp hparse
      cases hparse
      exact InstructionJumpSwitchItem.placed_parse h hswitch
  | jumpSwitchPotbb =>
      obtain ⟨⟨ctx₁, src₁, switch⟩, hswitch, hparse⟩ := bind_eq_ok.mp hparse
      obtain ⟨_, -, hparse⟩ := bind_eq_ok.mp hparse
      obtain ⟨⟨trailingByte, src₂⟩, -, hparse⟩ := bind_eq_ok.mp hparse
      cases hparse
      exact InstructionJumpSwitchItem.placed_parse h hswitch

end Stsc

end Neptools

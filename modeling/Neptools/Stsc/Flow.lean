import Neptools.Stcm.Stepping
import Neptools.Stsc.Defined

/-!
Where the code of an STSC file leads. Reading it ends, since a call that is not answered at
once takes bytes that were not read before; and then no instruction leads to bytes that are
not read.
-/

namespace Neptools

open Lib

namespace Stsc

open Context

/-! What is to hold in the end. -/

def Arg.code? : Arg → Option LabelPtr
  | .code l => l
  | _ => none

/-- Where the instruction can jump to. -/
def Instruction.targets : Instruction → List LabelPtr
  | simple _ args => args.filterMap Arg.code?
  | rndJump tgts => tgts
  | jumpIf tgt _ => [tgt]
  | jumpSwitchNoire switch | jumpSwitchPotbb switch _ => switch.expressions.map fun e => e.target

/-- Whether the code can go on behind the instruction. -/
def Instruction.goesOn : Instruction → Bool
  | simple noReturn _ => !noReturn
  | jumpSwitchNoire switch | jumpSwitchPotbb switch _ => !switch.lastIsDefault
  | _ => true

/-- Nothing the code can come to is raw. -/
def FlowRead (ctx : Context) : Prop :=
  ∀ it ∈ ctx.children.nodes, ∀ i : InstructionItem, it.body = .stscInstruction i →
    (∀ l ∈ i.instruction.targets, ctx.LabelParsed l) ∧
      (i.instruction.goesOn = true → ctx.NextParsed it.id)

/-! The calls. -/

namespace Visit

/-- The call can be made: what it is about is there. -/
def Ready (ctx : Context) (v : Visit) : Prop := v.Placed ctx ∧ ∀ id, v = .next id → ctx.Standing id

/-- The call was made: what it is about is read. -/
def Settled (ctx : Context) : Visit → Prop
  | string l | code l | checkedCode l => ctx.LabelParsed l
  | next id => ctx.Parsed id ∧ ctx.NextParsed id

/-- Some instruction makes the call. -/
def Owed (ctx : Context) (v : Visit) : Prop :=
  ∃ it ∈ ctx.children.nodes, ∃ i : InstructionItem, it.body = .stscInstruction i ∧
    v ∈ i.instruction.visits it.id

end Visit

/-- The calls that lead to what is to hold in the end are made. -/
theorem flowRead_of_settled {ctx : Context} (h : ∀ v : Visit, v.Owed ctx → v.Settled ctx) :
    FlowRead ctx := by
  intro it hit ⟨opcode, i⟩ hbody
  have hmade : ∀ v ∈ i.visits it.id, v.Settled ctx := fun v hv => h v ⟨it, hit, _, hbody, hv⟩
  have hlast {vs : List Visit} {noReturn : Bool}
      (hvs : ∀ v ∈ vs ++ (if noReturn then [] else [.next it.id]), v.Settled ctx)
      (hgoesOn : (!noReturn) = true) : ctx.NextParsed it.id := by
    refine (hvs (.next it.id) ?_).2
    simp only [Bool.not_eq_true'] at hgoesOn
    simp [hgoesOn]
  cases i with
  | simple noReturn args =>
      refine ⟨fun l hl => ?_, hlast hmade⟩
      obtain ⟨a, ha, hcode⟩ := List.mem_filterMap.mp hl
      refine hmade (.code l) (List.mem_append_left _ (List.mem_flatMap.mpr ⟨a, ha, ?_⟩))
      cases a with
      | code label =>
          obtain rfl : label = some l := hcode
          exact List.mem_cons_self
      | uint8 _ | uint16 _ | uint32 _ | float _ | string _ | data _ => cases hcode
  | rndJump tgts =>
      refine ⟨fun l hl => ?_, fun _ => (hmade (.next it.id) ?_).2⟩
      · exact hmade (.code l) (List.mem_append_left _ (List.mem_map_of_mem hl))
      · exact List.mem_append_right _ List.mem_cons_self
  | jumpIf tgt tree =>
      refine ⟨fun l hl => ?_, fun _ => (hmade (.next it.id) ?_).2⟩
      · rw [List.mem_singleton.mp hl]
        exact hmade (.code tgt) List.mem_cons_self
      · exact List.mem_cons_of_mem _ List.mem_cons_self
  | jumpSwitchNoire switch | jumpSwitchPotbb switch _ =>
      refine ⟨fun l hl => ?_, hlast hmade⟩
      obtain ⟨e, he, rfl⟩ := List.mem_map.mp hl
      exact hmade (.checkedCode e.target) (List.mem_append_left _ (List.mem_map_of_mem he))

/-- Every call stands for bytes of the instruction. -/
theorem Instruction.length_visits_le (i : Instruction) (id : Nat) :
    (i.visits id).length ≤ i.getSize := by
  have hlast (noReturn : Bool) :
      (if noReturn then [] else [Visit.next id] : List Visit).length ≤ 1 := by
    cases noReturn <;> simp
  have hswitch (switch : InstructionJumpSwitchItem) :
      (switch.visits id).length ≤ switchSize switch := by
    have hlast := hlast switch.lastIsDefault
    rw [InstructionJumpSwitchItem.visits, List.length_append, List.length_map, switchSize]
    change _ ≤ 1 + 6 + switch.expressions.length * 8
    omega
  cases i with
  | simple noReturn args =>
      have hargs : (args.flatMap Arg.visits).length ≤ (args.map fun a => a.type.size).sum := by
        induction args with
        | nil => exact Nat.le_refl _
        | cons a as ih =>
            have harg : a.visits.length ≤ a.type.size := by
              cases a with
              | string l | code l => cases l <;> simp [Arg.visits, Arg.type, ArgType.size]
              | uint8 _ | uint16 _ | uint32 _ | float _ | data _ => simp [Arg.visits]
            rw [List.flatMap_cons, List.length_append, List.map_cons, List.sum_cons]
            omega
      have hlast := hlast noReturn
      rw [visits, getSize, List.length_append]
      omega
  | rndJump tgts =>
      rw [visits, getSize, List.length_append, List.length_map, List.length_singleton]
      omega
  | jumpIf tgt tree =>
      rw [visits, getSize]
      change 2 ≤ 1 + 6 + tree.length * _
      omega
  | jumpSwitchNoire switch => exact hswitch switch
  | jumpSwitchPotbb switch _ => exact (hswitch switch).trans (Nat.le_add_left _ _)

/-! What one call does. -/

variable {ctx ctx₁ ctx' : Context}

/-- All items are in one list, every position and label leads to one, and a raw one is followed
by another one. -/
structure Reading (ctx : Context) : Prop where
  listed : Stcm.HeaderItem.Listed ctx
  pointed : ctx.Pointed

theorem Reading.consistent (h : Reading ctx) : ctx.Consistent := h.listed.consistent

theorem Reading.indexed (h : Reading ctx) : ctx.Indexed := ⟨h.consistent, h.pointed⟩

theorem Reading.edits (h : Reading ctx) (hedits : Edits (fun _ => False) Body.Leaf ctx ctx') :
    Reading ctx' :=
  ⟨h.listed.edits hedits, hedits.pointed h.consistent h.pointed⟩

def goals : Worklist.Goals Context Visit where
  Good := Reading
  Ready ctx v := v.Ready ctx
  Settled ctx v := v.Settled ctx
  Owed ctx v := v.Owed ctx
  room := rawBytes

theorem Visit.Ready.edits {v : Visit} (h : v.Ready ctx) (hctx : ctx.Consistent)
    (hedits : Edits (fun _ => False) Body.Leaf ctx ctx') : v.Ready ctx' :=
  ⟨h.1.mono (hedits.staysRead hctx), fun id hid => hedits.standing hctx not_false (h.2 id hid)⟩

theorem Visit.Settled.mono {v : Visit} (h : v.Settled ctx) (hread : ctx.StaysRead ctx') :
    v.Settled ctx' := by
  cases v with
  | string l | code l | checkedCode l => exact hread.label l h
  | next id => exact ⟨hread.parsed id h.1, hread.next id h.1 h.2⟩

theorem Visit.Owed.of_relabels (hrelabels : ctx.Relabels ctx') {v : Visit} (h : v.Owed ctx') :
    v.Owed ctx := by
  obtain ⟨it, hit, i, hbody, hv⟩ := h
  obtain ⟨it', hit', heq⟩ := exists_of_plain hrelabels.plain.symm hit
  have hid : it'.id = it.id := (congrArg Item.id heq :)
  exact ⟨it', hit', i, (body_of_plain heq).trans hbody, hid ▸ hv⟩

/-- Nothing is done in a call about what is read already. -/
theorem performed_same (h : Reading ctx) {v : Visit} (hsettled : v.Settled ctx) :
    goals.Performed ctx v ctx [] where
  good := h
  settled := hsettled
  ready _ hnil := nomatch hnil
  keepsReady _ hready := hready
  keepsSettled _ hsettled := hsettled
  owed _ howed := .inl howed
  room := Nat.le_refl _

/-- An item is split off, and makes the calls `vs`. -/
theorem performed_split (h : Reading ctx) (hrelabels : ctx.Relabels ctx₁) {id pos : Nat}
    {body : Body} (hsplit : ctx₁.splitCreate id pos body = .ok ctx') (hleaf : body.Leaf)
    (hheader : body.isHeader = false) (hraw : body.isRaw = false) {v : Visit}
    (hsettled : v.Settled ctx') {vs : List Visit} (hready : ∀ v ∈ vs, v.Ready ctx')
    (hroom : vs.length ≤ body.ownSize)
    (howed : ∀ i : InstructionItem, body = .stscInstruction i →
      vs = i.instruction.visits ctx₁.nextId) : goals.Performed ctx v ctx' vs := by
  have hedits : Edits (fun _ => False) Body.Leaf ctx ctx' :=
    (Edits.single (.relabel hrelabels)).trans (.leaf hsplit hleaf hheader hraw)
  have hctx₁ := hrelabels.consistent h.consistent
  have hread := hedits.staysRead h.consistent
  refine ⟨h.edits hedits, hsettled, hready, fun v hv => hv.edits h.consistent hedits,
    fun v hv => hv.mono hread, ?_, ?_⟩
  · rintro v ⟨it, hit, i, hbody, hv⟩
    rcases hctx₁.mem_splitCreate hsplit hit (by rw [hbody]; rfl) with hold | ⟨hid, hnew⟩
    · exact .inl (.of_relabels hrelabels ⟨it, hold, i, hbody, hv⟩)
    · refine .inr ?_
      rwa [howed i (hnew.symm.trans hbody), ← hid]
  · have hbytes := hctx₁.splitCreate_rawBytes hsplit hraw
    rw [hrelabels.rawBytes] at hbytes
    change ctx'.rawBytes + vs.length ≤ ctx.rawBytes
    omega

/-- What is split off is followed by an item, as the raw one was. -/
theorem Reading.standing_split (h : Reading ctx) {id pos : Nat} {body : Body}
    (hsplit : ctx.splitCreate id pos body = .ok ctx') (hheader : body.isHeader = false)
    (hraw : body.isRaw = false) : ctx'.Standing ctx.nextId := by
  refine ⟨h.consistent.splitCreate_new hsplit hheader hraw, ?_⟩
  obtain ⟨src, hbody, ⟨-, hsame⟩ | ⟨b, back, hsome, -⟩⟩ := h.consistent.splitCreate_next hsplit
  · rw [HasNext, hsame]
    exact h.consistent.hasNext_of_flat h.listed.rawSpaced h.listed.flat hbody
  · rw [HasNext, hsome]
    exact Option.some_ne_none _

theorem Instruction.eq_of_next_mem_visits {i : Instruction} {id id' : Nat}
    (h : Visit.next id' ∈ i.visits id) : id' = id := by
  have hlast {vs : List Visit} {noReturn : Bool} (hvs : ∀ v ∈ vs, v ≠ .next id')
      (hmem : Visit.next id' ∈ vs ++ if noReturn then [] else [.next id]) : id' = id := by
    rcases List.mem_append.mp hmem with hmem | hmem
    · exact absurd rfl (hvs _ hmem)
    · split at hmem
      · cases hmem
      · exact Visit.next.inj (List.mem_singleton.mp hmem)
  have hswitch {switch : InstructionJumpSwitchItem} (hmem : .next id' ∈ switch.visits id) :
      id' = id := by
    refine hlast (fun v hv => ?_) hmem
    obtain ⟨e, -, rfl⟩ := List.mem_map.mp hv
    exact nofun
  cases i with
  | simple noReturn args =>
      refine hlast (fun v hv => ?_) h
      obtain ⟨a, -, hv⟩ := List.mem_flatMap.mp hv
      rw [Arg.visits.eq_def] at hv
      split at hv
      · simp_all
      · simp_all
      · cases hv
  | rndJump tgts =>
      simpa [visits] using h
  | jumpIf tgt tree =>
      simpa [visits] using h
  | jumpSwitchNoire switch => exact hswitch h
  | jumpSwitchPotbb switch _ => exact hswitch h

/-- An instruction is read, and its calls can be made. -/
theorem InstructionItem.createAndInsert_performed {f : Flavor} (h : Reading ctx)
    {ptr : ItemPointer} {vs : List Visit} (hcreate : createAndInsert f ctx ptr = .ok (ctx', vs))
    {v : Visit} (hsettled : ∀ ctx₁ i, ctx.Relabels ctx₁ →
      ctx₁.splitCreate ptr.item ptr.offset (.stscInstruction i) = .ok ctx' → v.Settled ctx') :
    goals.Performed ctx v ctx' vs := by
  obtain ⟨⟨ctx₂, id, i⟩, hinsert, heq⟩ := bind_eq_ok.mp hcreate
  cases heq
  obtain ⟨src, -, hinsert⟩ := bind_eq_ok.mp hinsert
  obtain ⟨_, -, hinsert⟩ := bind_eq_ok.mp hinsert
  obtain ⟨⟨opcode, src'⟩, -, hinsert⟩ := bind_eq_ok.mp hinsert
  obtain ⟨⟨ctx₁, i'⟩, hparse, hinsert⟩ := bind_eq_ok.mp hinsert
  obtain ⟨ctx₂, hsplit, heq⟩ := bind_eq_ok.mp hinsert
  cases heq
  have hrelabels := relabeling_parseInstruction ctx src' _ ctx₁ i hparse
  have hctx₁ := hrelabels.consistent h.consistent
  have hsplit : ctx₁.splitCreate ptr.item ptr.offset
    (.stscInstruction { opcode, instruction := i }) = .ok ctx' := hsplit
  refine performed_split h hrelabels hsplit rfl rfl rfl (hsettled _ _ hrelabels hsplit)
    (fun v hv => ⟨?_, ?_⟩) (i.length_visits_le _) fun j hj => ?_
  · exact (placed_parseInstruction h.consistent _ hparse v hv).mono
      (hctx₁.splitCreate_staysRead hsplit)
  · rintro id rfl
    rw [Instruction.eq_of_next_mem_visits hv]
    exact (h.edits (.single (.relabel hrelabels))).standing_split hsplit rfl rfl
  · cases hj
    rfl

theorem isRaw_of_mem (h : ctx.Consistent) {it : Item} (hit : it ∈ ctx.children.nodes) :
    ctx.isRaw it.id = it.body.isRaw := by
  obtain ⟨children, hmem⟩ := Forest.mem_nodes.mp hit
  rw [isRaw, h.find?_of_mem hmem]
  cases hbody : it.body with
  | raw src => simp only [hbody, Body.isRaw]
  | _ => simp only [hbody, Body.isRaw]

/-- The item of a label. -/
theorem parsed_of_lookup (h : ctx.Consistent) {l : LabelPtr} {ptr : ItemPointer}
    (hl : ctx.labels.lookup l = some (some ptr)) (hraw : ¬ ctx.isRaw ptr.item = true) :
    ctx.LabelParsed l := by
  obtain ⟨it, hit, hid, -⟩ := h.attached l ptr hl
  rw [← hid, isRaw_of_mem h hit, Bool.not_eq_true] at hraw
  exact ⟨ptr, hl, it, hit, hid, hraw⟩

/-- The label a call starts from leads to what the call reads. -/
theorem labelParsed_split (h : ctx.Consistent) (hrelabels : ctx.Relabels ctx₁) {l : LabelPtr}
    {ptr : ItemPointer} (hl : ctx.labels.lookup l = some (some ptr)) {body : Body}
    (hsplit : ctx₁.splitCreate ptr.item ptr.offset body = .ok ctx')
    (hheader : body.isHeader = false) (hraw : body.isRaw = false) : ctx'.LabelParsed l :=
  (hrelabels.consistent h).splitCreate_at (hrelabels.kept l ptr hl) hheader hraw hsplit

theorem Visit.string_performed (h : Reading ctx) {l : LabelPtr} {ptr : ItemPointer}
    (hl : ctx.labels.lookup l = some (some ptr)) {text : Bytes}
    (hmake : CStringItem.maybeCreate ctx ptr = .ok (ctx', text)) :
    goals.Performed ctx (.string l) ctx' [] := by
  rw [CStringItem.maybeCreate] at hmake
  split at hmake
  · obtain ⟨src, -, hmake⟩ := bind_eq_ok.mp hmake
    obtain ⟨string, -, hmake⟩ := bind_eq_ok.mp hmake
    obtain ⟨ctx₂, hsplit, hmake⟩ := bind_eq_ok.mp hmake
    cases hmake
    refine performed_split h (.refl ctx) hsplit rfl rfl rfl ?_ (List.forall_mem_nil _)
      (Nat.zero_le _) fun i hi => Body.noConfusion hi
    exact labelParsed_split h.consistent (.refl ctx) hl hsplit rfl rfl
  · rename_i hraw
    obtain ⟨x, -, hmake⟩ := bind_eq_ok.mp hmake
    obtain ⟨_, -, hmake⟩ := bind_eq_ok.mp hmake
    split at hmake
    · cases hmake
      exact performed_same h (parsed_of_lookup h.consistent hl hraw)
    · cases hmake

/-- A call of `MaybeCreate`, checked or not, for the instruction at a label. -/
theorem InstructionItem.make_performed {f : Flavor} (h : Reading ctx) {v : Visit} {l : LabelPtr}
    (hv : ∀ ctx : Context, v.Settled ctx ↔ ctx.LabelParsed l) {ptr : ItemPointer}
    (hl : ctx.labels.lookup l = some (some ptr)) {vs : List Visit}
    (hmake : (ctx.isRaw ptr.item = true ∧ createAndInsert f ctx ptr = .ok (ctx', vs)) ∨
      ¬ ctx.isRaw ptr.item = true ∧ (ctx', vs) = (ctx, [])) : goals.Performed ctx v ctx' vs := by
  rcases hmake with ⟨-, hcreate⟩ | ⟨hraw, heq⟩
  · refine createAndInsert_performed h hcreate fun ctx₁ i hrelabels hsplit => (hv ctx').mpr ?_
    exact labelParsed_split h.consistent hrelabels hl hsplit rfl rfl
  · cases heq
    exact performed_same h ((hv ctx).mpr (parsed_of_lookup h.consistent hl hraw))

theorem InstructionItem.maybeCreateUnchecked_ok {f : Flavor} {ptr : ItemPointer}
    {y : Context × List Visit} (h : maybeCreateUnchecked f ctx ptr = .ok y) :
    (ctx.isRaw ptr.item = true ∧ createAndInsert f ctx ptr = .ok y) ∨
      ¬ ctx.isRaw ptr.item = true ∧ y = (ctx, []) := by
  rw [maybeCreateUnchecked] at h
  split at h
  · rename_i hraw
    exact .inl ⟨hraw, h⟩
  · rename_i hraw
    cases h
    exact .inr ⟨hraw, rfl⟩

theorem InstructionItem.maybeCreate_ok {f : Flavor} {ptr : ItemPointer}
    {y : Context × List Visit} (h : maybeCreate f ctx ptr = .ok y) :
    (ctx.isRaw ptr.item = true ∧ createAndInsert f ctx ptr = .ok y) ∨
      ¬ ctx.isRaw ptr.item = true ∧ y = (ctx, []) := by
  rw [maybeCreate] at h
  split at h
  · rename_i hraw
    exact .inl ⟨hraw, h⟩
  · rename_i hraw
    obtain ⟨x, -, h⟩ := bind_eq_ok.mp h
    obtain ⟨_, -, h⟩ := bind_eq_ok.mp h
    split at h
    · cases h
      exact .inr ⟨hraw, rfl⟩
    · cases h

theorem Visit.make_performed {f : Flavor} (h : Reading ctx) {v : Visit} (hready : v.Ready ctx)
    {vs : List Visit} (hmake : v.make f ctx = .ok (ctx', vs)) : goals.Performed ctx v ctx' vs := by
  cases v with
  | string l =>
      obtain ⟨ptr, hptr, hmake⟩ := bind_eq_ok.mp hmake
      obtain ⟨⟨ctx₂, text⟩, hcreate, heq⟩ := bind_eq_ok.mp hmake
      cases heq
      exact string_performed h (getPtr_eq_ok.mp hptr) hcreate
  | code l =>
      obtain ⟨ptr, hptr, hmake⟩ := bind_eq_ok.mp hmake
      exact InstructionItem.make_performed h (fun _ => .rfl) (getPtr_eq_ok.mp hptr)
        (InstructionItem.maybeCreateUnchecked_ok hmake)
  | checkedCode l =>
      obtain ⟨ptr, hptr, hmake⟩ := bind_eq_ok.mp hmake
      exact InstructionItem.make_performed h (fun _ => .rfl) (getPtr_eq_ok.mp hptr)
        (InstructionItem.maybeCreate_ok hmake)
  | next id =>
      obtain ⟨ptr, hptr, hmake⟩ := bind_eq_ok.mp hmake
      rw [nextPointer] at hptr
      split at hptr
      · rename_i b cs hnext
        cases hptr
        have hstanding := hready.2 id rfl
        rcases InstructionItem.maybeCreateUnchecked_ok hmake with ⟨-, hcreate⟩ | ⟨hraw, heq⟩
        · refine InstructionItem.createAndInsert_performed h hcreate
            fun ctx₁ i hrelabels hsplit => ?_
          have hctx₁ := hrelabels.consistent h.consistent
          have hsame := hrelabels.next? id
          rw [hnext] at hsame
          obtain ⟨next, hnext₁, heq⟩ := Option.map_eq_some_iff.mp hsame
          have hid : b.id = next.1.id := (congrArg (fun x => Item.id x.1) heq.symm :)
          rw [hid] at hsplit
          exact ⟨hctx₁.splitCreate_parsed hsplit (hrelabels.parsed hstanding.parsed),
            hctx₁.splitCreate_behind rfl hnext₁ hsplit⟩
        · cases heq
          refine performed_same h ⟨hstanding.parsed, (b, cs), hnext, ?_⟩
          have hb := Forest.mem_nodes.mpr ⟨cs, Forest.mem_of_next? hnext⟩
          rwa [isRaw_of_mem h.consistent hb, Bool.not_eq_true] at hraw
      · cases hptr

theorem mem_ids_of_placed (h : ctx.Consistent) {l : LabelPtr} {ptr : ItemPointer}
    (hl : ctx.labels.lookup l = some (some ptr)) :
    ptr.item ∈ ctx.children.nodes.map Item.id := by
  obtain ⟨it, hit, hid, -⟩ := h.attached l ptr hl
  exact hid ▸ List.mem_map_of_mem hit

theorem InstructionItem.defined_maybeCreateUnchecked (f : Flavor) (h : ctx.Indexed)
    {ptr : ItemPointer} (hid : ptr.item ∈ ctx.children.nodes.map Item.id) :
    Defined (maybeCreateUnchecked f ctx ptr) := by
  rw [maybeCreateUnchecked]
  split
  · exact defined_createAndInsert f h hid
  · exact .ok _

theorem InstructionItem.defined_maybeCreate (f : Flavor) (h : ctx.Indexed)
    {ptr : ItemPointer} (hid : ptr.item ∈ ctx.children.nodes.map Item.id) :
    Defined (maybeCreate f ctx ptr) := by
  rw [maybeCreate]
  split
  · exact defined_createAndInsert f h hid
  · obtain ⟨x, hget⟩ := exists_get hid
    rw [hget, ok_bind]
    refine .bind (.require nofun) fun _ _ => ?_
    split
    · exact .ok _
    · exact .error nofun

theorem Visit.defined_make (f : Flavor) (h : Reading ctx) {v : Visit} (hready : v.Ready ctx) :
    Defined (v.make f ctx) := by
  cases v with
  | string l =>
      obtain ⟨ptr, hl⟩ := hready.1
      rw [make, getPtr_eq_ok.mpr hl, ok_bind]
      exact (CStringItem.defined_maybeCreate h.indexed (mem_ids_of_placed h.consistent hl)).bind
        fun _ _ => .ok _
  | code l =>
      obtain ⟨ptr, hl⟩ := hready.1
      rw [make, getPtr_eq_ok.mpr hl, ok_bind]
      exact InstructionItem.defined_maybeCreateUnchecked f h.indexed
        (mem_ids_of_placed h.consistent hl)
  | checkedCode l =>
      obtain ⟨ptr, hl⟩ := hready.1
      rw [make, getPtr_eq_ok.mpr hl, ok_bind]
      exact InstructionItem.defined_maybeCreate f h.indexed (mem_ids_of_placed h.consistent hl)
  | next id =>
      obtain ⟨b, hnext⟩ := Option.ne_none_iff_exists'.mp (hready.2 id rfl).next
      have hb := Forest.mem_nodes.mpr ⟨b.2, Forest.mem_of_next? hnext⟩
      rw [make, nextPointer, hnext]
      exact InstructionItem.defined_maybeCreateUnchecked f h.indexed (List.mem_map_of_mem hb)

/-! The start. -/

namespace HeaderItem

theorem failsLikeReads_readExtra (α : Type) [Pod α] (src : Source) (flag : UInt32) :
    FailsLikeReads (readExtra α src flag) := by
  rw [readExtra]
  split
  · exact (src.failsLikeReads_readGen α).bind fun _ => .ok _
  · exact .ok _

theorem defined_parse (h : ctx.Indexed) (src : Source) : Defined (parse ctx src) := by
  refine .bind (.of_read (src.failsLikeReads_checkSize _)) fun _ _ => ?_
  refine .bind (.of_read (src.failsLikeReads_readGen Header)) fun x _ => ?_
  refine .bind (.of_read ?_) fun _ _ => ?_
  · iterate 3 refine .bind (.validateField _ _ _) fun _ => ?_
    exact .validateField _ _ _
  obtain ⟨ptr, hptr, -⟩ := h.exists_getPointer x.1.entryPoint.toNat
  dsimp only
  rw [hptr, ok_bind]
  refine .bind (.of_read (failsLikeReads_readExtra _ _ _)) fun _ _ => ?_
  refine .bind (.of_read (failsLikeReads_readExtra _ _ _)) fun _ _ => ?_
  exact .bind (.of_read (failsLikeReads_readExtra _ _ _)) fun _ _ => .ok _

/-- The label of the entry point is made. -/
theorem parse_ok {src : Source} {hdr : HeaderItem} (hparse : parse ctx src = .ok (ctx', hdr)) :
    ctx.Relabels ctx' ∧ ctx'.LabelPlaced hdr.entryPoint := by
  obtain ⟨_, -, hparse⟩ := bind_eq_ok.mp hparse
  obtain ⟨⟨raw, src₁⟩, -, hparse⟩ := bind_eq_ok.mp hparse
  obtain ⟨_, -, hparse⟩ := bind_eq_ok.mp hparse
  obtain ⟨ptr, hptr, hparse⟩ := bind_eq_ok.mp hparse
  obtain ⟨⟨extra1, src₂⟩, -, hparse⟩ := bind_eq_ok.mp hparse
  obtain ⟨⟨extra2, src₃⟩, -, hparse⟩ := bind_eq_ok.mp hparse
  obtain ⟨⟨extra4, src₄⟩, -, hparse⟩ := bind_eq_ok.mp hparse
  cases hparse
  obtain ⟨it, children, hfind, -⟩ := getPointer_ok hptr
  exact ⟨relabels_createLabelFallback _ (get_of_find? hfind), ptr, AList.lookup_insert _⟩

/-- The header is split off. -/
theorem insert_reading (h : Reading ctx) {ptr : ItemPointer} {hdr : HeaderItem}
    (hinsert : insert ctx ptr = .ok (ctx', hdr)) :
    Reading ctx' ∧ ctx'.LabelPlaced hdr.entryPoint ∧ ctx'.rawBytes ≤ ctx.rawBytes ∧
      ∀ v : Visit, v.Owed ctx' → v.Owed ctx := by
  obtain ⟨src, -, hinsert⟩ := bind_eq_ok.mp hinsert
  obtain ⟨⟨ctx₁, hdr'⟩, hparse, hinsert⟩ := bind_eq_ok.mp hinsert
  obtain ⟨ctx₂, hsplit, heq⟩ := bind_eq_ok.mp hinsert
  cases heq
  obtain ⟨hrelabels, hplaced⟩ := parse_ok hparse
  have h₁ : Reading ctx₁ := h.edits (.single (.relabel hrelabels))
  have hctx₁ := h₁.consistent
  refine ⟨⟨h₁.listed.split rfl rfl hsplit, ?_⟩, hctx₁.splitCreate_labelPlaced hsplit hplaced,
    ?_, ?_⟩
  · exact h₁.pointed.create.split2 hctx₁.create (hctx₁.fresh_create _) hsplit
  · have hbytes := hctx₁.splitCreate_rawBytes hsplit rfl
    rw [hrelabels.rawBytes] at hbytes
    omega
  · rintro v ⟨it, hit, i, hbody, hv⟩
    rcases hctx₁.mem_splitCreate hsplit hit (by rw [hbody]; rfl) with hold | ⟨-, hnew⟩
    · exact Visit.Owed.of_relabels hrelabels ⟨it, hold, i, hbody, hv⟩
    · rw [hbody] at hnew
      cases hnew

theorem defined_insert (h : Reading ctx) {ptr : ItemPointer}
    (hid : ptr.item ∈ ctx.children.nodes.map Item.id) : Defined (insert ctx ptr) := by
  refine (defined_getSource hid).bind fun src _ => ?_
  refine (defined_parse h.indexed src).bind fun x hparse => ?_
  have hrelabels := (parse_ok hparse).1
  rw [← hrelabels.ids] at hid
  exact ((hrelabels.consistent h.consistent).defined_splitCreate hid).bind fun _ _ => .ok _

/-- The header leads to the instruction at the entry point. -/
theorem createAndInsert_performed {f : Flavor} (h : Reading ctx) {ptr : ItemPointer}
    {vs : List Visit} (hcreate : createAndInsert f ctx ptr = .ok (ctx', vs)) :
    ∃ ctx₁, ∃ v : Visit, ctx₁.rawBytes ≤ ctx.rawBytes ∧ (∀ v : Visit, v.Owed ctx₁ → v.Owed ctx) ∧
      goals.Performed ctx₁ v ctx' vs := by
  obtain ⟨⟨ctx₁, hdr⟩, hinsert, hcreate⟩ := bind_eq_ok.mp hcreate
  obtain ⟨entryPoint, hentry, hcreate⟩ := bind_eq_ok.mp hcreate
  obtain ⟨h₁, -, hbytes, howed⟩ := insert_reading h hinsert
  refine ⟨ctx₁, .code hdr.entryPoint, hbytes, howed, ?_⟩
  refine InstructionItem.createAndInsert_performed h₁ hcreate fun ctx₂ i hrelabels hsplit => ?_
  exact labelParsed_split h₁.consistent hrelabels (getPtr_eq_ok.mp hentry) hsplit rfl rfl

theorem defined_createAndInsert (f : Flavor) (h : Reading ctx) {ptr : ItemPointer}
    (hid : ptr.item ∈ ctx.children.nodes.map Item.id) : Defined (createAndInsert f ctx ptr) := by
  refine (defined_insert h hid).bind fun x hinsert => ?_
  obtain ⟨h₁, ⟨entryPoint, hentry⟩, -, -⟩ := insert_reading h hinsert
  dsimp only
  rw [getPtr_eq_ok.mpr hentry, ok_bind]
  exact InstructionItem.defined_createAndInsert f h₁.indexed
    (mem_ids_of_placed h₁.consistent hentry)

end HeaderItem

namespace File

section

variable {src : Source} (h : (Context.root src).splitCreate 0 src.size .eof = .ok ctx)

include h

theorem reading_root : Reading ctx where
  listed := Stcm.File.root_listed h
  pointed := (pointed_root src).create.split2 (Consistent.root src).create
    ((Consistent.root src).fresh_create _) h

theorem rawBytes_root : ctx.rawBytes = src.size := by
  have hbytes := (Consistent.root src).splitCreate_rawBytes h rfl
  have hroot : (Context.root src).rawBytes = src.size := by
    change src.size + 0 = _
    omega
  have heof : Body.eof.ownSize = 0 := rfl
  omega

/-- The bytes in front of the end of the file are the item they were. -/
theorem root_mem_ids (hsize : src.size ≠ 0) : 0 ∈ ctx.children.nodes.map Item.id := by
  obtain ⟨k, r, src', p, hid, -, -, -, -, -, hp⟩ := (Consistent.root src).splitCreate_ok h
  rw [List.mem_map]
  refine ⟨{ r with labels := p.frontLabels, body := .raw p.front }, ?_, hid⟩
  rw [hp.children, mem_plug, Parts.items, Parts.frontItems, if_neg hsize]
  exact .inr List.mem_cons_self

end

/-- Nothing can be read from an empty file. -/
theorem parse_ne_ok {src : Source} (hsize : src.size = 0) {y : Context × HeaderItem} :
    HeaderItem.parse ctx src ≠ .ok y := by
  intro h
  obtain ⟨_, -, h⟩ := bind_eq_ok.mp h
  obtain ⟨⟨hdr, src'⟩, hread, -⟩ := bind_eq_ok.mp h
  have hle := (Source.readGen_spec hread).1.le
  rw [Pod.length_toBytes, Source.length_bytes, hsize] at hle
  have hheader : Pod.size HeaderItem.Header = 12 := rfl
  omega

theorem readDetached_ne_ok {src : Source} {w : Worklist Context Visit} :
    readDetached ctx src ≠ .ok w := by
  intro h
  obtain ⟨_, -, h⟩ := bind_eq_ok.mp h
  obtain ⟨_, -, h⟩ := bind_eq_ok.mp h
  cases h

theorem defined_readDetached {src : Source} (h : ctx.Indexed) (hsize : src.size = 0) :
    Defined (readDetached ctx src) := by
  refine .bind (.of_read (src.failsLikeReads_sub 0 src.size)) fun src' hsrc' => ?_
  refine .bind (HeaderItem.defined_parse h src') fun y hparse => ?_
  refine absurd hparse (parse_ne_ok ?_)
  rw [Source.size_of_sub hsrc', hsize]

theorem defined_start (f : Flavor) (src : Source) : Defined (start f src) := by
  refine .bind ?_ fun ctx hsplit => ?_
  · exact (Consistent.root src).defined_splitCreate List.mem_cons_self
  · have hreading := reading_root hsplit
    split
    · rename_i hsize
      exact defined_readDetached hreading.indexed hsize
    · rename_i hsize
      exact (HeaderItem.defined_createAndInsert f hreading (root_mem_ids hsplit hsize)).bind
        fun _ _ => .ok _

/-- The first instruction asks for the calls that are to be made. -/
theorem start_owed {f : Flavor} {src : Source} {w : Worklist Context Visit}
    (h : start f src = .ok w) : (∀ v : Visit, v.Owed w.state → v ∈ w.todo) ∧
      goals.OnTrack w ∧ w.state.rawBytes + w.todo.length ≤ src.size := by
  obtain ⟨ctx, hsplit, h⟩ := bind_eq_ok.mp h
  split at h
  · exact absurd h readDetached_ne_ok
  · obtain ⟨⟨ctx', vs⟩, hcreate, heq⟩ := bind_eq_ok.mp h
    cases heq
    obtain ⟨ctx₁, v, hbytes, howed, hdone⟩ :=
      HeaderItem.createAndInsert_performed (reading_root hsplit) hcreate
    have htodo : ∀ v : Visit, v.Owed ctx' → v ∈ vs := by
      intro v hv
      refine (hdone.owed v hv).resolve_left fun hold => ?_
      obtain ⟨it, hit, i, hbody, -⟩ := howed v hold
      rcases (Stcm.File.root_split hsplit).2 it hit with heq | ⟨src', heq, -⟩
      · rw [hbody] at heq
        cases heq
      · rw [hbody] at heq
        cases heq
    refine ⟨htodo, ⟨hdone.good, hdone.ready, fun v hv => .inr (htodo v hv)⟩, ?_⟩
    · have hroom := hdone.room
      rw [← rawBytes_root hsplit]
      exact hroom.trans hbytes

theorem start_onTrack {f : Flavor} {src : Source} {w : Worklist Context Visit}
    (h : start f src = .ok w) : goals.OnTrack w ∧ w.state.rawBytes + w.todo.length ≤ src.size :=
  (start_owed h).2

theorem performs (f : Flavor) : ∀ s t s' tasks, goals.Good s → goals.Ready s t →
    Visit.make f s t = .ok (s', tasks) → goals.Performed s t s' tasks :=
  fun _ _ _ _ hgood hready hmake => Visit.make_performed hgood hready hmake

/-- Every call that is to be made is made in as many steps as the file has bytes. -/
theorem parse_of_le {f : Flavor} {src : Source} {w : Worklist Context Visit}
    (hstart : start f src = .ok w) {n : Nat} (hn : src.size ≤ n) :
    parse f src n = ((w.steps (Visit.make f) src.size).map Worklist.state).map fun ctx =>
      { state := ctx, todo := [] } := by
  obtain ⟨htrack, hroom⟩ := start_onTrack hstart
  have hover : ∀ w', w.steps (Visit.make f) src.size = .ok w' → w'.todo = [] :=
    fun w' hw' => (htrack.steps (performs f) hroom hw').1
  rw [parse, hstart, ok_bind, Worklist.steps_of_le hn hover]
  cases hsteps : w.steps (Visit.make f) src.size with
  | error e => rfl
  | ok w' =>
      have hnil := hover w' hsteps
      rw [← hnil]
      rfl

/-- A file is read in as many calls as it has bytes, or refused with one of the errors that
are thrown or asserted; and when it is read, no instruction leads to bytes that are not. -/
theorem parse_flowRead (f : Flavor) (src : Source) :
    ∃ r : Except Error Context,
      (∀ n, src.size ≤ n → parse f src n = r.map fun ctx => { state := ctx, todo := [] }) ∧
        r ≠ .error .undefinedBehaviour ∧ ∀ ctx, r = .ok ctx → FlowRead ctx := by
  have hfails : ∀ s t e, goals.Good s → goals.Ready s t → Visit.make f s t = .error e →
      e ≠ .undefinedBehaviour := by
    rintro s t _ hgood hready hmake rfl
    exact (Visit.defined_make f hgood hready).ne hmake
  cases hstart : start f src with
  | error e =>
      refine ⟨.error e, fun n _ => by rw [parse, hstart]; rfl, ?_, nofun⟩
      have hdefined := (defined_start f src).ne
      rw [hstart] at hdefined
      exact fun heq => hdefined (by cases heq; rfl)
  | ok w =>
      obtain ⟨htrack, hroom⟩ := start_onTrack hstart
      refine ⟨(w.steps (Visit.make f) src.size).map Worklist.state,
        fun n hn => parse_of_le hstart hn, ?_, ?_⟩
      · intro h
        cases hsteps : w.steps (Visit.make f) src.size with
        | ok w' => simp [hsteps, Except.map] at h
        | error e =>
            have hdefined := htrack.steps_error (performs f) hfails hsteps
            rw [hsteps] at h
            cases h
            exact hdefined rfl
      · intro ctx h
        cases hsteps : w.steps (Visit.make f) src.size with
        | error e => simp [hsteps, Except.map] at h
        | ok w' =>
            rw [hsteps] at h
            cases h
            exact flowRead_of_settled (htrack.steps (performs f) hroom hsteps).2.2

end File

end Stsc

end Neptools

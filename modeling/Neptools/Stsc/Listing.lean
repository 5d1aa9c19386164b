import Neptools.Format.Fixup
import Neptools.Format.SplitDump
import Neptools.Stsc.Decode
import Neptools.Stsc.Flow

/-!
Items that stand in an STSC file one after the other, and lead to one another as reading
follows them: texts to texts, and code to the beginning of code. So the file they are
written to can be read.
-/

namespace Neptools

open Lib

namespace Stsc

variable {v v' v'' : LabelView}

/-! Items up to the names of their labels. -/

inductive SameBody (v v' : LabelView) : Body → Body → Prop
  | cString (string : Bytes) : SameBody v v' (.cString string) (.cString string)
  | stscHeader {h h' : HeaderItem} (hsame : h.Same v v' h') :
      SameBody v v' (.stscHeader h) (.stscHeader h')
  | stscInstruction (opcode : UInt8) {i i' : Instruction} (hsame : i.Same v v' i') :
      SameBody v v' (.stscInstruction { opcode, instruction := i })
        (.stscInstruction { opcode, instruction := i' })

theorem Arg.Same.type {a a' : Arg} (h : a.Same v v' a') : a'.type = a.type := by
  cases h with
  | uint8 _ | uint16 _ | uint32 _ | float _ | string _ | code _ | data _ => rfl

theorem sum_size_of_same {args args' : List Arg} (h : args.Forall₂ (Arg.Same v v') args') :
    (args'.map fun a => a.type.size).sum = (args.map fun a => a.type.size).sum := by
  induction h with
  | nil => rfl
  | cons hsame _ ih => simp only [List.map_cons, List.sum_cons, hsame.type, ih]

theorem InstructionJumpSwitchItem.Same.switchSize {switch switch' : InstructionJumpSwitchItem}
    (h : switch.Same v v' switch') :
    Instruction.switchSize switch' = Instruction.switchSize switch := by
  rw [Instruction.switchSize, Instruction.switchSize, h.expressions.length_eq]

theorem Instruction.Same.getSize {i i' : Instruction} (h : i.Same v v' i') :
    i'.getSize = i.getSize := by
  cases h with
  | simple noReturn hargs => exact congrArg (· + 1) (sum_size_of_same hargs)
  | rndJump htgts => rw [Instruction.getSize, Instruction.getSize, htgts.length_eq]
  | jumpIf tree _ => rfl
  | jumpSwitchNoire hswitch => exact hswitch.switchSize
  | jumpSwitchPotbb hswitch _ => exact congrArg (1 + ·) hswitch.switchSize

theorem HeaderItem.Same.getSize {h h' : HeaderItem} (hsame : h.Same v v' h') :
    h'.getSize = h.getSize := by
  rw [HeaderItem.getSize, HeaderItem.getSize, hsame.extraHeaders1, hsame.extraHeaders2,
    hsame.extraHeaders4]

theorem SameBody.ownSize {b b' : Body} (h : SameBody v v' b b') : b'.ownSize = b.ownSize := by
  cases h with
  | cString string => rfl
  | stscHeader hsame => exact hsame.getSize
  | stscInstruction opcode hsame => exact hsame.getSize

theorem SameBody.isRaw {b b' : Body} (h : SameBody v v' b b') :
    b.isRaw = false ∧ b'.isRaw = false := by
  cases h with
  | cString _ | stscHeader _ | stscInstruction _ _ => exact ⟨rfl, rfl⟩

theorem HeaderItem.getSize_pos (h : HeaderItem) : 0 < h.getSize := by
  refine Nat.lt_of_lt_of_le (show 0 < Pod.size Header by decide) ?_
  rw [getSize]
  split <;> split <;> split <;> omega

theorem SameBody.ownSize_pos {b b' : Body} (h : SameBody v v' b b') : 0 < b.ownSize := by
  cases h with
  | cString string => exact Nat.succ_pos _
  | stscHeader hsame => exact HeaderItem.getSize_pos _
  | stscInstruction opcode hsame => exact Instruction.getSize_pos _

section

variable (hv : ∀ l pos, v'.toFilePos l = .ok pos → v''.toFilePos l = .ok pos)

include hv

theorem InstructionJumpSwitchItem.Same.mono {switch switch' : InstructionJumpSwitchItem}
    (h : switch.Same v v' switch') : switch.Same v v'' switch' where
  expectedVal := h.expectedVal
  lastIsDefault := h.lastIsDefault
  expressions := h.expressions.imp fun _ _ hsame => ⟨hsame.1, SamePlace.mono hsame.2 hv⟩

theorem Instruction.Same.mono {i i' : Instruction} (h : i.Same v v' i') : i.Same v v'' i' := by
  cases h with
  | simple noReturn hargs => exact .simple noReturn (hargs.imp fun _ _ hsame => hsame.mono hv)
  | rndJump htgts => exact .rndJump (htgts.imp fun _ _ hsame => hsame.mono hv)
  | jumpIf tree htgt => exact .jumpIf tree (htgt.mono hv)
  | jumpSwitchNoire hswitch => exact .jumpSwitchNoire (hswitch.mono hv)
  | jumpSwitchPotbb hswitch trailingByte => exact .jumpSwitchPotbb (hswitch.mono hv) trailingByte

theorem SameBody.mono {b b' : Body} (h : SameBody v v' b b') : SameBody v v'' b b' := by
  cases h with
  | cString string => exact .cString string
  | stscHeader hsame =>
      exact .stscHeader { hsame with entryPoint := hsame.entryPoint.mono hv }
  | stscInstruction opcode hsame => exact .stscInstruction opcode (hsame.mono hv)

end

/-! Where an instruction leads. -/

theorem Instruction.Same.texts {i i' : Instruction} (h : i.Same v v' i') :
    i.texts.Forall₂ (SamePlace v v') i'.texts := by
  cases h with
  | simple noReturn hargs =>
      simp only [Instruction.texts]
      induction hargs with
      | nil => exact .nil
      | cons hsame _ ih =>
          cases hsame with
          | string hl =>
              cases hl with
              | none => exact ih
              | some hl => exact .cons hl ih
          | uint8 _ | uint16 _ | uint32 _ | float _ | code _ | data _ => exact ih
  | rndJump _ | jumpIf _ _ | jumpSwitchNoire _ | jumpSwitchPotbb _ _ => exact .nil

theorem InstructionJumpSwitchItem.Same.targets {switch switch' : InstructionJumpSwitchItem}
    (h : switch.Same v v' switch') :
    (switch.expressions.map Expression.target).Forall₂ (SamePlace v v')
      (switch'.expressions.map Expression.target) :=
  List.forall₂_map_left_iff.mpr (List.forall₂_map_right_iff.mpr
    (h.expressions.imp fun _ _ hsame => hsame.2))

theorem Instruction.Same.targets {i i' : Instruction} (h : i.Same v v' i') :
    i.targets.Forall₂ (SamePlace v v') i'.targets := by
  cases h with
  | simple noReturn hargs =>
      simp only [Instruction.targets]
      induction hargs with
      | nil => exact .nil
      | cons hsame _ ih =>
          cases hsame with
          | code hl =>
              cases hl with
              | none => exact ih
              | some hl => exact .cons hl ih
          | uint8 _ | uint16 _ | uint32 _ | float _ | string _ | data _ => exact ih
  | rndJump htgts => exact htgts
  | jumpIf tree htgt => exact .cons htgt .nil
  | jumpSwitchNoire hswitch => exact hswitch.targets
  | jumpSwitchPotbb hswitch _ => exact hswitch.targets

theorem Instruction.Same.goesOn {i i' : Instruction} (h : i.Same v v' i') :
    i'.goesOn = i.goesOn := by
  cases h with
  | simple _ _ | rndJump _ | jumpIf _ _ => rfl
  | jumpSwitchNoire hswitch | jumpSwitchPotbb hswitch _ =>
      rw [Instruction.goesOn, Instruction.goesOn, hswitch.lastIsDefault]

/-- A call is about a text of the instruction, or about code it leads to. -/
theorem Instruction.mem_visits {i : Instruction} {id : Nat} {visit : Visit}
    (h : visit ∈ i.visits id) : (∃ l ∈ i.texts, visit = .string l) ∨
      (∃ l ∈ i.targets, visit = .code l ∨ visit = .checkedCode l) ∨
        i.goesOn = true ∧ visit = .next id := by
  have hlast {noReturn : Bool} (h : visit ∈ (if noReturn then [] else [Visit.next id])) :
      (!noReturn) = true ∧ visit = .next id := by
    cases noReturn with
    | true => cases h
    | false => exact ⟨rfl, List.mem_singleton.mp h⟩
  have hswitch {switch : InstructionJumpSwitchItem} (h : visit ∈ switch.visits id) :
      (∃ e ∈ switch.expressions, visit = .checkedCode e.target) ∨
        (!switch.lastIsDefault) = true ∧ visit = .next id := by
    rcases List.mem_append.mp h with h | h
    · obtain ⟨e, he, rfl⟩ := List.mem_map.mp h
      exact .inl ⟨e, he, rfl⟩
    · exact .inr (hlast h)
  cases i with
  | simple noReturn args =>
      rcases List.mem_append.mp h with h | h
      · obtain ⟨a, ha, h⟩ := List.mem_flatMap.mp h
        rw [Arg.visits.eq_def] at h
        split at h
        · rename_i l
          exact .inl ⟨l, List.mem_filterMap.mpr ⟨_, ha, rfl⟩, List.mem_singleton.mp h⟩
        · rename_i l
          exact .inr (.inl ⟨l, List.mem_filterMap.mpr ⟨_, ha, rfl⟩, .inl (List.mem_singleton.mp h)⟩)
        · cases h
      · exact .inr (.inr (hlast h))
  | rndJump tgts =>
      rcases List.mem_append.mp h with h | h
      · obtain ⟨l, hl, rfl⟩ := List.mem_map.mp h
        exact .inr (.inl ⟨l, hl, .inl rfl⟩)
      · exact .inr (.inr ⟨rfl, List.mem_singleton.mp h⟩)
  | jumpIf tgt tree =>
      rcases List.mem_cons.mp h with h | h
      · exact .inr (.inl ⟨tgt, List.mem_cons_self, .inl h⟩)
      · exact .inr (.inr ⟨rfl, List.mem_singleton.mp h⟩)
  | jumpSwitchNoire switch | jumpSwitchPotbb switch _ =>
      rcases hswitch h with ⟨e, he, heq⟩ | hnext
      · exact .inr (.inl ⟨e.target, List.mem_map_of_mem he, .inr heq⟩)
      · exact .inr (.inr hnext)

/-! Items that can be read where they stand. -/

/-- The items an STSC file consists of. -/
def OfStsc : Body → Prop
  | .raw _ | .eof | .cString _ | .stscHeader _ | .stscInstruction _ => True
  | _ => False

theorem fixup_of_ofStsc {b : Body} (h : OfStsc b) : b.fixup = b := by
  cases b with
  | raw _ | eof | cString _ | stscHeader _ | stscInstruction _ => rfl
  | _ => exact h.elim

def IsText (b : Body) : Prop := ∃ string, b = .cString string

def IsCode (b : Body) : Prop := ∃ i, b = .stscInstruction i

/-- Such an item starts at the position. -/
def ItemAt (ctx : Context) (P : Body → Prop) (pos : Nat) : Prop :=
  ∃ it ∈ ctx.children.nodes, P it.body ∧ it.position = pos

/-- Such an item starts where the label leads. -/
def LeadsTo (ctx : Context) (P : Body → Prop) (l : LabelPtr) : Prop :=
  ∃ pos, ctx.toFilePos l = .ok pos ∧ ItemAt ctx P pos

/-- The header comes first, and leads to code. -/
def Headed (ctx : Context) : Prop :=
  ∃ it ∈ ctx.children.nodes, it.position = 0 ∧ ∃ hdr, it.body = .stscHeader hdr ∧
    ∃ pos, ctx.toFilePos hdr.entryPoint = .ok pos ∧ ItemAt ctx IsCode pos ∧ pos + 1 < ctx.getSize

/-- What the header leads to. -/
inductive Reached (ctx : Context) : Item → Prop
  | header {t : Item} {hdr : HeaderItem} (ht : t ∈ ctx.children.nodes) (hpos : t.position = 0)
      (hbody : t.body = .stscHeader hdr) : Reached ctx t
  | entry {t u : Item} {hdr : HeaderItem} (ht : t ∈ ctx.children.nodes) (hpos : t.position = 0)
      (hbody : t.body = .stscHeader hdr) (hu : u ∈ ctx.children.nodes) (hcode : IsCode u.body)
      (hentry : ctx.toFilePos hdr.entryPoint = .ok u.position) : Reached ctx u
  | text {t u : Item} {i : InstructionItem} {l : LabelPtr} (ht : Reached ctx t)
      (hbody : t.body = .stscInstruction i) (hl : l ∈ i.instruction.texts)
      (hu : u ∈ ctx.children.nodes) (htext : IsText u.body)
      (hpos : ctx.toFilePos l = .ok u.position) : Reached ctx u
  | code {t u : Item} {i : InstructionItem} {l : LabelPtr} (ht : Reached ctx t)
      (hbody : t.body = .stscInstruction i) (hl : l ∈ i.instruction.targets)
      (hu : u ∈ ctx.children.nodes) (hcode : IsCode u.body)
      (hpos : ctx.toFilePos l = .ok u.position) : Reached ctx u
  | next {t u : Item} {i : InstructionItem} (ht : Reached ctx t)
      (hbody : t.body = .stscInstruction i) (hgoesOn : i.instruction.goesOn = true)
      (hu : u ∈ ctx.children.nodes) (hcode : IsCode u.body)
      (hpos : t.position + t.body.ownSize = u.position) : Reached ctx u

theorem Reached.mem {ctx : Context} {t : Item} (h : Reached ctx t) : t ∈ ctx.children.nodes := by
  cases h with
  | header ht _ _ => exact ht
  | entry _ _ _ hu _ _ | text _ _ _ hu _ _ | code _ _ _ hu _ _ | next _ _ _ hu _ _ => exact hu

/-- The items can be read from the file they are written to: each is where `Fixup` puts it,
its counts fit, its labels lead to places in the file, and the code leads to code and texts. -/
structure Listing (f : Flavor) (ctx : Context) : Prop where
  laid : ctx.children.Laid 0
  flat : ∀ x ∈ ctx.children.subtrees, x.2 = .nil
  small : ctx.getSize < 2 ^ 32
  kinds : ∀ it ∈ ctx.children.nodes, OfStsc it.body
  texts : ∀ it ∈ ctx.children.nodes, ∀ string, it.body = .cString string → 0 ∉ string
  readable : ∀ it ∈ ctx.children.nodes, ∀ i, it.body = .stscInstruction i →
    i.instruction.Readable ctx.view ctx.getSize (instructionMap f i.opcode)
  toTexts : ∀ it ∈ ctx.children.nodes, ∀ i, it.body = .stscInstruction i →
    ∀ l ∈ i.instruction.texts, LeadsTo ctx IsText l
  toCode : ∀ it ∈ ctx.children.nodes, ∀ i, it.body = .stscInstruction i →
    ∀ l ∈ i.instruction.targets, LeadsTo ctx IsCode l
  goesOn : ∀ it ∈ ctx.children.nodes, ∀ i, it.body = .stscInstruction i →
    i.instruction.goesOn = true → ItemAt ctx IsCode (it.position + it.body.ownSize)
  header : Headed ctx

variable {f : Flavor} {ctx : Context}

theorem Listing.apart (h : Listing f ctx) {a b : Item} (ha : a ∈ ctx.children.nodes)
    (hb : b ∈ ctx.children.nodes) : a = b ∨ a.position + a.body.ownSize ≤ b.position ∨
      b.position + b.body.ownSize ≤ a.position :=
  Forest.Laid.apart h.laid h.flat ha hb

/-- Two items that have the same byte are the same. -/
theorem Listing.eq_of_byte (h : Listing f ctx) {a b : Item} (ha : a ∈ ctx.children.nodes)
    (hb : b ∈ ctx.children.nodes) (hsize : 0 < b.body.ownSize) (hle : a.position ≤ b.position)
    (hlt : b.position < a.position + a.body.ownSize) : a = b := by
  rcases h.apart ha hb with heq | hbefore | hbehind
  · exact heq
  · omega
  · omega

theorem Listing.le_getSize (h : Listing f ctx) {it : Item} (hit : it ∈ ctx.children.nodes) :
    it.position + it.body.ownSize ≤ ctx.getSize := by
  obtain ⟨children, hmem⟩ := Forest.mem_nodes.mp hit
  have hbounds := (Forest.Laid.bounds h.laid hmem).2
  have hsize : Forest.weight (fun it : Item => it.body.ownSize) ctx.children = ctx.getSize := rfl
  omega

/-- Each item is written at its position. -/
theorem standsAt_of_dumpBytes {v : LabelView} {items : ItemList} {pos : Nat} {bytes file : Bytes}
    (hlaid : items.Laid pos) (hflat : ∀ x ∈ items.subtrees, x.2 = .nil)
    (hkinds : ∀ it ∈ items.nodes, OfStsc it.body) (hbytes : items.dumpBytes v = .ok bytes)
    (hstand : StandsAt bytes pos file) :
    ∀ it ∈ items.nodes, ∃ calls, it.body.dump v it.body.ownSize = .ok calls ∧
      (Sink.bytesOf calls).length = it.body.ownSize ∧
        StandsAt (Sink.bytesOf calls) it.position file := by
  induction items generalizing pos bytes with
  | nil =>
      intro it hit
      cases hit
  | cons it children siblings _ ih =>
      simp only [Forest.subtrees, List.mem_cons, forall_eq_or_imp] at hflat
      obtain ⟨rfl, hflat⟩ := hflat
      simp only [Forest.nodes, List.nil_append, List.mem_cons, forall_eq_or_imp] at hkinds ⊢
      obtain ⟨hpos, -, hlaid⟩ := hlaid
      rw [ItemList.dumpBytes_cons] at hbytes
      obtain ⟨calls, hcalls, hbytes⟩ := bind_eq_ok.mp hbytes
      obtain ⟨inner, hinner, hbytes⟩ := bind_eq_ok.mp hbytes
      obtain ⟨rest, hrest, hbytes⟩ := bind_eq_ok.mp hbytes
      cases hbytes
      cases hinner
      have hsame := fixup_of_ofStsc hkinds.1
      have hwrites : Writes it.body.ownSize (it.body.dump v (it.getSize .nil)) := by
        have hwrites := it.body.writes v (it.getSize .nil)
        rw [hsame] at hwrites
        exact hwrites
      have hlength := hwrites calls hcalls
      refine ⟨⟨calls, hcalls, hlength, hpos ▸ hstand.left⟩, ?_⟩
      have hbehind := hstand.right.right
      rw [hlength] at hbehind
      exact ih hlaid (by simpa [Forest.subtrees] using hflat) hkinds.2 hrest hbehind

theorem Listing.stands (h : Listing f ctx) {events : List Event} (hdump : ctx.dump = .ok events)
    {it : Item} (hit : it ∈ ctx.children.nodes) :
    ∃ calls, it.body.dump ctx.view it.body.ownSize = .ok calls ∧
      (Sink.bytesOf calls).length = it.body.ownSize ∧
        StandsAt (Sink.bytesOf calls) it.position (Sink.bytesOf (callsOf events)) := by
  have hbytes : ctx.children.dumpBytes ctx.view = .ok (Sink.bytesOf (callsOf events)) := by
    have hdump : ctx.children.dump ctx.view = .ok events := hdump
    rw [ItemList.dumpBytes, hdump]
    rfl
  exact standsAt_of_dumpBytes h.laid h.flat h.kinds hbytes ⟨[], [], by simp, rfl⟩ it hit

end Stsc

end Neptools

import Neptools.Stsc.Reached
import Neptools.Stsc.Readable

/-!
What a file consists of after it is read: what the header leads to, and bytes that are not
read. All of it can be written again.
-/

namespace Neptools

open Lib

namespace Context

variable {ctx : Context}

theorem Consistent.toFilePos_of_lookup (h : ctx.Consistent) {l : LabelPtr} {it : Item}
    {offset : Nat} (hl : ctx.labels.lookup l = some (some { item := it.id, offset }))
    (hit : it ∈ ctx.children.nodes) : ctx.toFilePos l = .ok (it.position + offset) := by
  obtain ⟨children, hmem⟩ := Forest.mem_nodes.mp hit
  rw [toFilePos, target_of_find? hl (h.find?_of_mem hmem), ok_bind]
  rfl

/-- Every label is at an item. -/
theorem Consistent.at_of_lookup (h : ctx.Consistent) {l : LabelPtr} {ptr : ItemPointer}
    (hl : ctx.labels.lookup l = some (some ptr)) : ∃ it ∈ ctx.children.nodes,
      ptr = { item := it.id, offset := ptr.offset } ∧
        ctx.toFilePos l = .ok (it.position + ptr.offset) := by
  obtain ⟨it, hit, hid, -⟩ := h.attached l ptr hl
  obtain ⟨id, offset⟩ := ptr
  cases hid
  exact ⟨it, hit, rfl, h.toFilePos_of_lookup hl hit⟩

end Context

namespace Stsc

open Context

variable {f : Flavor} {ctx ctx' ctx₁ : Context} {src : Source}

/-! What is reached stays reached. -/

theorem Reached.mono (hcarries : ctx.Carries ctx') {t : Item} (h : Reached ctx t) :
    ∀ t' ∈ ctx'.children.nodes, t'.plain = t.plain → Reached ctx' t' := by
  have hcode {t t' : Item} (heq : t'.plain = t.plain) (hcode : IsCode t.body) : IsCode t'.body := by
    rwa [body_of_plain heq]
  have hplace {l : LabelPtr} {u u' : Item} (heq : u'.plain = u.plain)
      (hl : ctx.toFilePos l = .ok u.position) : ctx'.toFilePos l = .ok u'.position := by
    rw [position_of_plain heq]
    exact hcarries.toFilePos l _ hl
  have hinstruction {t : Item} {i : InstructionItem} (ht : t ∈ ctx.children.nodes)
      (hbody : t.body = .stscInstruction i)
      (ih : ∀ t' ∈ ctx'.children.nodes, t'.plain = t.plain → Reached ctx' t') :
      ∃ t', Reached ctx' t' ∧ t'.plain = t.plain ∧ t'.body = .stscInstruction i := by
    obtain ⟨t', ht', heq⟩ := hcarries.items t ht (by rw [hbody]; rfl)
    exact ⟨t', ih t' ht' heq, heq, (body_of_plain heq).trans hbody⟩
  induction h with
  | header ht hpos hbody =>
      intro t' ht' heq
      exact .header ht' ((position_of_plain heq).trans hpos) ((body_of_plain heq).trans hbody)
  | @entry t u hdr ht hpos hbody hu hcode' hentry =>
      intro u' hu' heq
      obtain ⟨t', ht', heq'⟩ := hcarries.items t ht (by rw [hbody]; rfl)
      exact .entry ht' ((position_of_plain heq').trans hpos) ((body_of_plain heq').trans hbody) hu'
        (hcode heq hcode') (hplace heq hentry)
  | text ht hbody hl hu htext hpos ih =>
      intro u' hu' heq
      obtain ⟨t', ht', -, hbody'⟩ := hinstruction ht.mem hbody ih
      exact .text ht' hbody' hl hu' (by rwa [body_of_plain heq]) (hplace heq hpos)
  | code ht hbody hl hu hcode' hpos ih =>
      intro u' hu' heq
      obtain ⟨t', ht', -, hbody'⟩ := hinstruction ht.mem hbody ih
      exact .code ht' hbody' hl hu' (hcode heq hcode') (hplace heq hpos)
  | next ht hbody hgoesOn hu hcode' hpos ih =>
      intro u' hu' heq
      obtain ⟨t', ht', heq', hbody'⟩ := hinstruction ht.mem hbody ih
      refine .next ht' hbody' hgoesOn hu' (hcode heq hcode') ?_
      rw [body_of_plain heq', position_of_plain heq', position_of_plain heq, hpos]

theorem ItemAt.mono {P : Body → Prop} (hP : ∀ b, P b → b.isRaw = false)
    (hcarries : ctx.Carries ctx') {pos : Nat} (h : ItemAt ctx P pos) : ItemAt ctx' P pos := by
  obtain ⟨it, hit, hkind, hpos⟩ := h
  obtain ⟨it', hit', heq⟩ := hcarries.items it hit (hP _ hkind)
  exact ⟨it', hit', by rwa [body_of_plain heq], (position_of_plain heq).trans hpos⟩

theorem LeadsTo.mono {P : Body → Prop} (hP : ∀ b, P b → b.isRaw = false)
    (hcarries : ctx.Carries ctx') {l : LabelPtr} (h : LeadsTo ctx P l) : LeadsTo ctx' P l := by
  obtain ⟨pos, hpos, hat⟩ := h
  exact ⟨pos, hcarries.toFilePos l pos hpos, hat.mono hP hcarries⟩

/-! What is known of a file while it is read. -/

/-- What is not raw is what the header leads to, and it can be written. -/
structure Known (f : Flavor) (src : Source) (ctx : Context) : Prop extends Underway src ctx where
  reached : ∀ it ∈ ctx.children.nodes, it.body.isRaw = true ∨
    it.body = .eof ∧ it.position = src.size ∨ Reached ctx it
  texts : ∀ it ∈ ctx.children.nodes, ∀ string, it.body = .cString string → 0 ∉ string
  readable : ∀ it ∈ ctx.children.nodes, ∀ i, it.body = .stscInstruction i →
    i.instruction.Readable ctx.view src.size (instructionMap f i.opcode)

theorem Known.split_off (h : Known f src ctx) (hrelabels : ctx.Relabels ctx₁) (h₁ : ctx₁.Charted)
    {it : Item} (hit : it ∈ ctx.children.nodes) {offset : Nat} {body : Body}
    (hraw : body.isRaw = false) (hsplit : ctx₁.splitCreate it.id offset body = .ok ctx')
    (hctx' : ctx'.Charted) (hwritten : WrittenSoFar src ctx')
    (hreached : ctx.Carries ctx' → ∀ n ∈ ctx'.children.nodes, n.body = body →
      n.position = it.position + offset → Reached ctx' n)
    (htext : ∀ string, body = .cString string → 0 ∉ string)
    (hread : ∀ i, body = .stscInstruction i →
      i.instruction.Readable ctx'.view src.size (instructionMap f i.opcode)) :
    Known f src ctx' ∧ ctx.Carries ctx' ∧ ∃ n ∈ ctx'.children.nodes,
      n.id = ctx.nextId ∧ n.position = it.position + offset ∧ n.body = body := by
  obtain ⟨hunderway, hcarries, hnew⟩ :=
    h.toUnderway.split_off hrelabels h₁ hit hraw hsplit hctx' hwritten
  obtain ⟨r, raw, hnodes⟩ := h₁.consistent.splitCreate_nodes hsplit
  have hplace := hrelabels.position_of_id h.charted.consistent hit hnodes.mem hnodes.split
  have hitems : ∀ n ∈ ctx'.children.nodes, n.body.isRaw = true ∨
      (∃ old ∈ ctx.children.nodes, n.plain = old.plain) ∨
        n.body = body ∧ n.position = it.position + offset := by
    intro n hn
    rcases hnodes.nodes n hn with ⟨hold, -⟩ | ⟨hbody, hpos⟩ | ⟨part, hpart, -⟩
    · obtain ⟨old, hmem, heq⟩ := exists_of_plain hrelabels.plain.symm hold
      exact .inr (.inl ⟨old, hmem, heq.symm⟩)
    · exact .inr (.inr ⟨hbody, by rw [hpos, hplace]⟩)
    · exact .inl (by rw [hpart]; rfl)
  refine ⟨⟨hunderway, fun n hn => ?_, fun n hn string hstring => ?_, fun n hn i hi => ?_⟩, hcarries,
    hnew⟩
  · rcases hitems n hn with hraw' | ⟨old, hmem, heq⟩ | ⟨hbody, hpos⟩
    · exact .inl hraw'
    · rw [body_of_plain heq, position_of_plain heq]
      exact (h.reached old hmem).imp_right fun hold =>
        hold.imp_right fun hold => hold.mono hcarries n hn heq
    · exact .inr (.inr (hreached hcarries n hn hbody hpos))
  · rcases hitems n hn with hraw' | ⟨old, hmem, heq⟩ | ⟨hbody, -⟩
    · rw [hstring] at hraw'
      cases hraw'
    · exact h.texts old hmem string ((body_of_plain heq).symm.trans hstring)
    · exact htext string (hbody.symm.trans hstring)
  · rcases hitems n hn with hraw' | ⟨old, hmem, heq⟩ | ⟨hbody, -⟩
    · rw [hi] at hraw'
      cases hraw'
    · exact (h.readable old hmem i ((body_of_plain heq).symm.trans hi)).moves
        (.of_toFilePos hcarries.toFilePos)
    · exact hread i (hbody.symm.trans hi)

/-! The calls. -/

/-- The call is one of an instruction that the header leads to. -/
def Visit.Led (ctx : Context) (visit : Visit) : Prop :=
  ∃ t, Reached ctx t ∧ ∃ i : InstructionItem, t.body = .stscInstruction i ∧
    visit ∈ i.instruction.visits t.id

namespace Visit.Led

theorem mono {visit : Visit} (h : visit.Led ctx) (hcarries : ctx.Carries ctx') :
    visit.Led ctx' := by
  obtain ⟨t, ht, i, hbody, hvisit⟩ := h
  obtain ⟨t', ht', heq⟩ := hcarries.items t ht.mem (by rw [hbody]; rfl)
  have hid : t'.id = t.id := (congrArg Item.id heq :)
  exact ⟨t', ht.mono hcarries t' ht' heq, i, (body_of_plain heq).trans hbody, hid ▸ hvisit⟩

theorem text {l : LabelPtr} (h : (Visit.string l).Led ctx) {n : Item}
    (hn : n ∈ ctx.children.nodes) (htext : IsText n.body)
    (hpos : ctx.toFilePos l = .ok n.position) : Reached ctx n := by
  obtain ⟨t, ht, i, hbody, hvisit⟩ := h
  rcases Instruction.mem_visits hvisit with ⟨l', hl', heq⟩ | ⟨l', hl', heq | heq⟩ | ⟨-, heq⟩
  · cases heq
    exact .text ht hbody hl' hn htext hpos
  · cases heq
  · cases heq
  · cases heq

theorem code {visit : Visit} (h : visit.Led ctx) {l : LabelPtr}
    (hvisit : visit = .code l ∨ visit = .checkedCode l) {n : Item} (hn : n ∈ ctx.children.nodes)
    (hcode : IsCode n.body) (hpos : ctx.toFilePos l = .ok n.position) : Reached ctx n := by
  obtain ⟨t, ht, i, hbody, hmem⟩ := h
  have hcase {l' : LabelPtr} (hl' : l' ∈ i.instruction.targets)
      (heq : visit = .code l' ∨ visit = .checkedCode l') : Reached ctx n := by
    obtain rfl : l = l' := by
      rcases hvisit with rfl | rfl <;> rcases heq with heq | heq <;> cases heq <;> rfl
    exact .code ht hbody hl' hn hcode hpos
  rcases Instruction.mem_visits hmem with ⟨l', -, rfl⟩ | ⟨l', hl', heq⟩ | ⟨-, rfl⟩
  · rcases hvisit with heq | heq <;> cases heq
  · exact hcase hl' heq
  · rcases hvisit with heq | heq <;> cases heq

theorem next {id : Nat} (h : (Visit.next id).Led ctx) : ∃ t, Reached ctx t ∧ t.id = id ∧
    ∃ i : InstructionItem, t.body = .stscInstruction i ∧ i.instruction.goesOn = true := by
  obtain ⟨t, ht, i, hbody, hvisit⟩ := h
  rcases Instruction.mem_visits hvisit with ⟨l', -, heq⟩ | ⟨l', -, heq | heq⟩ | ⟨hgoesOn, heq⟩
  · cases heq
  · cases heq
  · cases heq
  · cases heq
    exact ⟨t, ht, rfl, i, hbody, hgoesOn⟩

end Visit.Led

/-- An instruction is read where the header leads to. -/
theorem Known.createAndInsert (h : Known f src ctx) (hreading : Reading ctx) {it : Item}
    (hit : it ∈ ctx.children.nodes) {offset : Nat} {vs : List Visit}
    (hcreate : InstructionItem.createAndInsert f ctx { item := it.id, offset } = .ok (ctx', vs))
    (hreached : ctx.Carries ctx' → ∀ n ∈ ctx'.children.nodes, IsCode n.body →
      n.position = it.position + offset → Reached ctx' n) :
    Known f src ctx' ∧ ctx.Carries ctx' ∧ (∀ visit ∈ vs, visit.Led ctx') ∧
      ItemAt ctx' IsCode (it.position + offset) := by
  have hwritten := InstructionItem.createAndInsert_written h.written hreading hcreate
  obtain ⟨⟨ctx₂, id, i⟩, hinsert, heq⟩ := bind_eq_ok.mp hcreate
  cases heq
  obtain ⟨w, -, hinsert⟩ := bind_eq_ok.mp hinsert
  obtain ⟨_, -, hinsert⟩ := bind_eq_ok.mp hinsert
  obtain ⟨⟨opcode, w'⟩, -, hinsert⟩ := bind_eq_ok.mp hinsert
  obtain ⟨⟨ctx₁, i'⟩, hparse, hinsert⟩ := bind_eq_ok.mp hinsert
  obtain ⟨ctx₂, hsplit, heq⟩ := bind_eq_ok.mp hinsert
  cases heq
  have hsplit : ctx₁.splitCreate it.id offset
    (.stscInstruction { opcode, instruction := i }) = .ok ctx' := hsplit
  have hrelabels := relabeling_parseInstruction ctx w' _ ctx₁ i hparse
  obtain ⟨h₁, hread⟩ := readable_of_parseInstruction h.charted hparse
  have hctx' := h₁.of_splitCreate hsplit i.getSize_pos rfl
  rw [hrelabels.getSize, h.getSize] at hread
  obtain ⟨hknown, hcarries, n, hn, hid, hat, hbody⟩ := h.split_off hrelabels h₁ hit rfl hsplit
    hctx' hwritten (fun hcarries n hn hbody => hreached hcarries n hn ⟨_, hbody⟩)
    (fun string hstring => Body.noConfusion hstring) fun j hj => by
      cases hj
      exact hread.moves (.of_toFilePos (h₁.consistent.splitCreate_toFilePos hsplit))
  refine ⟨hknown, hcarries, fun visit hvisit => ?_, n, hn, ⟨_, hbody⟩, hat⟩
  have hnew : ctx₁.nextId = n.id := hrelabels.nextId.trans hid.symm
  refine ⟨n, hreached hcarries n hn ⟨_, hbody⟩ hat, _, hbody, ?_⟩
  rw [← hnew]
  exact hvisit

/-- A text is read where the header leads to. -/
theorem Known.maybeCreate (h : Known f src ctx) (hreading : Reading ctx) {it : Item}
    (hit : it ∈ ctx.children.nodes) {offset : Nat} {text : Bytes}
    (hcreate : CStringItem.maybeCreate ctx { item := it.id, offset } = .ok (ctx', text))
    (hreached : ctx.Carries ctx' → ∀ n ∈ ctx'.children.nodes, IsText n.body →
      n.position = it.position + offset → Reached ctx' n) :
    Known f src ctx' ∧ ctx.Carries ctx' ∧ ItemAt ctx' IsText (it.position + offset) := by
  have hwritten := CStringItem.maybeCreate_written h.written hreading hcreate
  rw [CStringItem.maybeCreate] at hcreate
  split at hcreate
  · obtain ⟨w, -, hcreate⟩ := bind_eq_ok.mp hcreate
    obtain ⟨string, hstring, hcreate⟩ := bind_eq_ok.mp hcreate
    obtain ⟨ctx₂, hsplit, hcreate⟩ := bind_eq_ok.mp hcreate
    cases hcreate
    have hctx' := h.charted.of_splitCreate hsplit (Nat.succ_pos _) rfl
    obtain ⟨hknown, hcarries, n, hn, -, hat, hbody⟩ := h.split_off (.refl ctx) h.charted hit rfl
      hsplit hctx' hwritten (fun hcarries n hn hbody => hreached hcarries n hn ⟨_, hbody⟩)
      (fun s hs => by cases hs; exact (Source.preadCString_spec hstring).1)
      fun i hi => Body.noConfusion hi
    exact ⟨hknown, hcarries, n, hn, ⟨_, hbody⟩, hat⟩
  · obtain ⟨x, hget, hcreate⟩ := bind_eq_ok.mp hcreate
    obtain ⟨_, hoffset, hcreate⟩ := bind_eq_ok.mp hcreate
    have hzero : offset = 0 := require_eq_ok.mp hoffset
    split at hcreate
    · rename_i hbody
      cases hcreate
      refine ⟨h, .refl ctx, it, hit, ?_, by rw [hzero, Nat.add_zero]⟩
      obtain ⟨children, hmem⟩ := Forest.mem_nodes.mp hit
      rw [get_of_find? (h.charted.consistent.find?_of_mem hmem)] at hget
      cases hget
      exact ⟨_, hbody⟩
    · cases hcreate

/-- What is to hold after a call besides: a text is where the label leads. -/
def Visit.Done (ctx : Context) : Visit → Prop
  | .string l => LeadsTo ctx IsText l
  | _ => True

theorem Visit.Done.mono {visit : Visit} (h : visit.Done ctx) (hcarries : ctx.Carries ctx') :
    visit.Done ctx' := by
  cases visit with
  | string l => exact LeadsTo.mono (fun b hb => (ownSize_pos_of_isText hb).2) hcarries h
  | code l | checkedCode l | next id => trivial

theorem Known.make (h : Known f src ctx) (hreading : Reading ctx) {visit : Visit}
    (hled : visit.Led ctx) {vs : List Visit} (hmake : visit.make f ctx = .ok (ctx', vs)) :
    Known f src ctx' ∧ ctx.Carries ctx' ∧ visit.Done ctx' ∧ ∀ visit ∈ vs, visit.Led ctx' := by
  have hctx := h.charted.consistent
  -- a call for the instruction at a label, checked or not
  have hcode {l : LabelPtr} {visit : Visit} (hled : visit.Led ctx)
      (hvisit : visit = .code l ∨ visit = .checkedCode l) {ptr : ItemPointer}
      (hptr : ctx.getPtr l = .ok ptr)
      (hmake : (ctx.isRaw ptr.item = true ∧
          InstructionItem.createAndInsert f ctx ptr = .ok (ctx', vs)) ∨
        ¬ ctx.isRaw ptr.item = true ∧ (ctx', vs) = (ctx, [])) :
      Known f src ctx' ∧ ctx.Carries ctx' ∧ ∀ visit ∈ vs, visit.Led ctx' := by
    rcases hmake with ⟨-, hcreate⟩ | ⟨-, heq⟩
    · obtain ⟨it, hit, heq, hpos⟩ := hctx.at_of_lookup (getPtr_eq_ok.mp hptr)
      rw [heq] at hcreate
      obtain ⟨hknown, hcarries, hvs, -⟩ := h.createAndInsert hreading hit hcreate
        fun hcarries n hn hcode hat => by
          refine (hled.mono hcarries).code hvisit hn hcode ?_
          rw [hat]
          exact hcarries.toFilePos l _ hpos
      exact ⟨hknown, hcarries, hvs⟩
    · cases heq
      exact ⟨h, .refl ctx, List.forall_mem_nil _⟩
  cases visit with
  | string l =>
      obtain ⟨ptr, hptr, hmake⟩ := bind_eq_ok.mp hmake
      obtain ⟨⟨ctx₂, text⟩, hcreate, heq⟩ := bind_eq_ok.mp hmake
      cases heq
      obtain ⟨it, hit, heq, hpos⟩ := hctx.at_of_lookup (getPtr_eq_ok.mp hptr)
      rw [heq] at hcreate
      obtain ⟨hknown, hcarries, hat⟩ := h.maybeCreate hreading hit hcreate
        fun hcarries n hn htext hat => by
          refine (hled.mono hcarries).text hn htext ?_
          rw [hat]
          exact hcarries.toFilePos l _ hpos
      exact ⟨hknown, hcarries, ⟨_, hcarries.toFilePos l _ hpos, hat⟩, List.forall_mem_nil _⟩
  | code l =>
      obtain ⟨ptr, hptr, hmake⟩ := bind_eq_ok.mp hmake
      obtain ⟨hknown, hcarries, hvs⟩ :=
        hcode hled (.inl rfl) hptr (InstructionItem.maybeCreateUnchecked_ok hmake)
      exact ⟨hknown, hcarries, trivial, hvs⟩
  | checkedCode l =>
      obtain ⟨ptr, hptr, hmake⟩ := bind_eq_ok.mp hmake
      obtain ⟨hknown, hcarries, hvs⟩ :=
        hcode hled (.inr rfl) hptr (InstructionItem.maybeCreate_ok hmake)
      exact ⟨hknown, hcarries, trivial, hvs⟩
  | next id =>
      obtain ⟨ptr, hptr, hmake⟩ := bind_eq_ok.mp hmake
      rcases InstructionItem.maybeCreateUnchecked_ok hmake with ⟨-, hcreate⟩ | ⟨-, heq⟩
      · rw [nextPointer] at hptr
        split at hptr
        · rename_i b cs hnext
          cases hptr
          obtain ⟨t, ht, rfl, i, hi, hgoesOn⟩ := hled.next
          have hflat := hctx.childless_of_flat h.charted.flat
          obtain ⟨a, ha, hid, hplace⟩ := Forest.Laid.next? h.written.laid hflat hnext
          obtain rfl := hctx.eq_of_id ha ht.mem (of_decide_eq_true hid)
          have hb := Forest.mem_nodes.mpr ⟨cs, Forest.mem_of_next? hnext⟩
          obtain ⟨hknown, hcarries, hvs, -⟩ := h.createAndInsert hreading hb hcreate
            fun hcarries n hn hcode hat => by
              obtain ⟨t', ht', heq⟩ := hcarries.items a ha (by rw [hi]; rfl)
              refine .next (ht.mono hcarries t' ht' heq) ((body_of_plain heq).trans hi) hgoesOn hn
                hcode ?_
              rw [body_of_plain heq, position_of_plain heq]
              exact hplace.symm.trans hat.symm
          exact ⟨hknown, hcarries, trivial, hvs⟩
        · cases hptr
      · cases heq
        exact ⟨h, .refl ctx, trivial, List.forall_mem_nil _⟩

theorem Headed.mono (h : Headed ctx) (hcarries : ctx.Carries ctx')
    (hsize : ctx'.getSize = ctx.getSize) : Headed ctx' := by
  obtain ⟨t, ht, hpos, hdr, hbody, entry, hentry, hcode, hlt⟩ := h
  obtain ⟨t', ht', heq⟩ := hcarries.items t ht (by rw [hbody]; rfl)
  refine ⟨t', ht', (position_of_plain heq).trans hpos, hdr, (body_of_plain heq).trans hbody, entry,
    hcarries.toFilePos _ _ hentry, hcode.mono (fun b hb => (ownSize_pos_of_isCode hb).2) hcarries, ?_⟩
  rw [hsize]
  exact hlt

/-! The start. -/

theorem known_root (hne : src.size ≠ 0)
    (h : (Context.root src).splitCreate 0 src.size .eof = .ok ctx) : Known f src ctx := by
  have hother {it : Item} (hit : it ∈ ctx.children.nodes) :
      (∀ string, it.body ≠ .cString string) ∧ ∀ i, it.body ≠ .stscInstruction i := by
    rcases root_split_nodes h it hit with ⟨heof, -⟩ | ⟨-, part, hpart, -⟩
    · simp [heof]
    · simp [hpart]
  refine ⟨File.underway_root hne h, fun it hit => ?_, fun it hit string hstring => ?_,
    fun it hit i hi => ?_⟩
  · rcases root_split_nodes h it hit with heof | ⟨-, part, hpart, -⟩
    · exact .inr (.inl heof)
    · exact .inl (by rw [hpart]; rfl)
  · exact absurd hstring ((hother hit).1 string)
  · exact absurd hi ((hother hit).2 i)

theorem Known.insert_header (h : Known f src ctx) (hreading : Reading ctx) {it : Item}
    (hit : it ∈ ctx.children.nodes) (hat : it.position = 0) {part : Source}
    (hpart : it.body = .raw part) (hwhole : part.size = src.size) {hdr : HeaderItem}
    (hinsert : HeaderItem.insert ctx { item := it.id, offset := 0 } = .ok (ctx', hdr)) :
    Known f src ctx' ∧ ∃ n ∈ ctx'.children.nodes, n.position = 0 ∧ n.body = .stscHeader hdr ∧
      ∃ pos, ctx'.toFilePos hdr.entryPoint = .ok pos ∧ pos + 1 < src.size := by
  have hwritten := HeaderItem.insert_written h.written hreading hinsert
  obtain ⟨w, hw, hinsert⟩ := bind_eq_ok.mp hinsert
  obtain ⟨⟨ctx₁, hdr'⟩, hparse, hinsert⟩ := bind_eq_ok.mp hinsert
  obtain ⟨ctx₂, hsplit, heq⟩ := bind_eq_ok.mp hinsert
  cases heq
  have hrelabels := (HeaderItem.parse_ok hparse).1
  have hsize : w.size = ctx.getSize := by
    obtain ⟨children, hmem⟩ := Forest.mem_nodes.mp hit
    obtain ⟨part', hbodyOf, hrest, -⟩ := getSource_spec hw
    rw [h.charted.consistent.bodyOf_of_mem hmem, hpart] at hbodyOf
    cases hbodyOf
    rw [h.getSize, ← hwhole, ← hrest]
    exact (Nat.zero_add _).symm
  obtain ⟨h₁, pos, hpos, hlt⟩ := HeaderItem.entryPoint_of_parse h.charted hsize hparse
  rw [h.getSize] at hlt
  have hctx' := h₁.of_splitCreate hsplit hdr.getSize_pos rfl
  obtain ⟨hknown, -, n, hn, -, hnpos, hbody⟩ := h.split_off hrelabels h₁ hit rfl hsplit
    hctx' hwritten (fun _ n hn hbody hnpos => .header hn (hnpos.trans hat) hbody)
    (fun string hstring => Body.noConfusion hstring) fun i hi => Body.noConfusion hi
  exact ⟨hknown, n, hn, hnpos.trans hat, hbody, pos,
    h₁.consistent.splitCreate_toFilePos hsplit _ _ hpos, hlt⟩

namespace File

theorem start_known {w : Worklist Context Visit} (hstart : start f src = .ok w) :
    Known f src w.state ∧ Headed w.state ∧ ∀ visit ∈ w.todo, visit.Led w.state := by
  obtain ⟨ctx, hsplit, hstart⟩ := bind_eq_ok.mp hstart
  split at hstart
  · exact absurd hstart readDetached_ne_ok
  rename_i hne
  obtain ⟨⟨ctx', vs⟩, hcreate, heq⟩ := bind_eq_ok.mp hstart
  cases heq
  obtain ⟨⟨ctx₁, hdr⟩, hinsert, hcreate⟩ := bind_eq_ok.mp hcreate
  obtain ⟨ptr, hptr, hcreate⟩ := bind_eq_ok.mp hcreate
  have hreading := reading_root hsplit
  obtain ⟨it, hit, hid, hat, part, hpart, hwhole⟩ := exists_root_item hne hsplit
  have hreading₁ := (HeaderItem.insert_reading hreading hinsert).1
  have hinsert : HeaderItem.insert ctx { item := it.id, offset := 0 } = .ok (ctx₁, hdr) := by
    rw [hid]
    exact hinsert
  obtain ⟨h₁, t, ht, hpos, hbody, entry, hentry, hlt⟩ :=
    (known_root (f := f) hne hsplit).insert_header hreading hit hat hpart hwhole hinsert
  obtain ⟨u, hu, heq, hplace⟩ := h₁.charted.consistent.at_of_lookup (getPtr_eq_ok.mp hptr)
  obtain rfl : u.position + ptr.offset = entry := Except.ok.inj (hplace.symm.trans hentry)
  rw [heq] at hcreate
  have hheader (hcarries : ctx₁.Carries ctx') :
      ∃ t' ∈ ctx'.children.nodes, t'.position = 0 ∧ t'.body = .stscHeader hdr := by
    obtain ⟨t', ht', heq⟩ := hcarries.items t ht (by rw [hbody]; rfl)
    exact ⟨t', ht', (position_of_plain heq).trans hpos, (body_of_plain heq).trans hbody⟩
  obtain ⟨hknown, hcarries, hvs, hcode⟩ := h₁.createAndInsert hreading₁ hu hcreate
    fun hcarries n hn hcode hnpos => by
      obtain ⟨t', ht', hpos', hbody'⟩ := hheader hcarries
      refine .entry ht' hpos' hbody' hn hcode ?_
      rw [hnpos]
      exact hcarries.toFilePos _ _ hentry
  obtain ⟨t', ht', hpos', hbody'⟩ := hheader hcarries
  refine ⟨hknown, ⟨t', ht', hpos', hdr, hbody', _, hcarries.toFilePos _ _ hentry, hcode, ?_⟩, hvs⟩
  rw [hknown.getSize]
  exact hlt

/-- All that was read of a file is known, and each instruction leads to what was read. -/
theorem parse_known {n : Nat} (h : parse f src n = .ok { state := ctx, todo := [] }) :
    Known f src ctx ∧ Headed ctx ∧ FlowRead ctx ∧ ∀ it ∈ ctx.children.nodes, ∀ i,
      it.body = .stscInstruction i → ∀ l ∈ i.instruction.texts, LeadsTo ctx IsText l := by
  obtain ⟨w, hstart, hsteps⟩ := bind_eq_ok.mp h
  let g := (goals.requiring (fun s => Known f src s ∧ Headed s) fun s visit => visit.Led s).settling
    fun s visit => visit.Done s
  have hperform : ∀ s t s' tasks, g.Good s → g.Ready s t →
      Visit.make f s t = .ok (s', tasks) → g.Performed s t s' tasks := by
    intro s t s' tasks hgood hready hmake
    have hreading : Reading s := hgood.1
    have hperformed := Visit.make_performed hreading hready.1 hmake
    obtain ⟨hknown, hheaded⟩ := hgood.2
    obtain ⟨hknown', hcarries, hdone, hled⟩ := hknown.make hreading hready.2 hmake
    have hsize : s'.getSize = s.getSize := hknown'.getSize.trans hknown.getSize.symm
    exact (hperformed.requiring ⟨hknown', hheaded.mono hcarries hsize⟩ hled
      fun visit hvisit => hvisit.mono hcarries).settling hdone fun visit hvisit =>
        hvisit.mono hcarries
  obtain ⟨howed, htrack, -⟩ := start_owed hstart
  obtain ⟨hknown, hheaded, hled⟩ := start_known hstart
  have htrack' : g.OnTrack w := (htrack.requiring ⟨hknown, hheaded⟩ hled).settling howed
  have hrun := htrack'.run hperform hsteps
  have hsettled := hrun.settled rfl
  refine ⟨hrun.good.2.1, hrun.good.2.2, flowRead_of_settled fun v hv => (hsettled v hv).1,
    fun it hit i hbody l hl => ?_⟩
  exact (hsettled (.string l)
    ⟨it, hit, i, hbody, Instruction.string_mem_visits hl it.id⟩).2

end File

end Stsc

end Neptools

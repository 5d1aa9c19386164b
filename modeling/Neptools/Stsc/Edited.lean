import Neptools.Lib.Consecutive
import Neptools.Stsc.Known

/-!
A file that was read, with other texts in it. The items behind a text move, and the labels
move with their items, so the code leads to the same items as before.
-/

namespace Neptools

open Lib

namespace Stsc

open Context

variable {f : Flavor} {ctx T : Context} {src : Source} {it it' u u' : Item}

/-! The items that were read. -/

theorem Reached.kind {t : Item} (h : Reached ctx t) :
    (∃ hdr, t.body = .stscHeader hdr) ∨ IsCode t.body ∨ IsText t.body := by
  cases h with
  | @header _ hdr _ _ hbody => exact .inl ⟨hdr, hbody⟩
  | entry _ _ _ _ hcode _ | code _ _ _ _ hcode _ | next _ _ _ _ hcode _ => exact .inr (.inl hcode)
  | text _ _ _ _ htext _ => exact .inr (.inr htext)

theorem Reached.header_position {t : Item} (h : Reached ctx t) {hdr : HeaderItem}
    (hbody : t.body = .stscHeader hdr) : t.position = 0 := by
  cases h with
  | header _ hpos _ => exact hpos
  | entry _ _ _ _ hcode _ | code _ _ _ _ hcode _ | next _ _ _ _ hcode _ =>
      obtain ⟨i, hi⟩ := hcode
      cases hbody.symm.trans hi
  | text _ _ _ _ htext _ =>
      obtain ⟨string, hstring⟩ := htext
      cases hbody.symm.trans hstring

theorem Known.kinds (h : Known f src ctx) (hit : it ∈ ctx.children.nodes) :
    OfStsc it.body ∧ (0 < it.body.ownSize ∨ it.body = .eof ∧ it.position = src.size) := by
  rcases h.reached it hit with hraw | heof | hreached
  · obtain ⟨part, hpart⟩ := Body.isRaw_eq_true.mp hraw
    refine ⟨by rw [hpart]; trivial, .inl ?_⟩
    rw [hpart]
    exact h.sized it hit part hpart
  · exact ⟨by rw [heof.1]; trivial, .inr heof⟩
  · rcases hreached.kind with ⟨hdr, hbody⟩ | hcode | htext
    · exact ⟨by rw [hbody]; trivial, .inl (by rw [hbody]; exact hdr.getSize_pos)⟩
    · refine ⟨?_, .inl (ownSize_pos_of_isCode hcode).1⟩
      obtain ⟨i, hi⟩ := hcode
      rw [hi]
      trivial
    · refine ⟨?_, .inl (ownSize_pos_of_isText htext).1⟩
      obtain ⟨string, hstring⟩ := htext
      rw [hstring]
      trivial

theorem Known.flat (h : Known f src ctx) : ∀ x ∈ ctx.children.subtrees, x.2 = .nil :=
  h.charted.consistent.childless_of_flat h.charted.flat

theorem Known.le_size (h : Known f src ctx) (hit : it ∈ ctx.children.nodes) :
    it.position + it.body.ownSize ≤ src.size := by
  obtain ⟨children, hmem⟩ := Forest.mem_nodes.mp hit
  have hbounds := (Forest.Laid.bounds h.written.laid hmem).2
  have hsize : Forest.weight (fun it : Item => it.body.ownSize) ctx.children = src.size := h.getSize
  omega

/-- A label that leads to the start of an item is at that item. -/
theorem Known.lookup_of_place (h : Known f src ctx) (hu : u ∈ ctx.children.nodes)
    (hpositive : 0 < u.body.ownSize) {l : LabelPtr} (hl : ctx.toFilePos l = .ok u.position) :
    ctx.labels.lookup l = some (some { item := u.id, offset := 0 }) := by
  obtain ⟨it, hit, offset, hlookup, hplace, hin⟩ := h.charted.at_of_toFilePos hl
  have hle := h.le_size hu
  have hend := (h.kinds hit).2
  rcases Forest.Laid.apart h.written.laid h.flat hit hu with rfl | hbefore | hbehind
  · obtain rfl : offset = 0 := by omega
    exact hlookup
  · rcases hend with hsized | ⟨-, hend⟩
    · have := hin hsized
      omega
    · omega
  · omega

/-! The same items with other texts. -/

/-- The same item, but for its place, and for the text if it is one. -/
def Twin (it it' : Item) : Prop :=
  it'.id = it.id ∧ (it'.body = it.body ∨ IsText it.body ∧ IsText it'.body)

theorem Twin.sized (h : Twin it it') : 0 < it.body.ownSize ↔ 0 < it'.body.ownSize := by
  rcases h.2 with hsame | ⟨htext, htext'⟩
  · rw [hsame]
  · exact iff_of_true (ownSize_pos_of_isText htext).1 (ownSize_pos_of_isText htext').1

theorem Twin.body_eq (h : Twin it it') (hbody : ¬ IsText it.body) : it'.body = it.body :=
  h.2.resolve_right fun htexts => hbody htexts.1

theorem Twin.isText (h : Twin it it') : IsText it.body ↔ IsText it'.body := by
  rcases h.2 with hsame | ⟨htext, htext'⟩
  · rw [hsame]
  · exact iff_of_true htext htext'

theorem not_isText_of_isCode {b : Body} (h : IsCode b) : ¬ IsText b := by
  rintro ⟨string, hstring⟩
  obtain ⟨i, hi⟩ := h
  cases hstring.symm.trans hi

theorem Twin.isCode (h : Twin it it') (hcode : IsCode it.body) : IsCode it'.body := by
  rwa [h.body_eq (not_isText_of_isCode hcode)]

/-- The items are those of `ctx`, with the same labels and other texts, one behind the other. -/
structure Edited (ctx T : Context) : Prop where
  laid : T.children.Laid 0
  flat : ∀ x ∈ T.children.subtrees, x.2 = .nil
  labels : T.labels = ctx.labels
  twins : ctx.children.nodes.Forall₂ Twin T.children.nodes
  texts : ∀ it ∈ T.children.nodes, ∀ string, it.body = .cString string → 0 ∉ string

/-- The items stand at the same place in the two lists. -/
def Pair (ctx T : Context) (it it' : Item) : Prop :=
  (it, it') ∈ ctx.children.nodes.zip T.children.nodes

namespace Pair

theorem mem (h : Pair ctx T it it') : it ∈ ctx.children.nodes ∧ it' ∈ T.children.nodes :=
  List.of_mem_zip h

theorem twin (h : Pair ctx T it it') (hedited : Edited ctx T) : Twin it it' :=
  List.forall₂_zip hedited.twins h

end Pair

namespace Edited

theorem exists_pair (hedited : Edited ctx T) (hit : it ∈ ctx.children.nodes) :
    ∃ it', Pair ctx T it it' := by
  rw [← List.map_fst_zip hedited.twins.length_eq.le] at hit
  obtain ⟨⟨a, a'⟩, hmem, rfl⟩ := List.mem_map.mp hit
  exact ⟨a', hmem⟩

theorem exists_pair' (hedited : Edited ctx T) (hit' : it' ∈ T.children.nodes) :
    ∃ it, Pair ctx T it it' := by
  rw [← List.map_snd_zip hedited.twins.length_eq.ge] at hit'
  obtain ⟨⟨a, a'⟩, hmem, rfl⟩ := List.mem_map.mp hit'
  exact ⟨a, hmem⟩

theorem ids (hedited : Edited ctx T) :
    T.children.nodes.map Item.id = ctx.children.nodes.map Item.id := by
  have htwins := hedited.twins
  generalize ctx.children.nodes = l, T.children.nodes = l' at htwins
  induction htwins with
  | nil => rfl
  | cons htwin _ ih => rw [List.map_cons, List.map_cons, htwin.1, ih]

theorem le_size (hedited : Edited ctx T) (hit' : it' ∈ T.children.nodes) :
    it'.position + it'.body.ownSize ≤ T.getSize := by
  obtain ⟨children, hmem⟩ := Forest.mem_nodes.mp hit'
  have hbounds := (Forest.Laid.bounds hedited.laid hmem).2
  have hsize : Forest.weight (fun it : Item => it.body.ownSize) T.children = T.getSize := rfl
  omega

theorem body_instruction (hedited : Edited ctx T) (hpair : Pair ctx T it it') {i : InstructionItem}
    (hi : it.body = .stscInstruction i) : it'.body = .stscInstruction i := by
  rw [(hpair.twin hedited).body_eq (not_isText_of_isCode ⟨i, hi⟩), hi]

theorem body_header (hedited : Edited ctx T) (hpair : Pair ctx T it it') {hdr : HeaderItem}
    (hbody : it.body = .stscHeader hdr) : it'.body = .stscHeader hdr := by
  rw [(hpair.twin hedited).body_eq, hbody]
  rintro ⟨string, hstring⟩
  cases hbody.symm.trans hstring

section

variable (h : Known f src ctx) (hedited : Edited ctx T)

include h hedited

/-- A label is at the same byte of its item. -/
theorem toFilePos_of_lookup (hpair : Pair ctx T it it') {l : LabelPtr} {offset : Nat}
    (hl : ctx.labels.lookup l = some (some { item := it.id, offset })) :
    T.toFilePos l = .ok (it'.position + offset) := by
  have hnodup : (T.children.nodes.map Item.id).Nodup := by
    rw [hedited.ids]
    exact h.charted.consistent.distinct
  obtain ⟨children, hmem⟩ := Forest.mem_nodes.mp hpair.mem.2
  rw [← hedited.labels, ← (hpair.twin hedited).1] at hl
  rw [Context.toFilePos, target_of_find? hl (find?_of_mem hnodup hmem), ok_bind]
  rfl

theorem toFilePos_of_place (hpair : Pair ctx T u u') (hpositive : 0 < u.body.ownSize)
    {l : LabelPtr} (hl : ctx.toFilePos l = .ok u.position) : T.toFilePos l = .ok u'.position :=
  toFilePos_of_lookup h hedited hpair (h.lookup_of_place hpair.mem.1 hpositive hl)

theorem consecutive : Consecutive Item.position (fun it => it.body.ownSize) 0 ctx.children.nodes ∧
    Consecutive Item.position (fun it => it.body.ownSize) 0 T.children.nodes :=
  ⟨Forest.consecutive h.written.laid h.flat, Forest.consecutive hedited.laid hedited.flat⟩

theorem behind (hpair : Pair ctx T it it') (hpair' : Pair ctx T u u')
    (hpositive : 0 < it.body.ownSize) (hle : it.position + it.body.ownSize ≤ u.position) :
    it'.position + it'.body.ownSize ≤ u'.position :=
  (consecutive h hedited).1.behind (consecutive h hedited).2 hpair hpair' hpositive hle

theorem adjacent (hpair : Pair ctx T it it') (hpair' : Pair ctx T u u')
    (hpositive : 0 < it.body.ownSize) (heq : it.position + it.body.ownSize = u.position) :
    it'.position + it'.body.ownSize = u'.position :=
  (consecutive h hedited).1.adjacent (consecutive h hedited).2
    (hedited.twins.imp fun _ _ htwin => htwin.sized) hpair hpair' hpositive heq

theorem first (hpair : Pair ctx T it it') (hfirst : it.position = 0) : it'.position = 0 :=
  (consecutive h hedited).1.first (consecutive h hedited).2
    (hedited.twins.imp fun _ _ htwin => htwin.sized) hpair hfirst

/-! Where the labels lead. -/

theorem itemAt {P : Body → Prop} (hP : ∀ it it', Twin it it' → P it.body → P it'.body)
    (hpair : Pair ctx T it it') (hpositive : 0 < it.body.ownSize)
    (hat : ItemAt ctx P (it.position + it.body.ownSize)) :
    ItemAt T P (it'.position + it'.body.ownSize) := by
  obtain ⟨u, hu, hkind, hpos⟩ := hat
  obtain ⟨u', hpair'⟩ := hedited.exists_pair hu
  exact ⟨u', hpair'.mem.2, hP u u' (hpair'.twin hedited) hkind,
    (adjacent h hedited hpair hpair' hpositive hpos.symm).symm⟩

theorem leadsTo {P : Body → Prop} (hsized : ∀ b, P b → 0 < b.ownSize)
    (hP : ∀ it it', Twin it it' → P it.body → P it'.body) {l : LabelPtr}
    (hl : LeadsTo ctx P l) : LeadsTo T P l := by
  obtain ⟨_, hpos, u, hu, hkind, rfl⟩ := hl
  obtain ⟨u', hpair⟩ := hedited.exists_pair hu
  exact ⟨_, toFilePos_of_place h hedited hpair (hsized _ hkind) hpos, u', hpair.mem.2,
    hP u u' (hpair.twin hedited) hkind, rfl⟩

/-- The entry point is not the last byte of the file. -/
theorem headed (hheaded : Headed ctx) : Headed T := by
  obtain ⟨t, ht, hpos, hdr, hbody, _, hentry, ⟨u, hu, hcode, rfl⟩, hlt⟩ := hheaded
  obtain ⟨t', hpair⟩ := hedited.exists_pair ht
  obtain ⟨u', hpair'⟩ := hedited.exists_pair hu
  have htwin' := hpair'.twin hedited
  have hsized := (ownSize_pos_of_isCode hcode).1
  refine ⟨t', hpair.mem.2, hedited.first h hpair hpos, hdr,
    hedited.body_header hpair hbody, u'.position,
    hedited.toFilePos_of_place h hpair' hsized hentry, ⟨u', hpair'.mem.2, htwin'.isCode hcode, rfl⟩,
    ?_⟩
  -- the item that has the byte behind the entry point
  rw [h.getSize] at hlt
  obtain ⟨ptr, hptr, hinside⟩ := h.charted.exists_getPointer (u.position + 1)
  obtain ⟨v, children, hfind, hplace⟩ := getPointer_ok hptr
  obtain ⟨hmem, hid⟩ := find?_some hfind
  have hv := Forest.mem_nodes.mpr ⟨_, hmem⟩
  have hin := hinside v.body (hid ▸ h.charted.consistent.bodyOf_of_mem hmem)
  have hvsized : 0 < v.body.ownSize := by
    rcases (h.kinds hv).2 with hsized | ⟨-, hend⟩
    · exact hsized
    · omega
  have hin := hin hvsized
  obtain ⟨v', hpair''⟩ := hedited.exists_pair hv
  have hle := hedited.le_size hpair''.mem.2
  have hvsized' := (hpair''.twin hedited).sized.mp hvsized
  rcases Forest.Laid.apart h.written.laid h.flat hu hv with rfl | hbefore | hbehind
  · have hle' := hedited.le_size hpair'.mem.2
    rw [htwin'.body_eq (not_isText_of_isCode hcode)] at hle'
    omega
  · have := hedited.behind h hpair' hpair'' hsized hbefore
    have := htwin'.sized.mp hsized
    omega
  · omega

/-- What the header leads to is the same. -/
theorem reached {t t' : Item} (hpair : Pair ctx T t t') (ht : Reached ctx t) : Reached T t' := by
  induction ht generalizing t' with
  | header _ hpos hbody =>
      exact .header hpair.mem.2 (hedited.first h hpair hpos) (hedited.body_header hpair hbody)
  | entry ht hpos hbody _ hcode hentry =>
      obtain ⟨a, ha⟩ := hedited.exists_pair ht
      exact .entry ha.mem.2 (hedited.first h ha hpos) (hedited.body_header ha hbody) hpair.mem.2
        ((hpair.twin hedited).isCode hcode)
        (hedited.toFilePos_of_place h hpair (ownSize_pos_of_isCode hcode).1 hentry)
  | text ht hbody hl _ htext hpos ih =>
      obtain ⟨a, ha⟩ := hedited.exists_pair ht.mem
      exact .text (ih ha) (hedited.body_instruction ha hbody) hl hpair.mem.2
        ((hpair.twin hedited).isText.mp htext)
        (hedited.toFilePos_of_place h hpair (ownSize_pos_of_isText htext).1 hpos)
  | code ht hbody hl _ hcode hpos ih =>
      obtain ⟨a, ha⟩ := hedited.exists_pair ht.mem
      exact .code (ih ha) (hedited.body_instruction ha hbody) hl hpair.mem.2
        ((hpair.twin hedited).isCode hcode)
        (hedited.toFilePos_of_place h hpair (ownSize_pos_of_isCode hcode).1 hpos)
  | next ht hbody hgoesOn _ hcode hpos ih =>
      obtain ⟨a, ha⟩ := hedited.exists_pair ht.mem
      exact .next (ih ha) (hedited.body_instruction ha hbody) hgoesOn hpair.mem.2
        ((hpair.twin hedited).isCode hcode)
        (hedited.adjacent h ha hpair (ownSize_pos_of_isCode ⟨_, hbody⟩).1 hpos)

end

end Edited

/-- The code leads to the beginning of code, and nothing leads into a text, so that the texts
can be changed. -/
structure Editable (ctx : Context) : Prop where
  toCode : ∀ it ∈ ctx.children.nodes, ∀ i, it.body = .stscInstruction i →
    ∀ l ∈ i.instruction.targets, LeadsTo ctx IsCode l
  goesOn : ∀ it ∈ ctx.children.nodes, ∀ i, it.body = .stscInstruction i →
    i.instruction.goesOn = true → ItemAt ctx IsCode (it.position + it.body.ownSize)
  toTexts : ∀ it ∈ ctx.children.nodes, IsText it.body → ∀ l offset,
    ctx.labels.lookup l = some (some { item := it.id, offset }) → offset = 0

/-! It can be decided whether the texts can be changed. -/

def instruction? : Body → Option InstructionItem
  | .stscInstruction i => some i
  | _ => none

theorem mem_instruction? {b : Body} {i : InstructionItem} :
    i ∈ instruction? b ↔ b = .stscInstruction i := by
  cases b <;> simp [instruction?]

instance : DecidablePred IsText := fun b =>
  decidable_of_iff ((b matches .cString _) = true) (by cases b <;> simp [IsText])

instance : DecidablePred IsCode := fun b =>
  decidable_of_iff ((instruction? b).isSome = true) (by cases b <;> simp [IsCode, instruction?])

instance (ctx : Context) (P : Body → Prop) [DecidablePred P] (pos : Nat) :
    Decidable (ItemAt ctx P pos) :=
  inferInstanceAs (Decidable (∃ it ∈ ctx.children.nodes, P it.body ∧ it.position = pos))

instance (ctx : Context) (P : Body → Prop) [DecidablePred P] (l : LabelPtr) :
    Decidable (LeadsTo ctx P l) :=
  decidable_of_iff (∃ pos ∈ (ctx.toFilePos l).toOption, ItemAt ctx P pos) <| by
    rw [LeadsTo]
    cases ctx.toFilePos l <;> simp [Except.toOption]

theorem editable_iff (ctx : Context) : Editable ctx ↔
    (∀ it ∈ ctx.children.nodes, ∀ i ∈ instruction? it.body,
      (∀ l ∈ i.instruction.targets, LeadsTo ctx IsCode l) ∧
        (i.instruction.goesOn = true → ItemAt ctx IsCode (it.position + it.body.ownSize))) ∧
    ∀ it ∈ ctx.children.nodes, IsText it.body → ∀ e ∈ ctx.labels.entries, ∀ ptr ∈ e.2,
      ptr.item = it.id → ptr.offset = 0 := by
  simp only [mem_instruction?]
  constructor
  · intro h
    refine ⟨fun it hit i hi => ⟨h.toCode it hit i hi, h.goesOn it hit i hi⟩, ?_⟩
    rintro it hit htext ⟨l, ptr⟩ he ⟨item, offset⟩ hptr rfl
    obtain rfl : ptr = some _ := hptr
    exact h.toTexts it hit htext l offset (AList.mem_lookup_iff.mpr he)
  · rintro ⟨hcode, htexts⟩
    refine ⟨fun it hit i hi => (hcode it hit i hi).1, fun it hit i hi => (hcode it hit i hi).2, ?_⟩
    intro it hit htext l offset hl
    exact htexts it hit htext _ (AList.mem_lookup_iff.mp hl) _ rfl rfl

instance (ctx : Context) : Decidable (Editable ctx) := decidable_of_iff' _ (editable_iff ctx)

section

variable (h : Known f src ctx) (hheaded : Headed ctx) (heditable : Editable ctx)
  (hedited : Edited ctx T)

include h hheaded heditable hedited

/-- What leads to a place in the file still does. -/
theorem Editable.moves : Moves ctx.view src.size T.view T.getSize := by
  intro l pos hl hle
  obtain ⟨it, hit, offset, hlookup, rfl, hin⟩ := h.charted.at_of_toFilePos hl
  obtain ⟨it', hpair⟩ := hedited.exists_pair hit
  have htwin := hpair.twin hedited
  have hle' := hedited.le_size hpair.mem.2
  refine ⟨it'.position + offset, hedited.toFilePos_of_lookup h hpair hlookup, ?_⟩
  -- the label is in front of the end of its item, if that is not the end of the file
  have hoffset : 0 < it.body.ownSize ∧ offset < it'.body.ownSize ∨
      it.position = src.size ∧ offset = 0 := by
    rcases (h.kinds hit).2 with hsized | ⟨-, hend⟩
    · refine .inl ⟨hsized, ?_⟩
      rcases htwin.2 with hsame | ⟨htext, htext'⟩
      · rw [hsame]
        exact hin hsized
      · rw [heditable.toTexts it hit htext l offset hlookup]
        exact (ownSize_pos_of_isText htext').1
    · exact .inr ⟨hend, by omega⟩
  have hfront : 0 < it.position → 0 < it'.position := by
    intro hpos
    obtain ⟨t, ht, hfirst, hdr, hbody, -⟩ := hheaded
    obtain ⟨t', hpair'⟩ := hedited.exists_pair ht
    have hsized : 0 < t.body.ownSize := by
      rw [hbody]
      exact hdr.getSize_pos
    have hsized' := (hpair'.twin hedited).sized.mp hsized
    rcases Forest.Laid.apart h.written.laid h.flat ht hit with rfl | hbefore | hbehind
    · omega
    · have := hedited.behind h hpair' hpair hsized hbefore
      omega
    · omega
  omega

/-- The file can be written, and read again. -/
theorem Editable.listing (hsmall : T.getSize < 2 ^ 32)
    (htexts : ∀ it ∈ ctx.children.nodes, ∀ i, it.body = .stscInstruction i →
      ∀ l ∈ i.instruction.texts, LeadsTo ctx IsText l) : Listing f T := by
  have hinstruction {it' : Item} (hit' : it' ∈ T.children.nodes) {i : InstructionItem}
      (hi : it'.body = .stscInstruction i) :
      ∃ it, Pair ctx T it it' ∧ it.body = .stscInstruction i := by
    obtain ⟨it, hpair⟩ := hedited.exists_pair' hit'
    refine ⟨it, hpair, ?_⟩
    rcases (hpair.twin hedited).2 with hsame | ⟨-, htext'⟩
    · rw [← hsame, hi]
    · exact absurd htext' (not_isText_of_isCode ⟨i, hi⟩)
  refine ⟨hedited.laid, hedited.flat, hsmall, fun it' hit' => ?_, hedited.texts,
    fun it' hit' i hi => ?_, fun it' hit' i hi l hl => ?_, fun it' hit' i hi l hl => ?_,
    fun it' hit' i hi hgoesOn => ?_, hedited.headed h hheaded⟩
  · obtain ⟨it, hpair⟩ := hedited.exists_pair' hit'
    rcases (hpair.twin hedited).2 with hsame | ⟨-, string, hstring⟩
    · rw [hsame]
      exact (h.kinds hpair.mem.1).1
    · rw [hstring]
      trivial
  · obtain ⟨it, hpair, hi⟩ := hinstruction hit' hi
    exact (h.readable it hpair.mem.1 i hi).moves (heditable.moves h hheaded hedited)
  · obtain ⟨it, hpair, hi⟩ := hinstruction hit' hi
    exact hedited.leadsTo h (fun b hb => (ownSize_pos_of_isText hb).1)
      (fun _ _ htwin => htwin.isText.mp) (htexts it hpair.mem.1 i hi l hl)
  · obtain ⟨it, hpair, hi⟩ := hinstruction hit' hi
    exact hedited.leadsTo h (fun b hb => (ownSize_pos_of_isCode hb).1)
      (fun _ _ htwin => htwin.isCode) (heditable.toCode it hpair.mem.1 i hi l hl)
  · obtain ⟨it, hpair, hi⟩ := hinstruction hit' hi
    exact hedited.itemAt h (fun _ _ htwin => htwin.isCode) hpair
      (ownSize_pos_of_isCode ⟨i, hi⟩).1 (heditable.goesOn it hpair.mem.1 i hi hgoesOn)

end

end Stsc

end Neptools

import Neptools.Lib.List
import Neptools.Stsc.Listing
import Neptools.Stsc.Underway

/-!
A file that was written is read as what it was written from. Whatever is read stands in the
file as an item of its own, and what is not read yet does not end within one.
-/

namespace Neptools

open Lib

namespace Stsc

open Context

variable {f : Flavor} {T ctx ctx' ctx₁ : Context} {src : Source}

/-- What is read so far of the file that `T` is written to. -/
structure Stage (T : Context) (src : Source) (ctx : Context) : Prop extends Underway src ctx where
  read : ∀ it ∈ ctx.children.nodes, it.body.isRaw = true ∨
    it.body = .eof ∧ it.position = src.size ∨
      ∃ t, Reached T t ∧ t.position = it.position ∧ SameBody T.view ctx.view t.body it.body
  /-- No item is in part among the bytes that are not read. -/
  whole : ∀ it ∈ ctx.children.nodes, ∀ part, it.body = .raw part → ∀ t ∈ T.children.nodes,
    t.body.isRaw = false → 0 < t.body.ownSize →
      t.position + t.body.ownSize ≤ it.position ∨ it.position + part.size ≤ t.position ∨
        it.position ≤ t.position ∧ t.position + t.body.ownSize ≤ it.position + part.size

theorem Stage.relabels (h : Stage T src ctx) (hrelabels : ctx.Relabels ctx')
    (hctx' : ctx'.Charted) : Stage T src ctx' where
  toUnderway := h.toUnderway.relabels hrelabels hctx'
  read it hit := by
    obtain ⟨it', hit', heq⟩ := exists_of_plain hrelabels.plain.symm hit
    rw [← body_of_plain heq, ← position_of_plain heq]
    rcases h.read it' hit' with hraw | heof | ⟨t, ht, hpos, hsame⟩
    · exact .inl hraw
    · exact .inr (.inl heof)
    · exact .inr (.inr ⟨t, ht, hpos, hsame.mono (hrelabels.extends False).toFilePos⟩)
  whole it hit part hbody := by
    obtain ⟨it', hit', heq⟩ := exists_of_plain hrelabels.plain.symm hit
    rw [← position_of_plain heq]
    exact h.whole it' hit' part ((body_of_plain heq).trans hbody)

/-- An item is split off where it stands in the file. -/
theorem Stage.split (h : Stage T src ctx) (hT : Listing f T) {id pos : Nat} {body : Body}
    (hsplit : ctx.splitCreate id pos body = .ok ctx') (hctx' : ctx'.Charted)
    (hwritten : WrittenSoFar src ctx') {t : Item} (ht : Reached T t)
    (hplace : ∀ r ∈ ctx.children.nodes, r.id = id → t.position = r.position + pos)
    (hsame : SameBody T.view ctx.view t.body body) : Stage T src ctx' := by
  obtain ⟨r, raw, hnodes⟩ := h.charted.consistent.splitCreate_nodes hsplit
  have hpos := hplace r hnodes.mem hnodes.split
  have hsize := hsame.ownSize
  have hle := hnodes.le
  have hview : ∀ l p, ctx.view.toFilePos l = .ok p → ctx'.view.toFilePos l = .ok p :=
    h.charted.consistent.splitCreate_toFilePos hsplit
  have hkind := hsame.isRaw.2
  refine ⟨h.toUnderway.split hsplit hctx' hwritten hkind, fun it hit => ?_,
    fun it hit part hbody u hu hraw hpositive => ?_⟩
  · rcases hnodes.nodes it hit with ⟨hold, -⟩ | ⟨hnew, hat⟩ | ⟨part', hpart, -⟩
    · rcases h.read it hold with hraw | heof | ⟨u, hu, hat, hread⟩
      · exact .inl hraw
      · exact .inr (.inl heof)
      · exact .inr (.inr ⟨u, hu, hat, hread.mono hview⟩)
    · exact .inr (.inr ⟨t, ht, hpos.trans hat.symm, hnew ▸ hsame.mono hview⟩)
    · exact .inl (by rw [hpart]; rfl)
  · rcases hnodes.nodes it hit with ⟨hold, -⟩ | ⟨hnew, -⟩ | ⟨part', hpart, -, hplaced⟩
    · exact h.whole it hold part hbody u hu hraw hpositive
    · rw [← hnew, hbody] at hkind
      cases hkind
    · cases hbody.symm.trans hpart
      have hold := h.whole r hnodes.mem raw hnodes.raw u hu hraw hpositive
      rcases hT.apart hu ht.mem with rfl | hbefore | hbehind
      · omega
      · omega
      · omega

/-- An item of the file is split off, and stands where it does in the file. -/
theorem Stage.split_off (h : Stage T src ctx) (hT : Listing f T) (hrelabels : ctx.Relabels ctx₁)
    (h₁ : ctx₁.Charted) {t : Item} (ht : Reached T t) {it : Item} (hit : it ∈ ctx.children.nodes)
    {offset : Nat} (hpos : it.position + offset = t.position) {body : Body}
    (hsame : SameBody T.view ctx₁.view t.body body)
    (hsplit : ctx₁.splitCreate it.id offset body = .ok ctx') (hctx' : ctx'.Charted)
    (hwritten : WrittenSoFar src ctx') :
    Stage T src ctx' ∧ ctx.Carries ctx' ∧
      ∃ n ∈ ctx'.children.nodes, n.id = ctx.nextId ∧ n.position = t.position ∧ n.body = body := by
  refine ⟨(h.relabels hrelabels h₁).split hT hsplit hctx' hwritten ht (fun r hr hid => ?_) hsame,
    ?_⟩
  · rw [hrelabels.position_of_id h.charted.consistent hit hr hid]
    exact hpos.symm
  · rw [← hpos]
    exact (h.toUnderway.split_off hrelabels h₁ hit hsame.isRaw.2 hsplit hctx' hwritten).2

/-- An item that starts among the bytes that are not read can be read from there. -/
theorem Stage.stands (h : Stage T src ctx) {t : Item} (ht : t ∈ T.children.nodes)
    (hraw : t.body.isRaw = false) {bytes : Bytes} (hlength : bytes.length = t.body.ownSize)
    (hsize : 0 < t.body.ownSize) (hstand : StandsAt bytes t.position src.bytes) {it : Item}
    (hit : it ∈ ctx.children.nodes) {part : Source} (hbody : it.body = .raw part) {offset : Nat}
    (hpos : it.position + offset = t.position) (hlt : offset < part.size) :
    offset + t.body.ownSize ≤ part.size ∧ StandsAt bytes offset part.bytes := by
  have hin : offset + t.body.ownSize ≤ part.size := by
    have := h.whole it hit part hbody t ht hraw hsize
    omega
  refine ⟨hin, ?_⟩
  have hpart : StandsAt part.bytes it.position src.bytes := by
    have hwritten := h.written.items it hit trivial
    rw [hbody, eq_true (kept_of_isRaw (by rw [hbody]; rfl))] at hwritten
    exact hwritten.standsAt
  have hle : offset + bytes.length ≤ part.bytes.length := by
    rwa [hlength, Source.length_bytes]
  rw [← hpos] at hstand
  exact (StandsAt.trans_iff hpart hle).mp hstand

/-- What is read already at the start of an item is that item. -/
theorem Stage.read_at (h : Stage T src ctx) (hT : Listing f T) (hsize : T.getSize = src.size)
    {t : Item} (ht : t ∈ T.children.nodes) (hpositive : 0 < t.body.ownSize) {it : Item}
    (hit : it ∈ ctx.children.nodes) {offset : Nat} (hpos : it.position + offset = t.position)
    (hin : 0 < it.body.ownSize → offset < it.body.ownSize) :
    it.body.isRaw = true ∨ offset = 0 ∧ SameBody T.view ctx.view t.body it.body := by
  rcases h.read it hit with hraw | ⟨-, hend⟩ | ⟨u, hu, hplace, hsame⟩
  · exact .inl hraw
  · have := hT.le_getSize ht
    omega
  · have hlength := hsame.ownSize
    have hlt := hin (hlength ▸ hsame.ownSize_pos)
    obtain rfl := hT.eq_of_byte hu.mem ht hpositive (by omega) (by omega)
    exact .inr ⟨by omega, hsame⟩

theorem ownSize_pos_of_isCode {b : Body} (h : IsCode b) : 0 < b.ownSize ∧ b.isRaw = false := by
  obtain ⟨i, rfl⟩ := h
  exact ⟨i.instruction.getSize_pos, rfl⟩

theorem SameBody.isCode {v v' : LabelView} {b b' : Body} (h : SameBody v v' b b')
    (hcode : IsCode b) : IsCode b' := by
  obtain ⟨i, rfl⟩ := hcode
  cases h with
  | stscInstruction opcode hsame => exact ⟨_, rfl⟩

theorem ownSize_pos_of_isText {b : Body} (h : IsText b) : 0 < b.ownSize ∧ b.isRaw = false := by
  obtain ⟨string, rfl⟩ := h
  exact ⟨Nat.succ_pos _, rfl⟩

section

variable (hT : Listing f T) {events : List Event} (hdump : T.dump = .ok events)
  (hsrc : src.bytes = Sink.bytesOf (callsOf events))

include hT hdump hsrc

theorem size_of_dump : T.getSize = src.size := by
  have hbytes : T.children.dump T.view = .ok events := hdump
  have hwrites : ∀ it ∈ T.children.nodes, ∀ size,
      Writes it.body.ownSize (it.body.dump T.view size) := by
    intro it hit size
    have hwrites := it.body.writes T.view size
    rw [fixup_of_ofStsc (hT.kinds it hit)] at hwrites
    exact hwrites
  rw [← Source.length_bytes, hsrc, (ItemList.dump_laid hwrites hT.laid hbytes).1]
  rfl

theorem Stage.textsAt (h : Stage T src ctx) {texts : List LabelPtr}
    (htexts : ∀ l ∈ texts, LeadsTo T IsText l) : TextsAt T.view ctx texts := by
  intro l hl pos hpos ptr part hptr hbody
  obtain ⟨pos', hpos', t, ht, ⟨string, hstring⟩, rfl⟩ := htexts l hl
  obtain rfl : pos = t.position := Except.ok.inj (hpos.symm.trans hpos')
  obtain ⟨calls, hcalls, hlength, hstand⟩ := hT.stands hdump ht
  rw [hstring] at hcalls
  cases hcalls
  obtain ⟨ptr', hptr', hin⟩ := h.charted.exists_getPointer t.position
  cases hptr.symm.trans hptr'
  obtain ⟨it, children, hfind, hplace⟩ := getPointer_ok hptr
  obtain ⟨hmem, hid⟩ := find?_some hfind
  have hsame := h.charted.consistent.bodyOf_of_mem hmem
  rw [hid, hbody] at hsame
  have hit := Forest.mem_nodes.mpr ⟨_, hmem⟩
  have hraw : it.body = .raw part := (Option.some.inj hsame).symm
  obtain ⟨hpositive, hkind⟩ := ownSize_pos_of_isText ⟨string, hstring⟩
  have hlt := hin _ hbody (h.sized it hit part hraw)
  rw [← hsrc] at hstand
  obtain ⟨hsize, hstands⟩ := h.stands ht hkind hlength hpositive hstand hit hraw hplace hlt
  refine ⟨by omega, ?_⟩
  obtain ⟨post, hpost⟩ := hstands.drop_eq
  rw [hpost]
  simp [Sink.bytesOf_cons]

/-- What is behind the place of an item that is not read yet begins with the item. -/
theorem Stage.getSource (h : Stage T src ctx) {t : Item} (ht : t ∈ T.children.nodes)
    (hpositive : 0 < t.body.ownSize) (hkind : t.body.isRaw = false) {it : Item}
    (hit : it ∈ ctx.children.nodes) {part : Source} (hbody : it.body = .raw part) {offset : Nat}
    (hpos : it.position + offset = t.position) (hlt : offset < part.size) :
    offset + t.body.ownSize ≤ part.size ∧ ctx.bodyOf it.id = some (.raw part) ∧
      ∃ calls w, t.body.dump T.view t.body.ownSize = .ok calls ∧
        ctx.getSource { item := it.id, offset } = .ok w ∧ w.get = 0 ∧
        StandsAt (Sink.bytesOf calls) 0 w.bytes := by
  obtain ⟨calls, hcalls, hlength, hstand⟩ := hT.stands hdump ht
  rw [← hsrc] at hstand
  obtain ⟨hle, hstands⟩ := h.stands ht hkind hlength hpositive hstand hit hbody hpos hlt
  obtain ⟨children, hmem⟩ := Forest.mem_nodes.mp hit
  have hbodyOf := h.charted.consistent.bodyOf_of_mem hmem
  rw [hbody] at hbodyOf
  have hbodyPtr : ctx.bodyOf (ItemPointer.mk it.id offset).item = some (.raw part) := hbodyOf
  obtain ⟨w, hw, hget, hbytes⟩ := getSource_of_bodyOf hbodyPtr (show offset ≤ part.size by omega)
  refine ⟨hle, hbodyOf, calls, w, hcalls, hw, hget, ?_⟩
  rw [hbytes]
  have hrest : offset + (part.size - offset) ≤ part.bytes.length := by
    rw [Source.length_bytes]
    omega
  refine (StandsAt.trans_iff (StandsAt.of_slice hrest) ?_).mp hstands
  rw [length_slice_of_le hrest, hlength]
  omega

/-- An instruction is read where it stands, or refused for its default case. -/
theorem Stage.createAndInsert (h : Stage T src ctx) (hreading : Reading ctx) {t : Item}
    (hreached : Reached T t) {i : InstructionItem} (hi : t.body = .stscInstruction i)
    {it : Item} (hit : it ∈ ctx.children.nodes) {part : Source} (hbody : it.body = .raw part)
    {offset : Nat} (hpos : it.position + offset = t.position) (hlt : offset < part.size) :
    (∃ ctx' i', InstructionItem.createAndInsert f ctx { item := it.id, offset } =
        .ok (ctx', i'.visits ctx.nextId) ∧ Stage T src ctx' ∧ ctx.Carries ctx' ∧
      i.instruction.Same T.view ctx'.view i' ∧
      ∃ n ∈ ctx'.children.nodes, n.id = ctx.nextId ∧ n.position = t.position ∧
        n.body = .stscInstruction { opcode := i.opcode, instruction := i' }) ∨
    i.instruction.hasDefault = true ∧
      InstructionItem.createAndInsert f ctx { item := it.id, offset } =
        .error InstructionJumpSwitchItem.noRoom := by
  have ht := hreached.mem
  obtain ⟨hpositive, hkind⟩ := ownSize_pos_of_isCode ⟨i, hi⟩
  obtain ⟨hle, hbodyOf, calls, w, hcalls, hw, hget, hstand⟩ :=
    h.getSource hT hdump hsrc ht hpositive hkind hit hbody hpos hlt
  have hsize : ctx.getSize = T.getSize := h.getSize.trans (size_of_dump hT hdump hsrc).symm
  have hdumpItem : i.dump T.view = .ok calls := by
    rw [hi] at hcalls
    exact hcalls
  have hread : i.instruction.Readable T.view ctx.getSize (instructionMap f i.opcode) := by
    rw [hsize]
    exact hT.readable t ht i hi
  have htexts := h.textsAt hT hdump hsrc (hT.toTexts t ht i hi)
  rw [← hget] at hstand
  have hcheck : w.checkSize 1 = .ok () := by
    refine Source.checkSize_of_le ?_
    have hlength := hstand.le
    rw [InstructionItem.writes T.view i calls hdumpItem, Source.length_bytes] at hlength
    have := i.instruction.getSize_pos
    omega
  have hopcode : w.readUint8 .little = .ok (i.opcode, w.at_ (w.get + 1)) := by
    obtain ⟨cs, hcs, heq⟩ := bind_eq_ok.mp hdumpItem
    cases heq
    rw [Sink.bytesOf_cons, Sink.Call.bytes_write] at hstand
    exact Source.readUint_of_standsAt (s := w) hstand.left
  rcases decodes_parseInstruction h.charted (hsize ▸ hT.small) hread htexts hdumpItem hstand with
    ⟨ctx₁, i', hparse, hrelabels, h₁, hsame⟩ | ⟨hdefault, hparse⟩
  · left
    have hlength := hsame.getSize
    have hown : t.body.ownSize = i.instruction.getSize := by
      rw [hi]
      rfl
    have hbodyOf₁ := hbodyOf
    rw [← hrelabels.bodyOf] at hbodyOf₁
    have hroom : offset + Body.ownSize (.stscInstruction { opcode := i.opcode, instruction := i' }) ≤
        part.size := by
      change offset + i'.getSize ≤ part.size
      omega
    obtain ⟨ctx', hsplit, hctx'⟩ := h₁.splitCreate hbodyOf₁ hroom i'.getSize_pos rfl
    have hcreate : InstructionItem.createAndInsert f ctx { item := it.id, offset } =
        .ok (ctx', i'.visits ctx.nextId) := by
      rw [InstructionItem.createAndInsert, InstructionItem.insert, hw, ok_bind, hcheck, ok_bind,
        hopcode, ok_bind]
      dsimp only
      rw [hparse, ok_bind, ← hrelabels.nextId]
      dsimp only
      exact bind_eq_ok.mpr ⟨_, bind_eq_ok.mpr ⟨ctx', hsplit, rfl⟩, rfl⟩
    have hbodies : SameBody T.view ctx₁.view t.body
        (.stscInstruction { opcode := i.opcode, instruction := i' }) := by
      rw [hi]
      exact .stscInstruction i.opcode hsame
    obtain ⟨hstage, hcarries, hnew⟩ := h.split_off hT hrelabels h₁ hreached hit hpos hbodies hsplit
      hctx' (InstructionItem.createAndInsert_written h.written hreading hcreate)
    exact ⟨ctx', i', hcreate, hstage, hcarries,
      hsame.mono (h₁.consistent.splitCreate_toFilePos hsplit), hnew⟩
  · right
    refine ⟨hdefault, ?_⟩
    rw [InstructionItem.createAndInsert, InstructionItem.insert, hw, ok_bind, hcheck, ok_bind,
      hopcode, ok_bind]
    dsimp only
    rw [hparse]
    rfl

/-- A text is read where it stands. -/
theorem Stage.maybeCreate (h : Stage T src ctx) (hreading : Reading ctx) {t : Item}
    (hreached : Reached T t) {string : Bytes} (hstring : t.body = .cString string) {it : Item}
    (hit : it ∈ ctx.children.nodes) {offset : Nat} (hpos : it.position + offset = t.position)
    (hin : 0 < it.body.ownSize → offset < it.body.ownSize) :
    ∃ ctx', CStringItem.maybeCreate ctx { item := it.id, offset } = .ok (ctx', string) ∧
      Stage T src ctx' ∧ ctx.Carries ctx' := by
  have ht := hreached.mem
  obtain ⟨hpositive, hkind⟩ := ownSize_pos_of_isText ⟨string, hstring⟩
  have hsize := size_of_dump hT hdump hsrc
  have hisRaw := isRaw_of_mem h.charted.consistent hit
  obtain ⟨children, hmem⟩ := Forest.mem_nodes.mp hit
  rw [CStringItem.maybeCreate]
  by_cases hraw : it.body.isRaw = true
  · obtain ⟨part, hbody⟩ := Body.isRaw_eq_true.mp hraw
    have hlt : offset < part.size := by
      rw [hbody] at hin
      exact hin (h.sized it hit part hbody)
    obtain ⟨hle, hbodyOf, calls, w, hcalls, hw, -, hstand⟩ :=
      h.getSource hT hdump hsrc ht hpositive hkind hit hbody hpos hlt
    rw [hstring] at hcalls hle
    cases hcalls
    have hread : w.preadCString 0 = .ok string :=
      Source.preadCString_of_standsAt (hT.texts t ht string hstring)
        (by simpa [Sink.bytesOf_cons] using hstand)
    obtain ⟨ctx', hsplit, hctx'⟩ := h.charted.splitCreate hbodyOf hle (Nat.succ_pos _) rfl
    have hcreate : CStringItem.maybeCreate ctx { item := it.id, offset } = .ok (ctx', string) := by
      rw [CStringItem.maybeCreate, hisRaw, if_pos hraw, hw, ok_bind, hread, ok_bind, hsplit, ok_bind]
      rfl
    rw [CStringItem.maybeCreate] at hcreate
    have hsame : SameBody T.view ctx.view t.body (.cString string) := by
      rw [hstring]
      exact .cString string
    obtain ⟨hstage, hcarries, -⟩ := h.split_off hT (.refl ctx) h.charted hreached hit hpos hsame
      hsplit hctx' (CStringItem.maybeCreate_written h.written hreading hcreate)
    exact ⟨ctx', hcreate, hstage, hcarries⟩
  · obtain ⟨hzero, hsame⟩ := (h.read_at hT hsize ht hpositive hit hpos hin).resolve_left hraw
    refine ⟨ctx, ?_, h, .refl ctx⟩
    rw [hstring] at hsame
    have hbody : it.body = .cString string := by
      generalize it.body = b at hsame
      cases hsame
      rfl
    rw [hisRaw, if_neg hraw, get_of_find? (h.charted.consistent.find?_of_mem hmem), ok_bind]
    dsimp only
    rw [require_of hzero, ok_bind, hbody]
    rfl

end

/-! The calls. -/

/-- The call is about an item of the file. -/
def Visit.Proper (T ctx : Context) : Visit → Prop
  | .string l => ∃ t, Reached T t ∧ IsText t.body ∧ ctx.toFilePos l = .ok t.position
  | .code l | .checkedCode l => ∃ t, Reached T t ∧ IsCode t.body ∧ ctx.toFilePos l = .ok t.position
  | .next id => ∃ t, Reached T t ∧ IsCode t.body ∧ ∃ it ∈ ctx.children.nodes, it.id = id ∧
      it.body.isRaw = false ∧ it.position + it.body.ownSize = t.position

theorem Visit.Proper.mono {visit : Visit} (h : visit.Proper T ctx) (hcarries : ctx.Carries ctx') :
    visit.Proper T ctx' := by
  cases visit with
  | string l | code l | checkedCode l =>
      obtain ⟨t, ht, hkind, hpos⟩ := h
      exact ⟨t, ht, hkind, hcarries.toFilePos l _ hpos⟩
  | next id =>
      obtain ⟨t, ht, hcode, it, hit, hid, hraw, hat⟩ := h
      obtain ⟨it', hit', heq⟩ := hcarries.items it hit hraw
      refine ⟨t, ht, hcode, it', hit', (congrArg Item.id heq :).trans hid, ?_, ?_⟩
      · rw [body_of_plain heq]
        exact hraw
      · rw [body_of_plain heq, position_of_plain heq]
        exact hat

/-- The instruction leads to where the one in the file does. -/
theorem proper_visits (hT : Listing f T) {t : Item} (ht : Reached T t)
    {i : InstructionItem} (hi : t.body = .stscInstruction i) {i' : Instruction}
    (hsame : i.instruction.Same T.view ctx.view i') {n : Item} (hn : n ∈ ctx.children.nodes)
    (hpos : n.position = t.position) {opcode : UInt8}
    (hbody : n.body = .stscInstruction { opcode, instruction := i' }) :
    ∀ visit ∈ i'.visits n.id, visit.Proper T ctx := by
  intro visit hvisit
  have hplace {P : Body → Prop} {l l' : LabelPtr} (hleads : LeadsTo T P l)
      (hl : SamePlace T.view ctx.view l l') : ∃ u ∈ T.children.nodes, P u.body ∧
        T.toFilePos l = .ok u.position ∧ ctx.toFilePos l' = .ok u.position := by
    obtain ⟨_, hpos, u, hu, hkind, rfl⟩ := hleads
    obtain ⟨pos, hpos', hl'⟩ := hl
    obtain rfl : u.position = pos := Except.ok.inj (hpos.symm.trans hpos')
    exact ⟨u, hu, hkind, hpos, hl'⟩
  rcases Instruction.mem_visits hvisit with ⟨l', hl', rfl⟩ | ⟨l', hl', hvisit⟩ | ⟨hgoesOn, rfl⟩
  · obtain ⟨l, hl, hsame⟩ := exists_mem_of_forall₂ hsame.texts hl'
    obtain ⟨u, hu, htext, hat, hat'⟩ := hplace (hT.toTexts t ht.mem i hi l hl) hsame
    exact ⟨u, .text ht hi hl hu htext hat, htext, hat'⟩
  · obtain ⟨l, hl, hsame⟩ := exists_mem_of_forall₂ hsame.targets hl'
    obtain ⟨u, hu, hcode, hat, hat'⟩ := hplace (hT.toCode t ht.mem i hi l hl) hsame
    have hreached := Reached.code ht hi hl hu hcode hat
    rcases hvisit with rfl | rfl
    · exact ⟨u, hreached, hcode, hat'⟩
    · exact ⟨u, hreached, hcode, hat'⟩
  · rw [hsame.goesOn] at hgoesOn
    obtain ⟨u, hu, hcode, hat⟩ := hT.goesOn t ht.mem i hi hgoesOn
    refine ⟨u, .next ht hi hgoesOn hu hcode hat.symm, hcode, n, hn, rfl, by rw [hbody]; rfl, ?_⟩
    have hsize : n.body.ownSize = t.body.ownSize := by
      rw [hbody, hi]
      exact hsame.getSize
    rw [hpos, hsize, hat]

/-- Some instruction that is reached has a default case. -/
def HasDefault (T : Context) : Prop :=
  ∃ t, Reached T t ∧ ∃ i : InstructionItem, t.body = .stscInstruction i ∧
    i.instruction.hasDefault = true

/-- What is made of a call: it goes well, or a default case has not enough bytes behind it. -/
def Rereads (T : Context) (src : Source) (ctx : Context)
    (x : Except Error (Context × List Visit)) : Prop :=
  (∃ ctx' vs, x = .ok (ctx', vs) ∧ Stage T src ctx' ∧ ctx.Carries ctx' ∧
    ∀ visit ∈ vs, visit.Proper T ctx') ∨
  HasDefault T ∧ x = .error InstructionJumpSwitchItem.noRoom

theorem Rereads.same (h : Stage T src ctx) : Rereads T src ctx (.ok (ctx, [])) :=
  .inl ⟨ctx, [], rfl, h, .refl ctx, List.forall_mem_nil _⟩

section

variable (hT : Listing f T) {events : List Event} (hdump : T.dump = .ok events)
  (hsrc : src.bytes = Sink.bytesOf (callsOf events))

include hT hdump hsrc

theorem Stage.rereads_createAndInsert (h : Stage T src ctx) (hreading : Reading ctx) {t : Item}
    (ht : Reached T t) (hcode : IsCode t.body) {it : Item}
    (hit : it ∈ ctx.children.nodes) (hraw : it.body.isRaw = true) {offset : Nat}
    (hpos : it.position + offset = t.position)
    (hin : 0 < it.body.ownSize → offset < it.body.ownSize) :
    Rereads T src ctx (InstructionItem.createAndInsert f ctx { item := it.id, offset }) := by
  obtain ⟨i, hi⟩ := hcode
  obtain ⟨part, hbody⟩ := Body.isRaw_eq_true.mp hraw
  have hlt : offset < part.size := by
    rw [hbody] at hin
    exact hin (h.sized it hit part hbody)
  rcases h.createAndInsert hT hdump hsrc hreading ht hi hit hbody hpos hlt with
    ⟨ctx', i', hcreate, hstage, hcarries, hsame, n, hn, hid, hat, hnbody⟩ | ⟨hdefault, herror⟩
  · refine .inl ⟨ctx', _, hcreate, hstage, hcarries, ?_⟩
    rw [← hid]
    exact proper_visits hT ht hi hsame hn hat hnbody
  · exact .inr ⟨⟨t, ht, i, hi, hdefault⟩, herror⟩

theorem Stage.rereads_make (h : Stage T src ctx) (hreading : Reading ctx) {visit : Visit}
    (hready : visit.Ready ctx) (hproper : visit.Proper T ctx) :
    Rereads T src ctx (visit.make f ctx) := by
  have hctx := h.charted.consistent
  have hsize := size_of_dump hT hdump hsrc
  cases visit with
  | string l =>
      obtain ⟨t, ht, ⟨string, hstring⟩, hpos⟩ := hproper
      obtain ⟨it, hit, offset, hl, hplace, hin⟩ := h.charted.at_of_toFilePos hpos
      obtain ⟨ctx', hcreate, hstage, hcarries⟩ :=
        h.maybeCreate hT hdump hsrc hreading ht hstring hit hplace hin
      refine .inl ⟨ctx', [], ?_, hstage, hcarries, List.forall_mem_nil _⟩
      rw [Visit.make, getPtr_eq_ok.mpr hl, ok_bind, hcreate]
      rfl
  | code l =>
      obtain ⟨t, ht, hcode, hpos⟩ := hproper
      obtain ⟨it, hit, offset, hl, hplace, hin⟩ := h.charted.at_of_toFilePos hpos
      rw [Visit.make, getPtr_eq_ok.mpr hl, ok_bind, InstructionItem.maybeCreateUnchecked,
        isRaw_of_mem hctx hit]
      split
      · rename_i hraw
        exact h.rereads_createAndInsert hT hdump hsrc hreading ht hcode hit hraw hplace hin
      · exact .same h
  | checkedCode l =>
      obtain ⟨t, ht, hcode, hpos⟩ := hproper
      obtain ⟨it, hit, offset, hl, hplace, hin⟩ := h.charted.at_of_toFilePos hpos
      rw [Visit.make, getPtr_eq_ok.mpr hl, ok_bind, InstructionItem.maybeCreate,
        isRaw_of_mem hctx hit]
      split
      · rename_i hraw
        exact h.rereads_createAndInsert hT hdump hsrc hreading ht hcode hit hraw hplace hin
      · rename_i hraw
        have hpositive := (ownSize_pos_of_isCode hcode).1
        obtain ⟨hzero, hsame⟩ :=
          (h.read_at hT hsize ht.mem hpositive hit hplace hin).resolve_left hraw
        obtain ⟨children, hmem⟩ := Forest.mem_nodes.mp hit
        obtain ⟨i, hi⟩ := hsame.isCode hcode
        rw [get_of_find? (hctx.find?_of_mem hmem), ok_bind]
        dsimp only
        rw [require_of hzero, ok_bind, hi]
        exact .same h
  | next id =>
      obtain ⟨t, ht, hcode, it, hit, rfl, hraw, hat⟩ := hproper
      obtain ⟨x, hnext⟩ := Option.ne_none_iff_exists'.mp (hready.2 it.id rfl).next
      have hflat := hctx.childless_of_flat h.charted.flat
      obtain ⟨a, ha, hid, hplace⟩ := Forest.Laid.next? h.written.laid hflat hnext
      obtain rfl := hctx.eq_of_id ha hit (of_decide_eq_true hid)
      have hx := Forest.mem_nodes.mpr ⟨x.2, Forest.mem_of_next? hnext⟩
      have hpointer : nextPointer ctx a.id = .ok { item := x.1.id, offset := 0 } := by
        rw [nextPointer, hnext]
        rfl
      rw [Visit.make, hpointer, ok_bind, InstructionItem.maybeCreateUnchecked,
        isRaw_of_mem hctx hx]
      split
      · rename_i hxraw
        exact h.rereads_createAndInsert hT hdump hsrc hreading ht hcode hx hxraw
          (by omega) fun hpositive => hpositive
      · exact .same h

end

end Stsc

end Neptools

import Neptools.Stsc.Reread

/-!
What is read of a file that was written: the header, what it leads to, and nothing else.
-/

namespace Neptools

open Lib

namespace Stsc

open Context

variable {f : Flavor} {T ctx ctx' : Context} {src : Source}

/-- The item is read. -/
def Found (T ctx : Context) (t : Item) : Prop :=
  ∃ it ∈ ctx.children.nodes, it.position = t.position ∧ SameBody T.view ctx.view t.body it.body

theorem Found.mono {t : Item} (h : Found T ctx t) (hcarries : ctx.Carries ctx') :
    Found T ctx' t := by
  obtain ⟨it, hit, hpos, hsame⟩ := h
  obtain ⟨it', hit', heq⟩ := hcarries.items it hit hsame.isRaw.2
  refine ⟨it', hit', (position_of_plain heq).trans hpos, ?_⟩
  rw [body_of_plain heq]
  exact hsame.mono hcarries.toFilePos

/-- The header and the first instruction are read. -/
def Opened (T ctx : Context) : Prop :=
  ∀ t ∈ T.children.nodes, t.position = 0 → ∀ hdr, t.body = .stscHeader hdr → Found T ctx t ∧
    ∀ u ∈ T.children.nodes, IsCode u.body → T.toFilePos hdr.entryPoint = .ok u.position →
      Found T ctx u

theorem Opened.mono (h : Opened T ctx) (hcarries : ctx.Carries ctx') : Opened T ctx' := by
  intro t ht hpos hdr hbody
  obtain ⟨hheader, hentry⟩ := h t ht hpos hdr hbody
  exact ⟨hheader.mono hcarries, fun u hu hcode hat => (hentry u hu hcode hat).mono hcarries⟩

theorem opened_of_found (hT : Listing f T) {t u : Item} {hdr : HeaderItem}
    (ht : t ∈ T.children.nodes) (hpos : t.position = 0) (hbody : t.body = .stscHeader hdr)
    (hu : u ∈ T.children.nodes) (hcode : IsCode u.body)
    (hentry : T.toFilePos hdr.entryPoint = .ok u.position) (hheader : Found T ctx t)
    (hfirst : Found T ctx u) : Opened T ctx := by
  intro t' ht' hpos' hdr' hbody'
  have hpositive : 0 < t'.body.ownSize := by
    rw [hbody']
    exact hdr'.getSize_pos
  obtain rfl := hT.eq_of_byte ht ht' hpositive (by omega)
    (by rw [hbody, hpos', hpos, Nat.zero_add]; exact hdr.getSize_pos)
  cases hbody.symm.trans hbody'
  refine ⟨hheader, fun u' hu' hcode' hentry' => ?_⟩
  have hat : u.position = u'.position := Except.ok.inj (hentry.symm.trans hentry')
  have hsize := (ownSize_pos_of_isCode hcode).1
  obtain rfl := hT.eq_of_byte hu hu' (ownSize_pos_of_isCode hcode').1 (by omega) (by omega)
  exact hfirst

/-! The start. -/

theorem stage_root (hT : Listing f T) (hsize : T.getSize = src.size) (hne : src.size ≠ 0)
    (h : (Context.root src).splitCreate 0 src.size .eof = .ok ctx) : Stage T src ctx := by
  refine ⟨File.underway_root hne h, fun it hit => ?_, fun it hit part hbody t ht hraw _ => ?_⟩
  · rcases root_split_nodes h it hit with heof | ⟨-, part, hpart, -⟩
    · exact .inr (.inl heof)
    · exact .inl (by rw [hpart]; rfl)
  · rcases root_split_nodes h it hit with ⟨heof, -⟩ | ⟨hpos, part', hpart, hsame⟩
    · rw [heof] at hbody
      cases hbody
    · cases hpart.symm.trans hbody
      have := hT.le_getSize ht
      omega

section

variable (hT : Listing f T) {events : List Event} (hdump : T.dump = .ok events)
  (hsrc : src.bytes = Sink.bytesOf (callsOf events))

include hT hdump hsrc

/-- The header is read where it stands. -/
theorem Stage.insert_header (h : Stage T src ctx) (hreading : Reading ctx) {t u : Item}
    (ht : t ∈ T.children.nodes) (hpos : t.position = 0) {hdr : HeaderItem}
    (hbody : t.body = .stscHeader hdr) (hu : u ∈ T.children.nodes) (hcode : IsCode u.body)
    (hentry : T.toFilePos hdr.entryPoint = .ok u.position) (hlt : u.position + 1 < T.getSize)
    {it : Item} (hit : it ∈ ctx.children.nodes) (hat : it.position = 0) {part : Source}
    (hpart : it.body = .raw part) (hwhole : part.size = src.size) :
    ∃ ctx' hdr', HeaderItem.insert ctx { item := it.id, offset := 0 } = .ok (ctx', hdr') ∧
      Stage T src ctx' ∧ Found T ctx' t ∧ ctx'.toFilePos hdr'.entryPoint = .ok u.position ∧
        ∀ n ∈ ctx'.children.nodes, IsCode n.body → ∃ n' ∈ ctx.children.nodes, IsCode n'.body := by
  have hsize := size_of_dump hT hdump hsrc
  have hsized := h.getSize
  have hown : t.body.ownSize = hdr.getSize := by
    rw [hbody]
    rfl
  have hpositive : 0 < t.body.ownSize := hown ▸ hdr.getSize_pos
  have hbehind : hdr.getSize ≤ u.position := by
    rcases hT.apart ht hu with rfl | hbefore | hafter
    · obtain ⟨i, hi⟩ := hcode
      cases hbody.symm.trans hi
    · omega
    · have := (ownSize_pos_of_isCode hcode).1
      omega
  obtain ⟨hle, hbodyOf, calls, w, hcalls, hw, hget, hstand⟩ := h.getSource hT hdump hsrc ht hpositive
    (by rw [hbody]; rfl) hit hpart (show it.position + 0 = t.position by omega) (by omega)
  rw [hbody] at hcalls
  obtain ⟨part', hbodyOf', hrest, hsame⟩ := getSource_spec hw
  cases hbodyOf.symm.trans hbodyOf'
  have hsizes : w.size = src.size := by
    rw [← hwhole, ← hrest]
    exact (Nat.zero_add _).symm
  obtain ⟨ctx₁, hdr', hparse, hrelabels, h₁, hheader⟩ := HeaderItem.parse_of_dump h.charted hcalls
    hstand (by have := hT.small; omega) (hsized.trans hsizes.symm) hentry hbehind (by omega)
  rw [← hsame] at hparse
  rw [← hrelabels.bodyOf] at hbodyOf
  have hbodies : SameBody T.view ctx₁.view t.body (.stscHeader hdr') := by
    rw [hbody]
    exact .stscHeader hheader
  have hroom : 0 + Body.ownSize (.stscHeader hdr') ≤ part.size := by
    rw [hbodies.ownSize]
    exact hle
  obtain ⟨ctx', hsplit, hctx'⟩ := h₁.splitCreate hbodyOf hroom hdr'.getSize_pos rfl
  have hinsert : HeaderItem.insert ctx { item := it.id, offset := 0 } = .ok (ctx', hdr') := by
    rw [HeaderItem.insert, hw, ok_bind, hparse, ok_bind]
    exact bind_eq_ok.mpr ⟨ctx', hsplit, rfl⟩
  have hview := h₁.consistent.splitCreate_toFilePos hsplit
  obtain ⟨hstage, -, n, hn, -, hnpos, hnbody⟩ := h.split_off hT hrelabels h₁
    (.header ht hpos hbody) hit (by omega) hbodies hsplit hctx'
    (HeaderItem.insert_written h.written hreading hinsert)
  refine ⟨ctx', hdr', hinsert, hstage, ⟨n, hn, hnpos, hnbody ▸ hbodies.mono hview⟩, ?_, ?_⟩
  · obtain ⟨pos, hpos, hpos'⟩ := hheader.entryPoint
    obtain rfl : u.position = pos := Except.ok.inj (hentry.symm.trans hpos)
    exact hview _ _ hpos'
  · rintro n hn ⟨i, hi⟩
    rcases h₁.consistent.mem_splitCreate hsplit hn (by rw [hi]; rfl) with hold | ⟨-, hnew⟩
    · obtain ⟨n', hn', heq⟩ := exists_of_plain hrelabels.plain.symm hold
      exact ⟨n', hn', i, (body_of_plain heq).trans hi⟩
    · cases hi.symm.trans hnew

namespace File

theorem start_rereads :
    (∃ w, start f src = .ok w ∧ Stage T src w.state ∧ Opened T w.state ∧
      ∀ visit ∈ w.todo, visit.Proper T w.state) ∨
    HasDefault T ∧ start f src = .error InstructionJumpSwitchItem.noRoom := by
  have hsize := size_of_dump hT hdump hsrc
  obtain ⟨t, ht, hpos, hdr, hbody, _, hentry, ⟨u, hu, hcode, rfl⟩, hlt⟩ := hT.header
  have hne : src.size ≠ 0 := by omega
  obtain ⟨ctx, hsplit⟩ := exists_root_split src
  have hstage := stage_root hT hsize hne hsplit
  obtain ⟨it, hit, hid, hat, part, hpart, hwhole⟩ := exists_root_item hne hsplit
  have hreading := reading_root hsplit
  obtain ⟨ctx₁, hdr', hinsert, h₁, hheader, hentry', hold⟩ := hstage.insert_header hT hdump hsrc
    hreading ht hpos hbody hu hcode hentry hlt hit hat hpart hwhole
  have hreading₁ := (HeaderItem.insert_reading hreading hinsert).1
  obtain ⟨n, hn, offset, hl, hplace, hin⟩ := h₁.charted.at_of_toFilePos hentry'
  have hpositive := (ownSize_pos_of_isCode hcode).1
  have hraw : n.body.isRaw = true := by
    refine (h₁.read_at hT hsize hu hpositive hn hplace hin).resolve_right ?_
    rintro ⟨-, hsame⟩
    obtain ⟨n', hn', i, hi⟩ := hold n hn (hsame.isCode hcode)
    rcases (Stcm.File.root_split hsplit).2 n' hn' with heof | ⟨part', hraw, -⟩
    · cases hi.symm.trans heof
    · cases hi.symm.trans hraw
  obtain ⟨raw, hnraw⟩ := Body.isRaw_eq_true.mp hraw
  obtain ⟨i, hi⟩ := hcode
  have hstart : start f src =
      InstructionItem.createAndInsert f ctx₁ { item := n.id, offset } >>= fun x =>
        .ok { state := x.1, todo := x.2 } := by
    rw [hid] at hinsert
    rw [start, hsplit, ok_bind, if_neg hne, HeaderItem.createAndInsert, hinsert, ok_bind]
    dsimp only
    rw [getPtr_eq_ok.mpr hl, ok_bind]
    rfl
  rw [hnraw] at hin
  rcases h₁.createAndInsert hT hdump hsrc hreading₁ (.entry ht hpos hbody hu ⟨i, hi⟩ hentry) hi hn
    hnraw hplace (hin (h₁.sized n hn raw hnraw)) with
    ⟨ctx', i', hcreate, hstage', hcarries, hsame, n', hn', hid, hpos', hbody'⟩ | ⟨hdefault, herror⟩
  · refine .inl ⟨_, by rw [hstart, hcreate, ok_bind], hstage', ?_, ?_⟩
    · refine opened_of_found hT ht hpos hbody hu ⟨i, hi⟩ hentry (hheader.mono hcarries)
        ⟨n', hn', hpos', ?_⟩
      rw [hi, hbody']
      exact .stscInstruction i.opcode hsame
    · rw [← hid]
      exact proper_visits hT (.entry ht hpos hbody hu ⟨i, hi⟩ hentry) hi hsame hn' hpos' hbody'
  · refine .inr ⟨⟨u, .entry ht hpos hbody hu ⟨i, hi⟩ hentry, i, hi, hdefault⟩, ?_⟩
    rw [hstart, herror]
    rfl

end File

end

/-! The end. -/

theorem Instruction.string_mem_visits {i : Instruction} {l : LabelPtr} (h : l ∈ i.texts) (id : Nat) :
    .string l ∈ i.visits id := by
  cases i with
  | simple noReturn args =>
      obtain ⟨a, ha, htext⟩ := List.mem_filterMap.mp h
      refine List.mem_append_left _ (List.mem_flatMap.mpr ⟨a, ha, ?_⟩)
      cases a with
      | string label =>
          obtain rfl : label = some l := htext
          exact List.mem_cons_self
      | uint8 _ | uint16 _ | uint32 _ | float _ | code _ | data _ => cases htext
  | rndJump _ | jumpIf _ _ | jumpSwitchNoire _ | jumpSwitchPotbb _ _ => cases h

section

variable (hT : Listing f T) (hsize : T.getSize = src.size)

include hT hsize

/-- What a label leads to is read, if it is not raw. -/
theorem Stage.found (h : Stage T src ctx) {u : Item} (hu : u ∈ T.children.nodes)
    (hpositive : 0 < u.body.ownSize) {l : LabelPtr} (hl : ctx.toFilePos l = .ok u.position)
    (hparsed : ctx.LabelParsed l) : Found T ctx u := by
  obtain ⟨it, hit, offset, hlookup, hplace, hin⟩ := h.charted.at_of_toFilePos hl
  obtain ⟨ptr, hptr, it', hit', hid, hraw⟩ := hparsed
  cases hlookup.symm.trans hptr
  obtain rfl := h.charted.consistent.eq_of_id hit' hit hid
  rcases h.read_at hT hsize hu hpositive hit' hplace hin with hraw' | ⟨rfl, hsame⟩
  · cases hraw.symm.trans hraw'
  · exact ⟨it', hit', hplace, hsame⟩

/-- All that the header leads to is read once the calls are made. -/
theorem Stage.found_of_reached (h : Stage T src ctx) (hopened : Opened T ctx)
    (hsettled : ∀ visit : Visit, visit.Owed ctx → visit.Settled ctx) {t : Item}
    (ht : Reached T t) : Found T ctx t := by
  have hflow := flowRead_of_settled hsettled
  have hinstruction {t : Item} {i : InstructionItem} (hfound : Found T ctx t)
      (hbody : t.body = .stscInstruction i) : ∃ it ∈ ctx.children.nodes, it.position = t.position ∧
        ∃ i', it.body = .stscInstruction { opcode := i.opcode, instruction := i' } ∧
          i.instruction.Same T.view ctx.view i' := by
    obtain ⟨it, hit, hpos, hsame⟩ := hfound
    rw [hbody] at hsame
    generalize hit' : it.body = b at hsame
    cases hsame with
    | stscInstruction opcode hsame => exact ⟨it, hit, hpos, _, hit', hsame⟩
  have hplace {l l' : LabelPtr} {pos : Nat} (hl : T.toFilePos l = .ok pos)
      (hsame : SamePlace T.view ctx.view l l') : ctx.toFilePos l' = .ok pos := by
    obtain ⟨pos', hpos, hl'⟩ := hsame
    obtain rfl : pos = pos' := Except.ok.inj (hl.symm.trans hpos)
    exact hl'
  induction ht with
  | header ht hpos hbody => exact (hopened _ ht hpos _ hbody).1
  | entry ht hpos hbody hu hcode hentry => exact (hopened _ ht hpos _ hbody).2 _ hu hcode hentry
  | text ht hbody hl hu htext hpos ih =>
      obtain ⟨it, hit, -, i', hbody', hsame⟩ := hinstruction ih hbody
      obtain ⟨l', hl', hplaced⟩ := exists_mem_of_forall₂ hsame.texts.flip hl
      have howed : Visit.Owed ctx (.string l') :=
        ⟨it, hit, _, hbody', Instruction.string_mem_visits hl' it.id⟩
      exact h.found hT hsize hu (ownSize_pos_of_isText htext).1 (hplace hpos hplaced)
        (hsettled _ howed)
  | code ht hbody hl hu hcode hpos ih =>
      obtain ⟨it, hit, -, i', hbody', hsame⟩ := hinstruction ih hbody
      obtain ⟨l', hl', hplaced⟩ := exists_mem_of_forall₂ hsame.targets.flip hl
      exact h.found hT hsize hu (ownSize_pos_of_isCode hcode).1 (hplace hpos hplaced)
        ((hflow it hit _ hbody').1 l' hl')
  | @next t u i ht hbody hgoesOn hu hcode hpos ih =>
      obtain ⟨it, hit, hat, i', hbody', hsame⟩ := hinstruction ih hbody
      obtain ⟨n, hnext, hraw⟩ := (hflow it hit _ hbody').2 (hsame.goesOn.trans hgoesOn)
      have hflat := h.charted.consistent.childless_of_flat h.charted.flat
      obtain ⟨a, ha, hid, hplaced⟩ := Forest.Laid.next? h.written.laid hflat hnext
      obtain rfl := h.charted.consistent.eq_of_id ha hit (of_decide_eq_true hid)
      have hn := Forest.mem_nodes.mpr ⟨n.2, Forest.mem_of_next? hnext⟩
      have hown : a.body.ownSize = t.body.ownSize := by
        rw [hbody, hbody']
        exact hsame.getSize
      have hstart : n.1.position + 0 = u.position := by omega
      rcases h.read_at hT hsize hu (ownSize_pos_of_isCode hcode).1 hn hstart
        fun hpositive => hpositive with hraw' | ⟨-, hsame'⟩
      · cases hraw.symm.trans hraw'
      · exact ⟨n.1, hn, hstart, hsame'⟩

end

/-- The file is read as what it was written from: the items follow one another, what is not
raw is what the header leads to, and the other bytes are raw. -/
structure ReadAs (T : Context) (src : Source) (ctx : Context) : Prop where
  laid : ctx.children.Laid 0
  flat : ∀ x ∈ ctx.children.subtrees, x.2 = .nil
  size : ctx.getSize = src.size
  found : ∀ t, Reached T t → Found T ctx t
  only : ∀ it ∈ ctx.children.nodes, it.body.isRaw = true ∨ it.body = .eof ∨
    ∃ t, Reached T t ∧ t.position = it.position ∧ SameBody T.view ctx.view t.body it.body
  raw : ∀ it ∈ ctx.children.nodes, ∀ part, it.body = .raw part →
    StandsAt part.bytes it.position src.bytes

theorem Stage.readAs (h : Stage T src ctx) (hfound : ∀ t, Reached T t → Found T ctx t) :
    ReadAs T src ctx where
  laid := h.written.laid
  flat := h.charted.consistent.childless_of_flat h.charted.flat
  size := h.getSize
  found := hfound
  only it hit := (h.read it hit).imp_right fun hread => hread.imp_left And.left
  raw it hit part hbody := by
    have hwritten := h.written.items it hit trivial
    rw [hbody, eq_true (kept_of_isRaw (by rw [hbody]; rfl))] at hwritten
    exact hwritten.standsAt

/-- What is written of items that lead to one another is read as these items again, or
refused for a default case with not enough bytes behind it. -/
theorem File.parse_readAs (hT : Listing f T) {events : List Event} (hdump : T.dump = .ok events)
    (hsrc : src.bytes = Sink.bytesOf (callsOf events)) :
    (∃ ctx, (∀ n, src.size ≤ n → parse f src n = .ok { state := ctx, todo := [] }) ∧
      ReadAs T src ctx) ∨
    HasDefault T ∧
      ∀ n, src.size ≤ n → parse f src n = .error InstructionJumpSwitchItem.noRoom := by
  rcases start_rereads hT hdump hsrc with ⟨w, hstart, hstage, hopened, hproper⟩ |
    ⟨hdefault, herror⟩
  · obtain ⟨htrack, hroom⟩ := start_onTrack hstart
    let g := goals.requiring (fun s => Stage T src s ∧ Opened T s) fun s visit => visit.Proper T s
    have hperform : ∀ s t s' tasks, g.Good s → g.Ready s t →
        Visit.make f s t = .ok (s', tasks) → g.Performed s t s' tasks := by
      intro s t s' tasks hgood hready hmake
      have hreading : Reading s := hgood.1
      have hperformed := Visit.make_performed hreading hready.1 hmake
      rcases hgood.2.1.rereads_make hT hdump hsrc hreading hready.1 hready.2 with
        ⟨ctx', vs, heq, hstage', hcarries, hproper'⟩ | ⟨-, herror⟩
      · cases hmake.symm.trans heq
        exact hperformed.requiring ⟨hstage', hgood.2.2.mono hcarries⟩ hproper'
          fun visit hvisit => hvisit.mono hcarries
      · cases hmake.symm.trans herror
    have hfails : ∀ s t e, g.Good s → g.Ready s t → Visit.make f s t = .error e →
        HasDefault T ∧ e = InstructionJumpSwitchItem.noRoom := by
      intro s t e hgood hready hmake
      rcases hgood.2.1.rereads_make hT hdump hsrc hgood.1 hready.1 hready.2 with
        ⟨ctx', vs, heq, -⟩ | ⟨hdefault, herror⟩
      · cases hmake.symm.trans heq
      · exact ⟨hdefault, Except.error.inj (hmake.symm.trans herror)⟩
    have htrack' : g.OnTrack w := htrack.requiring ⟨hstage, hopened⟩ hproper
    cases hsteps : w.steps (Visit.make f) src.size with
    | ok w' =>
        obtain ⟨-, hgood, hsettled⟩ := htrack'.steps hperform hroom hsteps
        refine .inl ⟨w'.state, fun n hn => by rw [parse_of_le hstart hn, hsteps]; rfl, ?_⟩
        exact hgood.2.1.readAs fun t ht =>
          hgood.2.1.found_of_reached hT (size_of_dump hT hdump hsrc) hgood.2.2 hsettled ht
    | error e =>
        obtain ⟨hdefault, rfl⟩ := htrack'.steps_error hperform hfails hsteps
        exact .inr ⟨hdefault, fun n hn => by rw [parse_of_le hstart hn, hsteps]; rfl⟩
  · exact .inr ⟨hdefault, fun n _ => by rw [parse, herror]; rfl⟩

namespace File

/-- A text is shown, and that is all. -/
def shownText : Context where
  children :=
    .cons ⟨0, 0, [], .stscHeader ⟨[1], none, none, none⟩⟩ .nil <|
    .cons ⟨1, 12, [[1]], .stscInstruction ⟨0x0e, .simple false [.string (some [2])]⟩⟩ .nil <|
    .cons ⟨2, 17, [], .stscInstruction ⟨0x01, .simple true []⟩⟩ .nil <|
    .cons ⟨3, 18, [[2]], .cString [0x61]⟩ .nil .nil
  labels := (AList.insert [1] (some ⟨1, 0⟩) ∅).insert [2] (some ⟨3, 0⟩)
  pmap := ∅
  nextId := 4

theorem shownText_nodes : shownText.children.nodes =
    [⟨0, 0, [], .stscHeader ⟨[1], none, none, none⟩⟩,
      ⟨1, 12, [[1]], .stscInstruction ⟨0x0e, .simple false [.string (some [2])]⟩⟩,
      ⟨2, 17, [], .stscInstruction ⟨0x01, .simple true []⟩⟩, ⟨3, 18, [[2]], .cString [0x61]⟩] := rfl

theorem listing_shownText : Listing .noire shownText where
  laid := ⟨rfl, trivial, rfl, trivial, rfl, trivial, rfl, trivial, trivial⟩
  flat := by simp [shownText, Forest.subtrees]
  small := by
    change 20 < 2 ^ 32
    simp
  kinds := by simp [shownText_nodes, OfStsc]
  texts := by simp [shownText_nodes]
  readable := by
    have hpos : shownText.view.toFilePos [2] = .ok 18 := rfl
    have hsize : shownText.getSize = 20 := rfl
    have hshown : instructionMap .noire 0x0e = .simple false [.string] := rfl
    have hend : instructionMap .noire 0x01 = .simple true [] := rfl
    simp [shownText_nodes, Instruction.Readable, hshown, hend, Arg.type, Arg.Readable, hpos, hsize]
  toTexts := by
    have hpos : shownText.toFilePos [2] = .ok 18 := rfl
    simp [shownText_nodes, Instruction.texts, Arg.text?, LeadsTo, hpos, ItemAt, IsText]
  toCode := by
    simp [shownText_nodes, Instruction.targets, Arg.code?]
  goesOn := by
    have hcode : ItemAt shownText IsCode 17 := by simp [ItemAt, IsCode, shownText_nodes]
    simp only [shownText_nodes, List.forall_mem_cons]
    refine ⟨fun i hi => ?_, fun i hi _ => ?_, fun i hi hgoesOn => ?_, fun i hi => ?_,
      List.forall_mem_nil _⟩
    · cases hi
    · exact hcode
    · cases hi
      cases hgoesOn
    · cases hi
  header := by
    have hpos : shownText.toFilePos [1] = .ok 12 := rfl
    have hsize : shownText.getSize = 20 := rfl
    simp [Headed, shownText_nodes, hpos, ItemAt, IsCode, hsize]

/-- The text is shown again. -/
theorem shownText_parse_readAs : ∃ ctx, ∃ src : Source, src.size = 20 ∧
    parse .noire src 20 = .ok { state := ctx, todo := [] } ∧ ReadAs shownText src ctx := by
  obtain ⟨events, hdump⟩ : ∃ events, shownText.dump = .ok events := ⟨_, rfl⟩
  have hlisting := listing_shownText
  have hbytes : (Source.fromMemory (Sink.bytesOf (callsOf events))).bytes =
    Sink.bytesOf (callsOf events) := Source.bytes_fromMemory _
  have hsize := size_of_dump hlisting hdump hbytes
  rcases parse_readAs hlisting hdump hbytes with ⟨ctx, hparse, hread⟩ | ⟨hdefault, -⟩
  · exact ⟨ctx, _, hsize.symm, hparse 20 (Nat.le_of_eq hsize.symm), hread⟩
  · obtain ⟨t, ht, i, hi, hdefault⟩ := hdefault
    have hmem := ht.mem
    rw [shownText_nodes] at hmem
    simp only [List.mem_cons, List.not_mem_nil, or_false] at hmem
    rcases hmem with rfl | rfl | rfl | rfl <;> cases hi <;> cases hdefault

end File

end Stsc

end Neptools

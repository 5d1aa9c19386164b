import Neptools.Stsc.Edited
import Neptools.Stsc.Txt

/-!
The texts of a file are changed, and the file is written and read again.
-/

namespace Neptools

open Lib

/-! The lines of a text. -/

theorem not_mem_getLines {a c : UInt8} (hne : c ≠ a) {xs : Bytes} (h : c ∉ xs) :
    ∀ l ∈ getLines a xs, c ∉ l := by
  have hlines : ∀ l ∈ xs.splitOn a, c ∉ l := by
    intro l hl hc
    have hmem : c ∈ (xs.splitOn a).flatMap (· ++ [a]) :=
      List.mem_flatMap.mpr ⟨l, hl, List.mem_append_left _ hc⟩
    rw [flatMap_splitOn, List.mem_append, List.mem_singleton] at hmem
    exact hmem.elim h hne
  intro l hl
  rw [getLines] at hl
  split at hl
  · exact hlines l (List.mem_of_mem_dropLast hl)
  · exact hlines l hl

theorem not_mem_popCr {c : UInt8} {line : Bytes} (h : c ∉ line) : c ∉ popCr line := by
  rw [popCr]
  split
  · exact fun hc => h (List.mem_of_mem_dropLast hc)
  · exact h

namespace Stsc

open Context

variable {f : Flavor} {ctx edited T ctx' : Context} {src : Source}

theorem strings_append (g k : ItemList) : strings (g ++ k) = strings g ++ strings k := by
  induction g with
  | nil => rfl
  | cons it children siblings _ ih =>
      rw [Forest.cons_append, strings, strings, Forest.roots, Forest.roots, List.filterMap_cons,
        List.filterMap_cons]
      cases asCString it with
      | none => exact ih
      | some string => exact congrArg (string :: ·) ih

namespace SameOthers

theorem trans {g k m : ItemList} (h : SameOthers g k) (h' : SameOthers k m) : SameOthers g m := by
  induction g generalizing k m with
  | nil =>
      cases k with
      | nil => exact h'
      | cons _ _ _ => exact h.elim
  | cons it children siblings _ ih =>
      cases k with
      | nil => exact h.elim
      | cons it₁ children₁ siblings₁ =>
          cases m with
          | nil => exact h'.elim
          | cons it₂ children₂ siblings₂ =>
              obtain ⟨hit, rfl, hrest⟩ := h
              obtain ⟨hit', rfl, hrest'⟩ := h'
              refine ⟨?_, rfl, ih hrest hrest'⟩
              rcases hit with rfl | ⟨s, t, hs, rfl⟩
              · exact hit'
              · rcases hit' with rfl | ⟨s', t', -, rfl⟩
                · exact .inr ⟨s, t, hs, rfl⟩
                · exact .inr ⟨s, t', hs, rfl⟩

theorem append {g k : ItemList} (b : ItemList) (h : SameOthers g k) :
    SameOthers (b ++ g) (b ++ k) := by
  induction b with
  | nil => exact h
  | cons it children siblings _ ih => exact ⟨.inl rfl, rfl, ih⟩

end SameOthers

theorem nextString_spec (before g : ItemList) :
    (nextString before g).before ++ (nextString before g).rest = before ++ g ∧
      strings (nextString before g).before = strings before ∧ (nextString before g).msg = [] := by
  induction g generalizing before with
  | nil => exact ⟨rfl, rfl, rfl⟩
  | cons it children siblings _ ih =>
      rw [nextString]
      cases hit : asCString it with
      | some string => exact ⟨rfl, rfl, rfl⟩
      | none =>
          obtain ⟨hall, hstrings, hmsg⟩ := ih (before ++ .single it children)
          refine ⟨?_, ?_, hmsg⟩
          · dsimp only
            rw [hall, Forest.append_assoc, Forest.single_append]
          · dsimp only
            rw [hstrings, strings_append, strings, strings, Forest.single, Forest.roots,
              Forest.roots, List.filterMap_cons, hit, List.filterMap_nil, List.append_nil]

/-- What was read of a text into the items `g`: only texts were changed, to what has no NUL. -/
structure Storing (g : ItemList) (st : TxtState) : Prop where
  same : SameOthers g (st.before ++ st.rest)
  texts : ∀ string ∈ strings st.before, 0 ∉ string
  msg : 0 ∉ st.msg

theorem storing_nextString {g before rest : ItemList} (hsame : SameOthers g (before ++ rest))
    (htexts : ∀ string ∈ strings before, 0 ∉ string) : Storing g (nextString before rest) := by
  obtain ⟨hall, hstrings, hmsg⟩ := nextString_spec before rest
  exact ⟨hall ▸ hsame, hstrings ▸ htexts, hmsg ▸ List.not_mem_nil⟩

theorem Storing.store {g : ItemList} {st st' : TxtState} (h : Storing g st)
    (hstore : st.store = .ok st') : Storing g st' := by
  obtain ⟨before, rest, msg⟩ := st
  rw [TxtState.store] at hstore
  cases rest with
  | nil => cases hstore
  | cons it children siblings =>
      obtain ⟨_, -, hstore⟩ := bind_eq_ok.mp hstore
      split at hstore
      · rename_i string hbody
        cases hstore
        refine storing_nextString (h.same.trans ?_) fun t ht => ?_
        · rw [Forest.append_assoc, Forest.single_append]
          exact .append before ⟨.inr ⟨string, _, hbody, rfl⟩, rfl, .refl siblings⟩
        · rw [strings_append, List.mem_append] at ht
          rcases ht with ht | ht
          · exact h.texts t ht
          · rw [List.mem_singleton.mp ht]
            exact fun hmem => h.msg (List.mem_of_mem_dropLast (List.mem_of_mem_dropLast hmem))
      · cases hstore

/-- What is read has only other texts, and no NUL in them. -/
theorem Storing.readLines {g children : ItemList} {st : TxtState} (h : Storing g st)
    {lines : List Bytes} (hlines : ∀ line ∈ lines, 0 ∉ line)
    (hread : readLines st lines = .ok children) :
    SameOthers g children ∧ ∀ string ∈ strings children, 0 ∉ string := by
  induction lines generalizing st with
  | nil =>
      rw [Stsc.readLines] at hread
      split at hread
      · rename_i hnil
        cases hread
        have hsame := h.same
        rw [hnil, Forest.append_nil] at hsame
        exact ⟨hsame, h.texts⟩
      · cases hread
  | cons line lines ih =>
      obtain ⟨hline, hlines⟩ := List.forall_mem_cons.mp hlines
      rw [Stsc.readLines] at hread
      split at hread
      · obtain ⟨st', hstore, hread⟩ := bind_eq_ok.mp hread
        exact ih (h.store hstore) hlines hread
      · have hmsg : 0 ∉ st.msg ++ popCr line ++ marker := by
          simp only [List.mem_append, not_or]
          exact ⟨⟨h.msg, not_mem_popCr hline⟩, by decide⟩
        have hnext : Storing g { st with msg := st.msg ++ popCr line ++ marker } :=
          ⟨h.same, h.texts, hmsg⟩
        exact ih hnext hlines hread

theorem sameOthers_of_readTxt {is : Bytes} (hread : readTxt ctx is = .ok edited) (hnul : 0 ∉ is) :
    edited = { ctx with children := edited.children } ∧
      SameOthers ctx.children edited.children ∧
        ∀ string ∈ strings edited.children, 0 ∉ string := by
  obtain ⟨children, hlines, heq⟩ := bind_eq_ok.mp hread
  cases heq
  have hstart : Storing ctx.children (nextString .nil ctx.children) :=
    storing_nextString (.refl _) (List.forall_mem_nil _)
  have hnul' : ∀ line ∈ getLines 0x0a is, 0 ∉ line := not_mem_getLines (by decide) hnul
  obtain ⟨hsame, htexts⟩ := hstart.readLines hnul' hlines
  exact ⟨rfl, hsame, htexts⟩

/-! The file with the new texts. -/

theorem asCString_of_body {it : Item} {string : Bytes} (h : it.body = .cString string) :
    asCString it = some string := by
  rw [asCString, h]

theorem strings_eq_nodes {g : ItemList} (hflat : ∀ x ∈ g.subtrees, x.2 = .nil) :
    strings g = g.nodes.filterMap asCString := by
  rw [strings, Forest.roots_eq_nodes hflat]

theorem SameOthers.fixup {g k : ItemList} (h : SameOthers g k)
    (hflat : ∀ x ∈ g.subtrees, x.2 = .nil) (hkinds : ∀ it ∈ g.nodes, OfStsc it.body) (pos : Nat) :
    g.nodes.Forall₂ Twin (k.fixup pos).nodes ∧ (∀ x ∈ (k.fixup pos).subtrees, x.2 = .nil) ∧
      strings (k.fixup pos) = strings k := by
  induction g generalizing k pos with
  | nil =>
      cases k with
      | nil => exact ⟨.nil, by simp [ItemList.fixup, Forest.subtrees], rfl⟩
      | cons _ _ _ => exact h.elim
  | cons it children siblings _ ih =>
      cases k with
      | nil => exact h.elim
      | cons it' children' siblings' =>
          obtain ⟨hit, rfl, hrest⟩ := h
          simp only [Forest.subtrees, List.mem_cons, forall_eq_or_imp] at hflat
          obtain ⟨rfl, hflat⟩ := hflat
          simp only [Forest.nodes, List.nil_append, List.mem_cons, forall_eq_or_imp] at hkinds
          obtain ⟨htwins, hflat', hstrings⟩ := ih hrest (by simpa [Forest.subtrees] using hflat)
            hkinds.2 (pos + Item.getSize { it' with position := pos, body := it'.body.fixup } .nil)
          have htwin : Twin it { it' with position := pos, body := it'.body.fixup } ∧
              it'.body.fixup = it'.body := by
            rcases hit with rfl | ⟨string, t, hstring, rfl⟩
            · exact ⟨⟨rfl, .inl (fixup_of_ofStsc hkinds.1)⟩, fixup_of_ofStsc hkinds.1⟩
            · exact ⟨⟨rfl, .inr ⟨⟨string, hstring⟩, t, rfl⟩⟩, rfl⟩
          refine ⟨.cons htwin.1 htwins, ?_, ?_⟩
          · simpa [ItemList.fixup, Forest.subtrees] using hflat'
          · have hsame : asCString { it' with position := pos, body := it'.body.fixup } =
                asCString it' := by
              rw [asCString, asCString, htwin.2]
            change List.filterMap asCString (_ :: _) = List.filterMap asCString (it' :: _)
            rw [List.filterMap_cons, List.filterMap_cons, hsame]
            cases asCString it' with
            | none => exact hstrings
            | some string => exact congrArg (string :: ·) hstrings

theorem edited_fixup (h : Known f src ctx) {is : Bytes} (hread : readTxt ctx is = .ok edited)
    (hnul : 0 ∉ is) :
    Edited ctx edited.fixup ∧ strings edited.fixup.children = strings edited.children := by
  obtain ⟨heq, hsame, htexts⟩ := sameOthers_of_readTxt hread hnul
  obtain ⟨htwins, hflat, hstrings⟩ := hsame.fixup h.flat (fun it hit => (h.kinds hit).1) 0
  refine ⟨⟨ItemList.laid_fixup 0 _, hflat, ?_, htwins, fun it hit string hstring => ?_⟩, hstrings⟩
  · rw [heq]
    rfl
  · refine htexts string ?_
    rw [← hstrings, strings_eq_nodes hflat]
    exact List.mem_filterMap.mpr ⟨it, hit, asCString_of_body hstring⟩

/-! What is written. -/

theorem exists_dump_items {v : LabelView} {g : ItemList}
    (h : ∀ it ∈ g.nodes, ∀ size, ∃ calls, it.body.dump v size = .ok calls) :
    ∃ events, g.dump v = .ok events := by
  induction g with
  | nil => exact ⟨_, rfl⟩
  | cons it children siblings ihc ihs =>
      simp only [Forest.nodes, List.mem_cons, List.mem_append, or_imp, forall_and,
        forall_eq] at h
      obtain ⟨calls, hcalls⟩ := h.1 (it.getSize children)
      obtain ⟨inner, hinner⟩ := ihc h.2.1
      obtain ⟨rest, hrest⟩ := ihs h.2.2
      exact ⟨_, by rw [ItemList.dump, hcalls, ok_bind, hinner, ok_bind, hrest, ok_bind]; rfl⟩

/-- There is one header, and it can be written as its label leads somewhere. -/
theorem exists_dump_edited (h : Known f src ctx) (hedited : Edited ctx T) (hT : Listing f T) :
    ∃ events, T.dump = .ok events := by
  refine exists_dump_items fun it' hit' size => ?_
  have hkind := hT.kinds it' hit'
  cases hbody : it'.body with
  | raw _ | eof | cString _ => exact ⟨_, rfl⟩
  | stscInstruction i =>
      obtain ⟨calls, hcalls⟩ := (hT.readable it' hit' i hbody).exists_dump
      have hcalls : i.instruction.dump T.view = .ok calls := hcalls
      exact ⟨_, by rw [Body.dump, InstructionItem.dump, hcalls, ok_bind]; rfl⟩
  | stscHeader hdr =>
      obtain ⟨it, hpair⟩ := hedited.exists_pair' hit'
      have hsame : it.body = .stscHeader hdr := by
        rcases (hpair.twin hedited).2 with hsame | ⟨-, string, hstring⟩
        · rw [← hsame, hbody]
        · cases hbody.symm.trans hstring
      have hfirst : it.position = 0 := by
        rcases h.reached it hpair.mem.1 with hraw | ⟨heof, -⟩ | hreached
        · rw [hsame] at hraw
          cases hraw
        · cases hsame.symm.trans heof
        · exact hreached.header_position hsame
      obtain ⟨t, ht, hpos, hdr', hbody', entry, hentry, -⟩ := hT.header
      have hpositive : 0 < it'.body.ownSize := by
        rw [hbody]
        exact hdr.getSize_pos
      have hfirst' := hedited.first h hpair hfirst
      obtain rfl := hT.eq_of_byte ht hit' hpositive (by omega)
        (by rw [hfirst', hpos, hbody', Nat.zero_add]; exact hdr'.getSize_pos)
      cases hbody.symm.trans hbody'
      have hentry : T.view.toFilePos hdr.entryPoint = .ok entry := hentry
      exact ⟨_, by rw [Body.dump, HeaderItem.dump, hentry, ok_bind]; rfl⟩
  | _ =>
      rw [hbody] at hkind
      exact hkind.elim

/-! What is read of it. -/

/-- What was read of the file is what the header of the edited one leads to. -/
theorem Edited.raw_or_reached (hedited : Edited ctx T) (h : Known f src ctx) {t : Item}
    (ht : t ∈ T.children.nodes) : t.body.isRaw = true ∨ t.body = .eof ∨ Reached T t := by
  obtain ⟨it, hpair⟩ := hedited.exists_pair' ht
  have hreached := h.reached it hpair.mem.1
  rcases (hpair.twin hedited).2 with hsame | ⟨⟨string, hstring⟩, -⟩
  · rw [hsame]
    exact hreached.imp_right fun hreached => hreached.imp And.left (hedited.reached h hpair)
  · rcases hreached with hraw | ⟨heof, -⟩ | hreached
    · rw [hstring] at hraw
      cases hraw
    · cases hstring.symm.trans heof
    · exact .inr (.inr (hedited.reached h hpair hreached))

/-- The texts are read again, in the same order. -/
theorem ReadAs.strings_eq (hread : ReadAs T src ctx') (hT : Listing f T)
    (hreached : ∀ t ∈ T.children.nodes, IsText t.body → Reached T t) :
    strings ctx'.children = strings T.children := by
  rw [strings_eq_nodes hread.flat, strings_eq_nodes hT.flat]
  refine (Forest.consecutive hread.laid hread.flat).filterMap_eq
    (Forest.consecutive hT.laid hT.flat) (fun it string hstring => ?_) fun pos string => ⟨?_, ?_⟩
  · exact (ownSize_pos_of_isText ⟨string, asCString_eq_some hstring⟩).1
  · rintro ⟨it, hit, rfl, hstring⟩
    have hbody := asCString_eq_some hstring
    rcases hread.only it hit with hraw | heof | ⟨t, ht, hpos, hsame⟩
    · rw [hbody] at hraw
      cases hraw
    · cases hbody.symm.trans heof
    · refine ⟨t, ht.mem, hpos, asCString_of_body ?_⟩
      rw [hbody] at hsame
      generalize t.body = b at hsame
      cases hsame
      rfl
  · rintro ⟨t, ht, rfl, hstring⟩
    have hbody := asCString_eq_some hstring
    obtain ⟨it, hit, hpos, hsame⟩ := hread.found t (hreached t ht ⟨string, hbody⟩)
    refine ⟨it, hit, hpos, asCString_of_body ?_⟩
    rw [hbody] at hsame
    generalize it.body = b at hsame
    cases hsame
    rfl

namespace File

/-- Texts that were put into a file are in the file that is written, and all other items
that were read are found there again. -/
theorem parse_readTxt_dump {n : Nat} (hparse : parse f src n = .ok { state := ctx, todo := [] })
    (heditable : Editable ctx) {is : Bytes} (hnul : 0 ∉ is)
    (hread : readTxt ctx is = .ok edited) (hsmall : edited.fixup.getSize < 2 ^ 32) :
    ∃ events, edited.fixup.dump = .ok events ∧ ∀ src' : Source,
      src'.bytes = Sink.bytesOf (callsOf events) →
        (∃ ctx', (∀ n, src'.size ≤ n → parse f src' n = .ok { state := ctx', todo := [] }) ∧
          ReadAs edited.fixup src' ctx' ∧
          (∀ t ∈ edited.fixup.children.nodes, t.body.isRaw = true ∨ t.body = .eof ∨
            Reached edited.fixup t ∧ Found edited.fixup ctx' t) ∧
          strings ctx'.children = strings edited.children) ∨
        HasDefault edited.fixup ∧
          ∀ n, src'.size ≤ n → parse f src' n = .error InstructionJumpSwitchItem.noRoom := by
  obtain ⟨h, hheaded, -, htexts⟩ := parse_known hparse
  obtain ⟨hedited, hstrings⟩ := edited_fixup h hread hnul
  have hT := heditable.listing h hheaded hedited hsmall htexts
  obtain ⟨events, hdump⟩ := exists_dump_edited h hedited hT
  refine ⟨events, hdump, fun src' hsrc' => ?_⟩
  rcases parse_readAs hT hdump hsrc' with ⟨ctx', hparse', hreadAs⟩ | hdefault
  · refine .inl ⟨ctx', hparse', hreadAs, fun t ht => ?_, ?_⟩
    · exact (hedited.raw_or_reached h ht).imp_right fun hread => hread.imp_right fun hreached =>
        ⟨hreached, hreadAs.found t hreached⟩
    · rw [hreadAs.strings_eq hT fun t ht htext => ?_, hstrings]
      obtain ⟨string, hstring⟩ := htext
      rcases hedited.raw_or_reached h ht with hraw | heof | hreached
      · rw [hstring] at hraw
        cases hraw
      · cases hstring.symm.trans heof
      · exact hreached
  · exact .inr hdefault

/-- "bc", for the text of `oneText` -/
def otherText : Bytes := render [[0x62, 0x63]]

theorem oneText_parse_readTxt_dump : ∃ ctx edited events,
    parse .noire File.oneText 4 = .ok { state := ctx, todo := [] } ∧
    readTxt ctx otherText = .ok edited ∧ edited.fixup.dump = .ok events ∧ ∀ src' : Source,
      src'.bytes = Sink.bytesOf (callsOf events) →
        (∃ ctx', (∀ n, src'.size ≤ n → parse .noire src' n = .ok { state := ctx', todo := [] }) ∧
          ReadAs edited.fixup src' ctx' ∧
          (∀ t ∈ edited.fixup.children.nodes, t.body.isRaw = true ∨ t.body = .eof ∨
            Reached edited.fixup t ∧ Found edited.fixup ctx' t) ∧
          strings ctx'.children = strings edited.children) ∨
        HasDefault edited.fixup ∧
          ∀ n, src'.size ≤ n → parse .noire src' n = .error InstructionJumpSwitchItem.noRoom := by
  have hparse : (parse .noire File.oneText 4).toOption.map (fun w => (w.todo,
      decide (Editable w.state), (readTxt w.state otherText).toOption.map
        fun edited => edited.fixup.getSize)) = some ([], true, some 21) := by decide +kernel
  obtain ⟨⟨ctx, todo⟩, hparse, hfacts⟩ := exists_ok_of_toOption hparse
  simp only [Prod.mk.injEq, decide_eq_true_eq] at hfacts
  obtain ⟨rfl, heditable, hread⟩ := hfacts
  obtain ⟨edited, hread, hsize⟩ := exists_ok_of_toOption hread
  obtain ⟨events, hdump, hreopened⟩ := parse_readTxt_dump hparse heditable (by decide) hread
    (by rw [hsize]; decide)
  exact ⟨ctx, edited, events, hparse, hread, hdump, hreopened⟩

end File

end Stsc

end Neptools

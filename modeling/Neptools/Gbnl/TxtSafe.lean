import Neptools.Gbnl.TxtRoundTrip

/-!
What an import writes to. The numbers of the simple mode are taken apart without
a check, so only a text whose numbers stand for exported fields is safe to read;
the other ids are searched for, and always safe.
-/

namespace Neptools

open Lib

namespace Gbnl

/-! The states of an import. -/

/-- `ReadTxt_` comes to the state before the given lines. -/
inductive Reached (g : Gbnl) (is : Bytes) : TxtState → List Bytes → Prop
  | start :
      Reached g is { gbnl := g, msg := [], lastIndex := 0, pos := npos } (is.splitOn 0x0a)
  | separator {st st' : TxtState} {line rest : Bytes} {lines : List Bytes} :
      Reached g is st (line :: lines) → separatorRest line = some rest →
        readSeparator st rest = .ok (.inr st') → Reached g is st' lines
  | text {st : TxtState} {line : Bytes} {lines : List Bytes} :
      Reached g is st (line :: lines) → separatorRest line = none → st.pos ≠ npos →
        Reached g is { st with msg := st.msg ++ popCr line ++ [0x0a] } lines

def withoutMessages (g : Gbnl) : Gbnl := { g with messages := [], typed := by simp }

/-- `g'` is `g` with other texts in exported fields. -/
structure OnlyTexts (g' g : Gbnl) : Prop where
  rest : g'.withoutMessages = g.withoutMessages
  messages : g'.messages.length = g.messages.length
  fields : ∀ j i, field g' j i = field g j i ∨ ∃ v text, field g j i = some v ∧
    v.isExported = true ∧ field g' j i = some (v.setText text)

/-- The text that is there at a separator goes into an exported field. -/
def StoresText (st : TxtState) : Prop :=
  st.pos = npos ∨ (∃ g, st.store = .ok g) ∧
    ∃ v, field st.gbnl st.lastIndex st.pos = some v ∧ v.isExported = true

/-- Whatever is stored on the way goes into an exported field, and the import
refuses the text or changes texts of exported fields only. -/
structure WritesTexts (g : Gbnl) (is : Bytes) : Prop where
  stores : ∀ st line rest lines, Reached g is st (line :: lines) →
    separatorRest line = some rest → StoresText st
  outcome : (∃ message, readTxt g is = .error (.decodeError message)) ∨
    ∃ g', OnlyTexts g' g ∧ readTxt g is = .ok g'.recalcSize

theorem OnlyTexts.refl (g : Gbnl) : OnlyTexts g g :=
  ⟨rfl, rfl, fun _ _ => Or.inl rfl⟩

theorem field_setText (g : Gbnl) (index pos : Nat) (text : Bytes) (j i : Nat) :
    field (g.setText index pos text) j i =
      if index = j ∧ pos = i then (field g j i).map (Value.setText text) else field g j i := by
  simp only [field, setText, List.getElem?_modify]
  cases g.messages[j]? with
  | none => simp
  | some m =>
      by_cases hj : index = j
      · by_cases hi : pos = i
        · simp [hj, hi]
        · simp [hj, hi]
      · simp [hj]

theorem OnlyTexts.setText {g' g : Gbnl} (h : OnlyTexts g' g) {j i : Nat} {v : Value}
    (hv : field g j i = some v) (hexp : v.isExported = true) (text : Bytes) :
    OnlyTexts (g'.setText j i text) g := by
  refine ⟨h.rest, ?_, fun j' i' => ?_⟩
  · simp [Gbnl.setText, h.messages]
  · rw [field_setText]
    split
    · rename_i heq
      obtain ⟨rfl, rfl⟩ := heq
      refine Or.inr ⟨v, text, hv, hexp, ?_⟩
      rcases h.fields j i with hsame | ⟨v', text', hv', -, hset⟩
      · simp [hsame, hv]
      · cases hv.symm.trans hv'
        simp [hset, setText_setText]
    · exact h.fields j' i'

/-! The destinations of the texts, read off the table and the lines alone. -/

/-- Where the text of a block goes, and whether the id was a simple one. -/
structure Target where
  simple : Bool
  index : Nat
  pos : Nat

/-- The destination that `rest`, behind a separator, stands for. -/
def target (g : Gbnl) (rest : Bytes) (index : Nat) : Target :=
  let simple := decide (rest.head? = some 0x23)
  let id := Int32.ofInt (strtol (if simple then rest.drop 1 else rest))
  let dst := findDst g simple id index
  { simple, index := dst.2, pos := dst.1 }

/-- The destinations of the texts that are stored: of those with another
separator behind them, up to the last block or a line that is refused. -/
def targetsFrom (g : Gbnl) (t : Target) : List Bytes → List Target
  | [] => []
  | line :: lines =>
      match separatorRest line with
      | some rest =>
          (if t.pos = npos then [] else [t]) ++
            if rest.take 3 = eofWord then []
            else
              let t := target g rest t.index
              if t.pos = npos then [] else targetsFrom g t lines
      | none => if t.pos = npos then [] else targetsFrom g t lines

def targets (g : Gbnl) (is : Bytes) : List Target :=
  targetsFrom g { simple := false, index := 0, pos := npos } (is.splitOn 0x0a)

theorem target_congr {g' g : Gbnl} (h : SameKeys g' g) (rest : Bytes) (index : Nat) :
    target g' rest index = target g rest index := by
  simp only [target, findDst_congr h]

/-- An id that is searched for is the one of an exported field. -/
theorem exported_of_findDst {g : Gbnl} {id : Int32} {index : Nat}
    (h : (findDst g false id index).1 ≠ npos) :
    ∃ v, field g (findDst g false id index).2 (findDst g false id index).1 = some v ∧
      v.isExported = true := by
  rw [findDst_search] at h ⊢
  cases hfound : (List.range g.messages.length).findSome? fun t =>
      searchAt g id ((index + t) % 2 ^ 64 % g.messages.length) with
  | none =>
      rw [hfound] at h
      exact absurd rfl h
  | some dst =>
      obtain ⟨t, -, ht⟩ := List.exists_of_findSome?_eq_some hfound
      exact (exported_iff g false dst.2 dst.1).mp ⟨id, exported_of_searchAt ht⟩

theorem exported_of_target {g : Gbnl} {rest : Bytes} {index : Nat}
    (hsimple : (target g rest index).simple = false) (hpos : (target g rest index).pos ≠ npos) :
    ∃ v, field g (target g rest index).index (target g rest index).pos = some v ∧
      v.isExported = true := by
  simp only [target] at hsimple hpos ⊢
  rw [hsimple] at hpos ⊢
  exact exported_of_findDst hpos

theorem readSeparator_of_store {st : TxtState} {g : Gbnl} (h : st.store = .ok g) (rest : Bytes) :
    readSeparator st rest =
      if rest.take 3 = eofWord then .ok (.inl g.recalcSize)
      else if (target g rest st.lastIndex).pos = npos then
        .error (.decodeError "GbnlTxt: invalid id in input")
      else .ok (.inr { gbnl := g, msg := [], lastIndex := (target g rest st.lastIndex).index
                       pos := (target g rest st.lastIndex).pos }) := by
  rw [readSeparator, h, ok_bind]
  split
  · rfl
  · split
    · rename_i hpos
      have hpos : ¬ (target g rest st.lastIndex).pos ≠ npos := not_not.mpr hpos
      exact congrArg (· >>= _) (require_not hpos _)
    · rename_i hpos
      exact congrArg (· >>= _) (require_of hpos _)

/-! The states that are reached, and what they store. -/

/-- The state of an import into `g`, at a text for `t`. -/
structure Importing (g : Gbnl) (t : Target) (st : TxtState) : Prop where
  index : st.lastIndex = t.index
  pos : st.pos = t.pos
  keys : SameKeys st.gbnl g
  texts : OnlyTexts st.gbnl g
  msg : st.msg = [] ∨ st.msg.getLast? = some 0x0a
  found : t.simple = false → t.pos ≠ npos →
    ∃ v, field g t.index t.pos = some v ∧ v.isExported = true

/-- The text for `t` may be stored: a number stands for an exported field, and
no fixed string is without a byte for the NUL. -/
def Target.Fits (g : Gbnl) (t : Target) : Prop :=
  (t.simple = true → ∃ v, field g t.index t.pos = some v ∧ v.isExported = true) ∧
    field g t.index t.pos ≠ some (.fixString [])

theorem importing_start (g : Gbnl) :
    Importing g { simple := false, index := 0, pos := npos }
      { gbnl := g, msg := [], lastIndex := 0, pos := npos } :=
  ⟨rfl, rfl, SameKeys.refl g, OnlyTexts.refl g, Or.inl rfl, fun _ h => absurd rfl h⟩

theorem Importing.text {g : Gbnl} {t : Target} {st : TxtState} (h : Importing g t st)
    (line : Bytes) : Importing g t { st with msg := st.msg ++ popCr line ++ [0x0a] } :=
  { h with msg := Or.inr (by simp) }

theorem Importing.target {g g' : Gbnl} {t : Target} {st : TxtState} (h : Importing g t st)
    (hkeys : SameKeys g' g) (htexts : OnlyTexts g' g) (rest : Bytes) :
    Importing g (target g rest t.index)
      { gbnl := g', msg := [], lastIndex := (Gbnl.target g' rest st.lastIndex).index
        pos := (Gbnl.target g' rest st.lastIndex).pos } := by
  rw [target_congr hkeys, h.index]
  exact ⟨rfl, rfl, hkeys, htexts, Or.inl rfl, exported_of_target⟩

theorem exists_exported {g' g : Gbnl} (h : SameKeys g' g) {j i : Nat} {v : Value}
    (hv : field g j i = some v) (hexp : v.isExported = true) :
    ∃ v', field g' j i = some v' ∧ v'.isExported = true ∧ v'.type = v.type := by
  obtain ⟨v', hv', hkey, htype⟩ := field_congr h hv
  refine ⟨v', hv', ?_, htype⟩
  rw [← isExported_key, hkey, isExported_key, hexp]

/-- A fixed string without a byte does not change. -/
theorem fixString_nil_congr {g' g : Gbnl} (h : SameKeys g' g) {j i : Nat}
    (hv : field g j i = some (.fixString [])) : field g' j i = some (.fixString []) := by
  obtain ⟨v', hv', -, htype⟩ := field_congr h hv
  cases v' with
  | fixString str =>
      have hnil : str = [] := by simpa [Value.type] using htype
      rw [hv', hnil]
  | _ => cases htype

theorem store_fixString_nil {st : TxtState} (hpos : st.pos ≠ npos)
    (hv : field st.gbnl st.lastIndex st.pos = some (.fixString [])) (g : Gbnl) :
    st.store ≠ .ok g := by
  intro hstore
  obtain ⟨m, hm, hmi⟩ := Option.bind_eq_some_iff.mp hv
  rw [TxtState.store, if_neg hpos] at hstore
  obtain ⟨-, -, hstore⟩ := bind_eq_ok.mp hstore
  simp only [hm, hmi, require_not (not_not.mpr rfl), error_bind] at hstore
  cases hstore

theorem Importing.exported {g : Gbnl} {t : Target} {st : TxtState} (h : Importing g t st)
    (hpos : t.pos ≠ npos) (hfits : t.Fits g) :
    ∃ v, field g t.index t.pos = some v ∧ v.isExported = true := by
  cases hsimple : t.simple with
  | false => exact h.found hsimple hpos
  | true => exact hfits.1 hsimple

theorem Importing.store {g : Gbnl} {t : Target} {st : TxtState} (h : Importing g t st)
    (hpos : t.pos ≠ npos) (hfits : t.Fits g) :
    (∃ g', st.store = .ok g' ∧ SameKeys g' g ∧ OnlyTexts g' g) ∧
      ∃ v, field st.gbnl st.lastIndex st.pos = some v ∧ v.isExported = true := by
  obtain ⟨v, hv, hexp⟩ := h.exported hpos hfits
  obtain ⟨v', hv', hexp', -⟩ := exists_exported h.keys hv hexp
  have hne : v' ≠ .fixString [] := fun hnil =>
    hfits.2 (fixString_nil_congr h.keys.symm (hnil ▸ hv'))
  rw [← h.index, ← h.pos] at hv hv'
  have hstore := store_eq h.msg hv' hexp' hne (h.pos ▸ hpos)
  exact ⟨⟨_, hstore, (sameKeys_setText _ _ _ _).trans h.keys, h.texts.setText hv hexp _⟩,
    v', hv', hexp'⟩

/-- A text is stored in an exported field exactly when its destination fits. -/
theorem Importing.storesText_iff {g : Gbnl} {t : Target} {st : TxtState}
    (h : Importing g t st) : StoresText st ↔ (t.pos ≠ npos → t.Fits g) := by
  constructor
  · rintro (hnpos | ⟨⟨g', hstore⟩, v, hv, hexp⟩) hpos
    · exact absurd (h.pos.symm.trans hnpos) hpos
    · refine ⟨fun _ => ?_, fun hnil => ?_⟩
      · rw [h.index, h.pos] at hv
        obtain ⟨v', hv', hexp', -⟩ := exists_exported h.keys.symm hv hexp
        exact ⟨v', hv', hexp'⟩
      · have hnil := fixString_nil_congr h.keys hnil
        rw [← h.index, ← h.pos] at hnil
        exact store_fixString_nil (h.pos ▸ hpos) hnil g' hstore
  · intro hfits
    by_cases hnpos : t.pos = npos
    · exact Or.inl (h.pos.trans hnpos)
    · obtain ⟨⟨g', hstore, -⟩, hv⟩ := h.store hnpos (hfits hnpos)
      exact Or.inr ⟨⟨g', hstore⟩, hv⟩

theorem Importing.stored {g : Gbnl} {t : Target} {st : TxtState} (h : Importing g t st)
    (hst : StoresText st) : ∃ g', st.store = .ok g' ∧ SameKeys g' g ∧ OnlyTexts g' g := by
  by_cases hnpos : t.pos = npos
  · exact ⟨st.gbnl, if_pos (h.pos.trans hnpos), h.keys, h.texts⟩
  · exact (h.store hnpos (h.storesText_iff.mp hst hnpos)).1

/-- One separator: the import ends, refuses the id, or goes on with its destination. -/
theorem Importing.readSeparator {g : Gbnl} {t : Target} {st : TxtState} (h : Importing g t st)
    (hst : StoresText st) (rest : Bytes) :
    (rest.take 3 = eofWord ∧
      ∃ g', OnlyTexts g' g ∧ readSeparator st rest = .ok (.inl g'.recalcSize)) ∨
    (rest.take 3 ≠ eofWord ∧ (Gbnl.target g rest t.index).pos = npos ∧
      ∃ message, readSeparator st rest = .error (.decodeError message)) ∨
    (rest.take 3 ≠ eofWord ∧ (Gbnl.target g rest t.index).pos ≠ npos ∧
      ∃ st', readSeparator st rest = .ok (.inr st') ∧
        Importing g (Gbnl.target g rest t.index) st') := by
  obtain ⟨g', hstore, hkeys, htexts⟩ := h.stored hst
  rw [readSeparator_of_store hstore]
  have htarget := target_congr hkeys rest st.lastIndex
  rw [h.index] at htarget
  by_cases heof : rest.take 3 = eofWord
  · exact Or.inl ⟨heof, g', htexts, if_pos heof⟩
  · by_cases hpos : (Gbnl.target g rest t.index).pos = npos
    · refine Or.inr (Or.inl ⟨heof, hpos, "GbnlTxt: invalid id in input", ?_⟩)
      rw [if_neg heof, h.index, htarget, if_pos hpos]
    · refine Or.inr (Or.inr ⟨heof, hpos, _, ?_, h.target hkeys htexts rest⟩)
      rw [if_neg heof, h.index, htarget, if_neg hpos]

/-! Whole imports. -/

theorem targetsFrom_separator {g : Gbnl} {t : Target} {line rest : Bytes}
    (hline : separatorRest line = some rest) (lines : List Bytes) :
    targetsFrom g t (line :: lines) = (if t.pos = npos then [] else [t]) ++
      if rest.take 3 = eofWord then []
      else if (target g rest t.index).pos = npos then []
      else targetsFrom g (target g rest t.index) lines := by
  simp only [targetsFrom, hline]

theorem targetsFrom_text {g : Gbnl} {t : Target} {line : Bytes}
    (hline : separatorRest line = none) (hpos : t.pos ≠ npos) (lines : List Bytes) :
    targetsFrom g t (line :: lines) = targetsFrom g t lines := by
  simp only [targetsFrom, hline, if_neg hpos]

/-- When all destinations fit, every state that is reached is one of an import
whose destinations are among them. -/
theorem Reached.importing {g : Gbnl} {is : Bytes} (hfits : ∀ t ∈ targets g is, t.Fits g)
    {st : TxtState} {lines : List Bytes} (h : Reached g is st lines) :
    ∃ t, Importing g t st ∧ targetsFrom g t lines ⊆ targets g is := by
  induction h with
  | start => exact ⟨_, importing_start g, fun _ h => h⟩
  | @separator st st' line rest lines _ hline hread ih =>
      obtain ⟨t, himp, hsub⟩ := ih
      rw [targetsFrom_separator hline] at hsub
      have hst : StoresText st := himp.storesText_iff.mpr fun hpos =>
        hfits t (hsub (by simp [hpos]))
      rcases himp.readSeparator hst rest with
        ⟨-, g', -, heq⟩ | ⟨-, -, message, heq⟩ | ⟨heof, hpos, st'', heq, himp'⟩
      · cases heq.symm.trans hread
      · cases heq.symm.trans hread
      · cases heq.symm.trans hread
        refine ⟨_, himp', fun u hu => hsub ?_⟩
        simp [heof, hpos, hu]
  | @text st line lines _ hline hpos ih =>
      obtain ⟨t, himp, hsub⟩ := ih
      rw [targetsFrom_text hline (himp.pos ▸ hpos)] at hsub
      exact ⟨t, himp.text line, hsub⟩

/-- When all that is stored goes into exported fields, all destinations fit. -/
theorem fits_of_stores {g : Gbnl} {is : Bytes}
    (hstores : ∀ st line rest lines, Reached g is st (line :: lines) →
      separatorRest line = some rest → StoresText st)
    {t : Target} {st : TxtState} {lines : List Bytes} (himp : Importing g t st)
    (hreach : Reached g is st lines) : ∀ u ∈ targetsFrom g t lines, u.Fits g := by
  induction lines generalizing t st with
  | nil => simp [targetsFrom]
  | cons line lines ih =>
      cases hline : separatorRest line with
      | none =>
          by_cases hpos : t.pos = npos
          · simp [targetsFrom, hline, hpos]
          · rw [targetsFrom_text hline hpos]
            exact ih (himp.text line) (hreach.text hline (himp.pos ▸ hpos))
      | some rest =>
          have hst := hstores st line rest lines hreach hline
          intro u hu
          rw [targetsFrom_separator hline] at hu
          rcases List.mem_append.mp hu with hu | hu
          · by_cases hpos : t.pos = npos
            · simp [hpos] at hu
            · rw [if_neg hpos, List.mem_singleton] at hu
              exact hu ▸ himp.storesText_iff.mp hst hpos
          · rcases himp.readSeparator hst rest with
              ⟨heof, -⟩ | ⟨-, hpos, -⟩ | ⟨heof, hpos, st', hread, himp'⟩
            · simp [heof] at hu
            · simp [hpos] at hu
            · rw [if_neg heof, if_neg hpos] at hu
              exact ih himp' (hreach.separator hline hread) u hu

/-- When all that is stored goes into exported fields, only texts of these change. -/
theorem readLines_of_stores {g : Gbnl} {is : Bytes}
    (hstores : ∀ st line rest lines, Reached g is st (line :: lines) →
      separatorRest line = some rest → StoresText st)
    {t : Target} {st : TxtState} {lines : List Bytes} (himp : Importing g t st)
    (hreach : Reached g is st lines) :
    (∃ message, readLines st lines = .error (.decodeError message)) ∨
      ∃ g', OnlyTexts g' g ∧ readLines st lines = .ok g'.recalcSize := by
  induction lines generalizing t st with
  | nil => exact Or.inl ⟨_, rfl⟩
  | cons line lines ih =>
      rw [readLines]
      cases hline : separatorRest line with
      | none =>
          by_cases hpos : st.pos = npos
          · refine Or.inl ⟨"GbnlTxt: data before separator", ?_⟩
            simp only [require_not (not_not.mpr hpos), error_bind]
          · simp only [require_of hpos, ok_bind]
            exact ih (himp.text line) (hreach.text hline hpos)
      | some rest =>
          have hst := hstores st line rest lines hreach hline
          rcases himp.readSeparator hst rest with
            ⟨-, g', htexts, heq⟩ | ⟨-, -, message, heq⟩ | ⟨-, -, st', heq, himp'⟩
          · exact Or.inr ⟨g', htexts, by simp only [heq, ok_bind, pure_eq_ok]⟩
          · exact Or.inl ⟨message, by simp only [heq, error_bind]⟩
          · simp only [heq, ok_bind]
            exact ih himp' (hreach.separator hline heq)

/-- An import changes at most the texts of exported fields, whatever it reads,
exactly when the numbers of simple ids whose texts are stored stand for exported
fields, and none of its destinations is a fixed string of size zero. -/
theorem writesTexts_iff (g : Gbnl) (is : Bytes) :
    WritesTexts g is ↔ ∀ t ∈ targets g is, t.Fits g := by
  constructor
  · intro h
    exact fits_of_stores h.stores (importing_start g) Reached.start
  · intro hfits
    have hstores : ∀ st line rest lines, Reached g is st (line :: lines) →
        separatorRest line = some rest → StoresText st := by
      intro st line rest lines hreach hline
      obtain ⟨t, himp, hsub⟩ := hreach.importing hfits
      refine himp.storesText_iff.mpr fun hpos => hfits t (hsub ?_)
      rw [targetsFrom_separator hline]
      simp [hpos]
    exact ⟨hstores, readLines_of_stores hstores (importing_start g) Reached.start⟩

/-- One message that is a number. -/
def oneInt32 : Gbnl :=
  { endian := .little, isGstl := false, flags := 0, field28 := 0, field30 := 0
    type := [.int32], messages := [[.int32 7]]
    msgDescrSize := 4, msgsSize := 0, realItemCount := 1
    typed := by decide }

/-- A text under the number of the first field of the first message. -/
def numberZero : Bytes :=
  sepDash ++ [0x23, 0x30] ++ crlf ++ [0x78] ++ crlf ++ sepDash ++ eofWord ++ crlf

theorem oneInt32_not_writesTexts : ¬ ∀ (g : Gbnl) (is : Bytes), WritesTexts g is := by
  intro h
  have herror : readTxt oneInt32 numberZero =
      .error (.assertionFailed "specified item is not T") := by decide +kernel
  rcases (h oneInt32 numberZero).outcome with ⟨message, heq⟩ | ⟨g', -, heq⟩
  · cases herror.symm.trans heq
  · cases herror.symm.trans heq

end Gbnl

end Neptools

import Neptools.Format.Context
import Neptools.Lib.Text

/-!
The text form of an STSC file: its strings in order, each ended by a line of
dashes. In the text the marker of a line break is a line break, and lines are
put together with markers again when they are read. What is read goes into the
strings of a file that is there already.
-/

namespace Neptools

open Lib

namespace Stsc

def dashes : Bytes := List.replicate 40 0x2d
def sepDash : Bytes := dashes ++ [0x0d]

/-- A backslash and "n". -/
def marker : Bytes := [0x5c, 0x6e]

/-- `dynamic_cast<CStringItem*>` -/
def asCString (it : Item) : Option Bytes :=
  match it.body with
  | .cString string => some string
  | _ => none

def writeString (str : Bytes) : Bytes :=
  replacePair 0x5c 0x6e [0x0d, 0x0a] str ++ [0x0d, 0x0a] ++ sepDash ++ [0x0a]

def writeChildren : ItemList → Bytes
  | .nil => []
  | .cons it _ siblings =>
      match asCString it with
      | some str => writeString str ++ writeChildren siblings
      | none => writeChildren siblings

def writeTxt (ctx : Context) : Bytes := writeChildren ctx.children

/-- The state of `ReadTxt_`: the items before the iterator, those from it on, and
the text so far. -/
structure TxtState where
  before : ItemList
  rest : ItemList
  msg : Bytes

/-- The iterator moves on to the next string. -/
def nextString (before : ItemList) : ItemList → TxtState
  | .nil => { before, rest := .nil, msg := [] }
  | .cons it children siblings =>
      match asCString it with
      | some _ => { before, rest := .cons it children siblings, msg := [] }
      | none => nextString (before ++ .single it children) siblings

/-- What happens to the text at a separator. -/
def TxtState.store (st : TxtState) : Except Error TxtState :=
  match st.rest with
  | .nil => throw (.decodeError "StscTxt: too many strings")
  | .cons it children siblings => do
      require (st.msg = [] ∨ st.msg.drop (st.msg.length - 2) = marker)
        (Error.assertionFailed "msg.empty() || msg.substr(msg.length()-2) == \"\\\\n\"")
      match it.body with
      | .cString _ =>
          let it := { it with body := .cString st.msg.dropLast.dropLast }
          pure (nextString (st.before ++ .single it children) siblings)
      | _ => throw .undefinedBehaviour

/-- The loop over the lines. -/
def readLines (st : TxtState) : List Bytes → Except Error ItemList
  | [] =>
      match st.rest with
      | .nil => pure st.before
      | .cons _ _ _ => throw (.decodeError "StscTxt: not enough strings")
  | line :: lines =>
      if line = sepDash then do
        let st ← st.store
        readLines st lines
      else readLines { st with msg := st.msg ++ popCr line ++ marker } lines

def readTxt (ctx : Context) (is : Bytes) : Except Error Context := do
  let children ← readLines (nextString .nil ctx.children) (getLines 0x0a is)
  pure { ctx with children }

/-! What is written, and what is read from it. -/

def strings (f : ItemList) : List Bytes := f.roots.filterMap asCString

/-- The text of a list of strings. -/
def render (ts : List Bytes) : Bytes := ts.flatMap writeString

theorem writeTxt_eq_render (ctx : Context) : writeTxt ctx = render (strings ctx.children) := by
  rw [writeTxt]
  induction ctx.children with
  | nil => rfl
  | cons it children siblings _ ih =>
      rw [writeChildren, strings, Forest.roots, List.filterMap_cons]
      cases asCString it with
      | none => exact ih
      | some str =>
          rw [render, List.flatMap_cons]
          exact congrArg (writeString str ++ ·) ih

/-- The strings put into the items, in order. -/
def setStrings : List Bytes → ItemList → ItemList
  | t :: ts, .cons it children siblings =>
      match asCString it with
      | some _ => .cons { it with body := .cString t } children (setStrings ts siblings)
      | none => .cons it children (setStrings (t :: ts) siblings)
  | _, f => f

theorem setStrings_nil (f : ItemList) : setStrings [] f = f := by
  cases f with
  | nil => rfl
  | cons it children siblings => rfl

/-- Nothing is changed but strings. -/
def SameOthers : ItemList → ItemList → Prop
  | .nil, .nil => True
  | .cons it children siblings, .cons it' children' siblings' =>
      (it' = it ∨ ∃ s t, it.body = .cString s ∧ it' = { it with body := .cString t }) ∧
        children' = children ∧ SameOthers siblings siblings'
  | _, _ => False

theorem SameOthers.refl (f : ItemList) : SameOthers f f := by
  induction f with
  | nil => trivial
  | cons it children siblings _ ih => exact ⟨Or.inl rfl, rfl, ih⟩

theorem asCString_eq_some {it : Item} {s : Bytes} (h : asCString it = some s) :
    it.body = .cString s := by
  rw [asCString] at h
  split at h
  · cases h
    assumption
  · cases h

theorem setStrings_spec {ts : List Bytes} {f : ItemList} (h : ts.length = (strings f).length) :
    strings (setStrings ts f) = ts ∧ SameOthers f (setStrings ts f) := by
  induction f generalizing ts with
  | nil =>
      have hnil : ts = [] := List.eq_nil_of_length_eq_zero h
      rw [hnil]
      exact ⟨rfl, trivial⟩
  | cons it children siblings _ ih =>
      rw [strings, Forest.roots, List.filterMap_cons] at h
      cases hit : asCString it with
      | none =>
          rw [hit] at h
          obtain ⟨hstrings, hsame⟩ := ih h
          cases ts with
          | nil =>
              refine ⟨?_, SameOthers.refl _⟩
              exact List.eq_nil_of_length_eq_zero (by simpa [setStrings, strings, Forest.roots, hit] using h.symm)
          | cons t ts =>
              rw [setStrings, hit]
              refine ⟨?_, Or.inl rfl, rfl, hsame⟩
              rw [strings, Forest.roots, List.filterMap_cons, hit]
              exact hstrings
      | some s =>
          rw [hit, List.length_cons] at h
          cases ts with
          | nil => cases h
          | cons t ts =>
              obtain ⟨hstrings, hsame⟩ := ih (Nat.succ.inj h)
              rw [setStrings, hit]
              refine ⟨?_, Or.inr ⟨s, t, asCString_eq_some hit, rfl⟩, rfl, hsame⟩
              exact congrArg (t :: ·) hstrings

/-- The parts of a string between its markers. -/
def parts (t : Bytes) : List Bytes := splitPair 0x5c 0x6e t

/-- A string without a line feed, and no part of it a line of dashes. -/
def Plain (t : Bytes) : Prop := 0x0a ∉ t ∧ ∀ p ∈ parts t, p ≠ dashes

/-- The lines of a string in the text. -/
def linesOf (t : Bytes) : List Bytes := (parts t).map (· ++ [0x0d]) ++ [sepDash]

theorem writeString_eq (t : Bytes) : writeString t = (linesOf t).flatMap (· ++ [0x0a]) := by
  rw [writeString, replacePair_append, linesOf, List.flatMap_append, List.flatMap_map, parts,
    List.append_assoc]
  simp only [List.append_assoc, List.singleton_append, List.flatMap_singleton]

theorem not_mem_linesOf {t : Bytes} (h : Plain t) : ∀ l ∈ linesOf t, 0x0a ∉ l := by
  intro l hl hmem
  rcases List.mem_append.mp hl with hl | hl
  · obtain ⟨p, hp, rfl⟩ := List.mem_map.mp hl
    rcases List.mem_append.mp hmem with hmem | hmem
    · exact not_mem_splitPair h.1 p hp hmem
    · exact absurd hmem (by decide)
  · rw [List.mem_singleton.mp hl] at hmem
    exact absurd hmem (by decide)

theorem getLines_render {ts : List Bytes} (h : ∀ t ∈ ts, Plain t) :
    getLines 0x0a (render ts) = ts.flatMap linesOf := by
  have hlines : render ts = (ts.flatMap linesOf).flatMap (· ++ [0x0a]) := by
    rw [render, List.flatMap_assoc]
    exact List.flatMap_congr fun t _ => writeString_eq t
  rw [hlines]
  refine getLines_flatMap fun l hl => ?_
  obtain ⟨t, ht, hl⟩ := List.mem_flatMap.mp hl
  exact not_mem_linesOf (h t ht) l hl

/-- Lines that are not separators are put together. -/
theorem readLines_parts (st : TxtState) {ps : List Bytes} (h : ∀ p ∈ ps, p ≠ dashes)
    (more : List Bytes) :
    readLines st (ps.map (· ++ [0x0d]) ++ more) =
      readLines { st with msg := st.msg ++ ps.flatMap (· ++ marker) } more := by
  induction ps generalizing st with
  | nil =>
      rw [List.map_nil, List.nil_append, List.flatMap_nil, List.append_nil]
  | cons p ps ih =>
      obtain ⟨hp, hps⟩ := List.forall_mem_cons.mp h
      have hne : p ++ [0x0d] ≠ sepDash := fun heq => hp (List.append_cancel_right heq)
      rw [List.map_cons, List.cons_append, readLines, if_neg hne, ih _ hps, popCr_append_cr,
        List.flatMap_cons]
      simp only [List.append_assoc]

/-- The lines of a string are put into the item that comes next. -/
theorem readLines_linesOf {before siblings children : ItemList} {it : Item} {s t : Bytes}
    (hit : it.body = .cString s) (h : Plain t) (more : List Bytes) :
    readLines { before, rest := .cons it children siblings, msg := [] } (linesOf t ++ more) =
      readLines (nextString (before ++ .single { it with body := .cString t } children) siblings)
        more := by
  have hmsg : (parts t).flatMap (· ++ marker) = t ++ marker := by
    rw [parts, ← replacePair_append, marker, replacePair_self]
  have hend : (t ++ marker).drop ((t ++ marker).length - 2) = marker := by
    rw [List.length_append]
    exact List.drop_left
  have hpop : (t ++ marker).dropLast.dropLast = t := by
    have : t ++ marker = t ++ [0x5c] ++ [0x6e] := by
      rw [List.append_assoc]
      rfl
    rw [this, List.dropLast_concat, List.dropLast_concat]
  rw [linesOf, List.append_assoc, readLines_parts _ h.2, List.singleton_append, readLines,
    if_pos rfl, TxtState.store]
  simp only [List.nil_append, hmsg, require_of (Or.inr hend), hit, hpop, ok_bind, pure_eq_ok]

/-- A run over the lines of several strings. -/
theorem readLines_run {ts : List Bytes} (h : ∀ t ∈ ts, Plain t) (before f : ItemList) :
    (ts.length = (strings f).length →
      readLines (nextString before f) (ts.flatMap linesOf) = .ok (before ++ setStrings ts f)) ∧
    (ts.length ≠ (strings f).length → ∃ message,
      readLines (nextString before f) (ts.flatMap linesOf) = .error (.decodeError message)) := by
  induction f generalizing ts before with
  | nil =>
      cases ts with
      | nil =>
          refine ⟨fun _ => ?_, fun hne => absurd rfl hne⟩
          rw [setStrings_nil, Forest.append_nil]
          rfl
      | cons t ts =>
          refine ⟨fun hlen => (nomatch hlen), fun _ => ⟨"StscTxt: too many strings", ?_⟩⟩
          obtain ⟨ht, -⟩ := List.forall_mem_cons.mp h
          rw [nextString, List.flatMap_cons, linesOf, List.append_assoc,
            readLines_parts _ ht.2]
          rfl
  | cons it children siblings _ ih =>
      rw [strings, Forest.roots, List.filterMap_cons, nextString]
      cases hit : asCString it with
      | none =>
          obtain ⟨hok, herr⟩ := ih h (before ++ .single it children)
          refine ⟨fun hlen => ?_, herr⟩
          have hset : setStrings ts (.cons it children siblings) =
              .cons it children (setStrings ts siblings) := by
            cases ts with
            | nil => rw [setStrings_nil, setStrings_nil]
            | cons t ts => rw [setStrings, hit]
          rw [hset]
          refine (hok hlen).trans ?_
          rw [Forest.append_assoc, Forest.single_append]
      | some s =>
          cases ts with
          | nil =>
              refine ⟨fun hlen => (nomatch hlen), fun _ => ⟨"StscTxt: not enough strings", rfl⟩⟩
          | cons t ts =>
              obtain ⟨ht, hts⟩ := List.forall_mem_cons.mp h
              obtain ⟨hok, herr⟩ :=
                ih hts (before ++ .single { it with body := .cString t } children)
              rw [List.flatMap_cons]
              simp only [readLines_linesOf (asCString_eq_some hit) ht, List.length_cons,
                Nat.add_right_cancel_iff, ne_eq]
              refine ⟨fun hlen => (hok hlen).trans ?_, herr⟩
              rw [setStrings, hit, Forest.append_assoc, Forest.single_append]

/-- Reading the text that is written for a list of strings puts them into the
strings of a file, exactly when there are as many. -/
theorem readTxt_render (ctx : Context) (ts : List Bytes) (h : ∀ t ∈ ts, Plain t) :
    (∀ src : Context, strings src.children = ts → writeTxt src = render ts) ∧
      ((∃ ctx', readTxt ctx (render ts) = .ok ctx') ↔
        ts.length = (strings ctx.children).length) ∧
      (∀ ctx', readTxt ctx (render ts) = .ok ctx' →
        strings ctx'.children = ts ∧ SameOthers ctx.children ctx'.children ∧
          ctx' = { ctx with children := ctx'.children }) ∧
      (ts.length ≠ (strings ctx.children).length →
        ∃ message, readTxt ctx (render ts) = .error (.decodeError message)) := by
  refine ⟨fun src hsrc => hsrc ▸ writeTxt_eq_render src, ?_⟩
  have hread : readTxt ctx (render ts) =
      readLines (nextString .nil ctx.children) (ts.flatMap linesOf) >>= fun children =>
        .ok { ctx with children } := by
    rw [readTxt, getLines_render h]
    rfl
  obtain ⟨hok, herr⟩ := readLines_run h .nil ctx.children
  by_cases hlen : ts.length = (strings ctx.children).length
  · rw [hread, hok hlen, ok_bind, Forest.nil_append]
    obtain ⟨hstrings, hsame⟩ := setStrings_spec hlen
    refine ⟨iff_of_true ⟨_, rfl⟩ hlen, ?_, fun hne => absurd hlen hne⟩
    rintro ctx' ⟨⟩
    exact ⟨hstrings, hsame, rfl⟩
  · obtain ⟨message, herr⟩ := herr hlen
    rw [hread, herr, error_bind]
    exact ⟨iff_of_false (fun ⟨_, h⟩ => nomatch h) hlen, fun _ h => (nomatch h),
      fun _ => ⟨message, rfl⟩⟩

/-- A string between two other items. -/
def oneString : Context :=
  { Context.empty with
    children :=
      .cons { id := 0, position := 0, labels := [], body := .int32 7 } .nil
        (.cons { id := 1, position := 4, labels := [], body := .cString [0x61] } .nil
          (.single { id := 2, position := 6, labels := [], body := .eof } .nil))
    nextId := 3 }

/-- "a\nb", with a marker, and a dash behind it -/
def twoParts : Bytes := [0x61, 0x5c, 0x6e, 0x62, 0x2d]

theorem oneString_readTxt :
    (∀ src : Context, strings src.children = [twoParts] → writeTxt src = render [twoParts]) ∧
      ((∃ ctx', readTxt oneString (render [twoParts]) = .ok ctx') ↔
        [twoParts].length = (strings oneString.children).length) ∧
      (∀ ctx', readTxt oneString (render [twoParts]) = .ok ctx' →
        strings ctx'.children = [twoParts] ∧ SameOthers oneString.children ctx'.children ∧
          ctx' = { oneString with children := ctx'.children }) ∧
      ([twoParts].length ≠ (strings oneString.children).length →
        ∃ message, readTxt oneString (render [twoParts]) = .error (.decodeError message)) :=
  readTxt_render oneString [twoParts] (List.forall_mem_singleton.mpr ⟨by decide, by decide⟩)

end Stsc

end Neptools

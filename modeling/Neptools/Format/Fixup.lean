import Neptools.Format.Needs
import Neptools.Format.Sizes
import Neptools.Gbnl.Strings

/-!
`Fixup` gives the items the positions at which `Dump` writes them, although the
sizes of message tables change while it does so. `Dump` succeeds exactly when
the labels of the items are in place, unless a row of a message table does not
fit in its buffer.
-/

namespace Neptools

open Lib

/-- All items are one after the other, from `pos` on. -/
abbrev ItemList.Laid (pos : Nat) (f : ItemList) : Prop :=
  Forest.Laid (fun it => it.body.ownSize) Item.position pos f

theorem Body.fixupOffset_eq (b : Body) : b.fixupOffset = b.ownSize := by
  cases b <;> rfl

theorem ItemList.laid_fixup (pos : Nat) (f : ItemList) : (f.fixup pos).Laid pos := by
  induction f generalizing pos with
  | nil => trivial
  | cons it children siblings ihc ihs =>
      refine ⟨rfl, ?_, ?_⟩
      · rw [Body.fixupOffset_eq]
        exact ihc _
      · rw [Nat.add_assoc]
        exact ihs _

theorem ItemList.body_fixup {pos : Nat} {f : ItemList} {it : Item} (h : it ∈ (f.fixup pos).nodes) :
    ∃ it' ∈ f.nodes, it.body = it'.body.fixup := by
  induction f generalizing pos with
  | nil => cases h
  | cons it' children siblings ihc ihs =>
      rw [fixup, Forest.nodes, List.mem_cons, List.mem_append] at h
      rw [Forest.nodes]
      rcases h with rfl | h | h
      · exact ⟨it', List.mem_cons_self, rfl⟩
      · obtain ⟨it'', hmem, hbody⟩ := ihc h
        exact ⟨it'', List.mem_cons_of_mem _ (List.mem_append_left _ hmem), hbody⟩
      · obtain ⟨it'', hmem, hbody⟩ := ihs h
        exact ⟨it'', List.mem_cons_of_mem _ (List.mem_append_right _ hmem), hbody⟩

/-! What is written before each item. -/

def Event.calls : Event → List Sink.Call
  | item _ => []
  | call c => [c]

/-- What the sink gets to see. -/
def callsOf (events : List Event) : List Sink.Call := events.flatMap Event.calls

/-- The items that are dumped, each with the number of bytes written before, of
which there are `n` at the start. -/
def starts (n : Nat) : List Event → List (Nat × Nat)
  | [] => []
  | .item id :: events => (id, n) :: starts n events
  | .call c :: events => starts (n + c.length) events

theorem callsOf_append (events events' : List Event) :
    callsOf (events ++ events') = callsOf events ++ callsOf events' := List.flatMap_append

theorem callsOf_map_call (calls : List Sink.Call) : callsOf (calls.map .call) = calls := by
  induction calls with
  | nil => rfl
  | cons c cs ih =>
      rw [List.map_cons, callsOf, List.flatMap_cons, ← callsOf, ih]
      rfl

theorem starts_append (n : Nat) (events events' : List Event) :
    starts n (events ++ events') =
      starts n events ++ starts (n + (Sink.bytesOf (callsOf events)).length) events' := by
  induction events generalizing n with
  | nil => rfl
  | cons e es ih =>
      cases e with
      | item id =>
          rw [List.cons_append, starts, starts, ih]
          rfl
      | call c =>
          have hcalls : callsOf (.call c :: es) = c :: callsOf es := rfl
          rw [List.cons_append, starts, starts, ih, hcalls, Sink.bytesOf_cons,
            List.length_append, Nat.add_assoc]
          rfl

theorem starts_map_call (n : Nat) (calls : List Sink.Call) : starts n (calls.map .call) = [] := by
  induction calls generalizing n with
  | nil => rfl
  | cons c cs ih => exact ih _

theorem ItemList.needs {v : LabelView} {f : ItemList}
    (h : ∀ it ∈ f.nodes, ∀ size, Needs v it.body.questions (it.body.dump v size)) :
    Needs v (f.nodes.flatMap fun it => it.body.questions) (f.dump v) := by
  induction f with
  | nil => exact .pure _
  | cons it children siblings ihc ihs =>
      rw [Forest.nodes, List.forall_mem_cons, List.forall_mem_append] at h
      rw [Forest.nodes, List.flatMap_cons, List.flatMap_append]
      exact (h.1 _).bind fun _ => (ihc h.2.1).bind fun _ => (ihs h.2.2).map

/-- Items are dumped at the positions they are laid out at. -/
theorem ItemList.dump_laid {v : LabelView} {f : ItemList}
    (hwrites : ∀ it ∈ f.nodes, ∀ size, Writes it.body.ownSize (it.body.dump v size))
    {pos : Nat} (hlaid : f.Laid pos) {events : List Event} (h : f.dump v = .ok events) :
    (Sink.bytesOf (callsOf events)).length = f.getSize ∧
      starts pos events = f.nodes.map fun it => (it.id, it.position) := by
  induction f generalizing pos events with
  | nil =>
      cases h
      exact ⟨rfl, rfl⟩
  | cons it children siblings ihc ihs =>
      rw [Forest.nodes, List.forall_mem_cons, List.forall_mem_append] at hwrites
      obtain ⟨hown, hchildren, hsiblings⟩ := hwrites
      obtain ⟨hpos, hinner, hrest⟩ := hlaid
      obtain ⟨calls, hcalls, h⟩ := bind_eq_ok.mp h
      obtain ⟨inner, hin, h⟩ := bind_eq_ok.mp h
      obtain ⟨rest, hre, h⟩ := bind_eq_ok.mp h
      cases h
      have hlen := hown _ calls hcalls
      obtain ⟨hinLen, hinStarts⟩ := ihc hchildren hinner hin
      obtain ⟨hreLen, hreStarts⟩ := ihs hsiblings hrest hre
      have hfirst : callsOf (.item it.id :: calls.map .call) = calls := callsOf_map_call calls
      have hinLen' : (Sink.bytesOf (callsOf inner)).length =
          children.weight fun it => it.body.ownSize := hinLen
      constructor
      · rw [callsOf_append, callsOf_append, hfirst, Sink.bytesOf_append, Sink.bytesOf_append,
          List.length_append, List.length_append, hlen, hinLen, hreLen]
        rfl
      · rw [starts_append, starts_append, callsOf_append, hfirst, Sink.bytesOf_append,
          List.length_append, hlen, hinLen', ← Nat.add_assoc, hinStarts, hreStarts, starts,
          starts_map_call, Forest.nodes, List.map_cons, List.map_append, hpos, List.append_assoc]
        rfl

/-- The items of a context are dumped where their positions say. -/
structure Context.DumpedInPlace (c : Context) : Prop where
  /-- An item is written exactly when its labels are in place. -/
  written : ∀ it children, (it, children) ∈ c.children.subtrees →
    ((∃ calls, it.body.dump c.view (it.getSize children) = .ok calls) ↔
      ∀ q ∈ it.body.questions, c.InPlace q)
  dumps : (∃ events, c.dump = .ok events) ↔
    ∀ it ∈ c.children.nodes, ∀ q ∈ it.body.questions, c.InPlace q
  size : ∀ it children, (it, children) ∈ c.children.subtrees →
    ∀ events, ItemList.dump c.view (.single it children) = .ok events →
      (Sink.bytesOf (callsOf events)).length = it.getSize children
  position : ∀ events, c.dump = .ok events →
    starts 0 events = c.children.nodes.map fun it => (it.id, it.position)
  label : ∀ events, c.dump = .ok events → ∀ l pos, c.toFilePos l = .ok pos →
    ∃ ptr n, c.labels.lookup l = some (some ptr) ∧ (ptr.item, n) ∈ starts 0 events ∧
      pos = n + ptr.offset

/-- The table has no rows, or no fixed string without room for its NUL. -/
def Body.Roomy (b : Body) : Prop :=
  ∀ g, b = .gbnl g → g.messages = [] ∨ .fixString 0 ∉ g.type

theorem Body.needs_fixup {v : LabelView} {size : Nat} {b : Body}
    (hsize : b.fixup.ownSize < 2 ^ 32) (hroom : b.Roomy) :
    Needs v b.fixup.questions (b.fixup.dump v size) := by
  cases b with
  | gbnl g =>
      have hdumps := (Gbnl.dumps_recalcSize_iff hsize).mpr (hroom g rfl)
      exact iff_of_true hdumps (List.forall_mem_nil _)
  | _ => exact Body.needs v size fun _ h => by cases h

theorem ItemList.mem_fixup {pos : Nat} {f : ItemList} {it : Item} (h : it ∈ f.nodes) :
    ∃ it' ∈ (f.fixup pos).nodes, it'.body = it.body.fixup := by
  induction f generalizing pos with
  | nil => cases h
  | cons it' children siblings ihc ihs =>
      rw [Forest.nodes, List.mem_cons, List.mem_append] at h
      rw [fixup, Forest.nodes]
      rcases h with rfl | h | h
      · exact ⟨_, List.mem_cons_self, rfl⟩
      · obtain ⟨it'', hmem, hbody⟩ := ihc h
        exact ⟨it'', List.mem_cons_of_mem _ (List.mem_append_left _ hmem), hbody⟩
      · obtain ⟨it'', hmem, hbody⟩ := ihs h
        exact ⟨it'', List.mem_cons_of_mem _ (List.mem_append_right _ hmem), hbody⟩

namespace Context

variable {ctx : Context}

theorem writes_fixup : ∀ it ∈ ctx.fixup.children.nodes, ∀ size,
    Writes it.body.ownSize (it.body.dump ctx.fixup.view size) := by
  intro it hit size
  obtain ⟨it', -, hb⟩ := ItemList.body_fixup hit
  rw [hb]
  exact it'.body.writes _ size

variable (hsize : ctx.fixup.getSize < 2 ^ 32)

include hsize

theorem ownSize_fixup_lt {it : Item} (hit : it ∈ ctx.fixup.children.nodes) :
    it.body.ownSize < 2 ^ 32 := by
  have hle : it.body.ownSize ≤ ctx.fixup.getSize :=
    Forest.weight_le (fun it : Item => it.body.ownSize) hit
  exact hle.trans_lt hsize

theorem needs_fixup (hroom : ∀ it ∈ ctx.children.nodes, it.body.Roomy) :
    ∀ it ∈ ctx.fixup.children.nodes, ∀ size,
      Needs ctx.fixup.view it.body.questions (it.body.dump ctx.fixup.view size) := by
  intro it hit size
  have hlt := ownSize_fixup_lt hsize hit
  obtain ⟨it', hit', hb⟩ := ItemList.body_fixup hit
  rw [hb] at hlt ⊢
  exact Body.needs_fixup hlt (hroom it' hit')

theorem roomy_of_written (h : ctx.fixup.DumpedInPlace) {it : Item}
    (hit : it ∈ ctx.children.nodes) : it.body.Roomy := by
  intro g hg
  obtain ⟨it', hit', hb⟩ := ItemList.mem_fixup hit
  have hlt := ownSize_fixup_lt hsize hit'
  rw [hg] at hb
  rw [hb] at hlt
  obtain ⟨children, hmem⟩ := Forest.mem_nodes.mp hit'
  have hdumps := h.written it' children hmem
  rw [hb] at hdumps
  exact (Gbnl.dumps_recalcSize_iff hlt).mp (hdumps.mpr (List.forall_mem_nil _))

/-- After `Fixup` all items are dumped where their positions say, exactly when no message table
has rows with a fixed string of size 0. -/
theorem dumpedInPlace_fixup_iff : ctx.fixup.DumpedInPlace ↔
    ∀ it ∈ ctx.children.nodes, ∀ g, it.body = .gbnl g →
      g.messages = [] ∨ .fixString 0 ∉ g.type := by
  refine ⟨fun h it hit => roomy_of_written hsize h hit, fun hroom => ?_⟩
  have hlaid : ctx.fixup.children.Laid 0 := ItemList.laid_fixup 0 ctx.children
  have hneeds := needs_fixup hsize hroom
  refine ⟨?_, ?_, ?_, ?_, ?_⟩
  · intro it children hmem
    have hit := hneeds it (Forest.mem_nodes.mpr ⟨children, hmem⟩) (it.getSize children)
    exact hit.trans (forall₂_congr fun q _ => answers_iff q)
  · refine (ItemList.needs hneeds).trans ?_
    simp only [List.mem_flatMap, forall_exists_index, and_imp, answers_iff]
    exact ⟨fun h it hit q hq => h q it hit hq, fun h q it hit hq => h it hit q hq⟩
  · intro it children hmem events h
    obtain ⟨k, hk⟩ := Hole.exists_plug hmem
    have hin : ItemList.Laid _ (Forest.single it children) := Hole.laid_of_plug (hk ▸ hlaid)
    have hsub : ∀ it' ∈ (Forest.single it children).nodes, it' ∈ ctx.fixup.children.nodes := by
      intro it' hit'
      rw [hk, Hole.nodes_plug]
      exact List.mem_append_left _ (List.mem_append_right _ hit')
    exact (ItemList.dump_laid (fun it' hit' => writes_fixup it' (hsub it' hit')) hin h).1
  · intro events h
    exact (ItemList.dump_laid writes_fixup hlaid h).2
  · intro events h l pos hpos
    obtain ⟨⟨it, children, offset⟩, htarget, hpos⟩ := bind_eq_ok.mp hpos
    cases hpos
    obtain ⟨ptr, hptr, hfind, rfl⟩ := target_eq_ok htarget
    obtain ⟨hmem, hid⟩ := find?_some hfind
    refine ⟨ptr, it.position, hptr, ?_, rfl⟩
    rw [(ItemList.dump_laid writes_fixup hlaid h).2, ← hid]
    exact List.mem_map_of_mem (Forest.mem_nodes.mpr ⟨children, hmem⟩)

end Context

/-- A table of one text, as it is before its first `RecalcSize`. -/
def oneText : Gbnl :=
  { endian := .little, isGstl := false, flags := 0, field28 := 0, field30 := 0
    type := [.offsetString], messages := [[.offsetString [0x61] 0]], msgDescrSize := 0
    msgsSize := 0, realItemCount := 0
    typed := by decide }

/-- A call of itself, with the table as its data. -/
def selfCall : Context :=
  { children :=
      .cons { id := 0, position := 0, labels := [[0x61]], body := .instruction
                { params := [], opcodeTarget := .target [0x61] } }
        (.single { id := 1, position := 0, labels := [], body := .data
                    { type := 0, offsetUnit := 0, field8 := 1 } }
          (.single { id := 2, position := 0, labels := [], body := .gbnl oneText } .nil))
        (.single { id := 3, position := 0, labels := [], body := .eof } .nil)
    labels := (∅ : LabelsMap).insert [0x61] (some { item := 0, offset := 0 })
    pmap := ∅, nextId := 4 }

theorem selfCall_dumpedInPlace :
    selfCall.fixup.DumpedInPlace ∧ ∃ events, selfCall.fixup.dump = .ok events := by
  have hplace : selfCall.fixup.DumpedInPlace := by
    refine (Context.dumpedInPlace_fixup_iff (by decide)).mpr ?_
    simp [selfCall, Forest.single, Forest.nodes, oneText]
  have hlabel : selfCall.fixup.InPlace (.toFilePos [0x61]) :=
    (Context.answers_iff _).mp ⟨0, rfl⟩
  have hquestions : ∀ it ∈ selfCall.fixup.children.nodes, ∀ q ∈ it.body.questions,
      q = .toFilePos [0x61] := by decide
  exact ⟨hplace, hplace.dumps.mpr fun it hit q hq => hquestions it hit q hq ▸ hlabel⟩

/-- A message table whose only row is a fixed string of no bytes. -/
def emptyRowOnly : Context :=
  { children :=
      .single { id := 0, position := 0, labels := [], body := .gbnl Gbnl.emptyFixString } .nil
    labels := ∅, pmap := ∅, nextId := 1 }

/-- The string is copied with a limit of minus one. -/
theorem emptyRowOnly_not_dumpedInPlace : ¬ ∀ ctx : Context, ctx.fixup.getSize < 2 ^ 32 →
    ctx.fixup.DumpedInPlace := by
  intro hall
  have hquestions : ∀ it ∈ emptyRowOnly.fixup.children.nodes, it.body.questions = [] := by decide
  have hdumps : ∃ events, emptyRowOnly.fixup.dump = .ok events := by
    refine (hall emptyRowOnly (by decide)).dumps.mpr fun it hit q hq => ?_
    rw [hquestions it hit] at hq
    cases hq
  obtain ⟨events, hevents⟩ := hdumps
  have hfails : emptyRowOnly.fixup.dump = .error .undefinedBehaviour := rfl
  cases hfails.symm.trans hevents

end Neptools

import Neptools.Gbnl.Layout
import Neptools.Gbnl.TxtBlocks
import Mathlib.Data.List.TakeWhile

/-!
Importing what was exported from a table with other texts, with the blocks in
any order: the table gets these texts, and nothing else changes.
-/

namespace Neptools

open Lib

namespace Gbnl

/-! Tables with other texts. -/

theorem setText_setText (text' text : Bytes) (v : Value) :
    (v.setText text').setText text = v.setText text := by
  cases v with
  | fixString str =>
      have hlen : (strncpy text' (str.length - 1) ++ str.drop (str.length - 1)).length =
          str.length := by
        rw [List.length_append, length_strncpy, List.length_drop]
        omega
      have hdrop : (strncpy text' (str.length - 1) ++ str.drop (str.length - 1)).drop
          (str.length - 1) = str.drop (str.length - 1) :=
        List.drop_left' (length_strncpy text' (str.length - 1))
      simp only [Value.setText, hlen, hdrop]
  | _ => rfl

theorem isExported_key (v : Value) : v.key.isExported = v.isExported := by
  cases v with
  | _ => rfl

/-- The texts of the exported fields replaced. -/
def Value.edit (text : Bytes) (v : Value) : Value := if v.isExported then v.setText text else v

theorem type_edit (text : Bytes) (v : Value) : (v.edit text).type = v.type := by
  rw [Value.edit]
  split
  · exact type_setText text v
  · rfl

def editStruct (text : Nat → Bytes) (m : Struct) : Struct := m.mapIdx fun i v => v.edit (text i)

theorem type_editStruct (text : Nat → Bytes) (m : Struct) :
    Struct.type (editStruct text m) = Struct.type m :=
  map_mapIdx_of_eq (fun i v => type_edit (text i) v) m

theorem typed_edit (g : Gbnl) (text : Nat → Nat → Bytes) :
    ∀ m ∈ g.messages.mapIdx (fun j m => editStruct (text j) m), Struct.type m = g.type := by
  intro m hm
  have hmem := List.mem_map_of_mem (f := Struct.type) hm
  rw [map_mapIdx_of_eq fun j m => type_editStruct (text j) m] at hmem
  obtain ⟨m', hm', heq⟩ := List.mem_map.mp hmem
  rw [← heq, g.typed m' hm']

/-- `g` with `text j i` as the text of field `i` of message `j`, if it is exported. -/
def edit (g : Gbnl) (text : Nat → Nat → Bytes) : Gbnl :=
  { g with
    messages := g.messages.mapIdx fun j m => editStruct (text j) m
    typed := typed_edit g text }

theorem field_congr {g' g : Gbnl} (h : SameKeys g' g) {j i : Nat} {v : Value}
    (hv : field g j i = some v) :
    ∃ v', field g' j i = some v' ∧ v'.key = v.key ∧ v'.type = v.type := by
  obtain ⟨m, hm, hi⟩ := Option.bind_eq_some_iff.mp hv
  obtain ⟨m', hm', hkey⟩ := exists_message h hm
  have hkeys := congrArg (·[i]?) hkey
  simp only [List.getElem?_map, hi, Option.map_some] at hkeys
  obtain ⟨v', hv', hkey'⟩ := Option.map_eq_some_iff.mp hkeys
  have htypes : Struct.type m' = Struct.type m := by
    rw [g'.typed m' (List.mem_of_getElem? hm'), g.typed m (List.mem_of_getElem? hm), h.type]
  have htype := congrArg (·[i]?) htypes
  simp only [Struct.type, List.getElem?_map, hi, hv', Option.map_some, Option.some.injEq] at htype
  refine ⟨v', ?_, hkey', htype⟩
  rw [field, hm']
  exact hv'

/-! Reading all blocks. -/

/-- What is stored: the text without its last line end. -/
theorem store_eq {st : TxtState} {v : Value}
    (hmsg : st.msg = [] ∨ st.msg.getLast? = some 0x0a)
    (hv : field st.gbnl st.lastIndex st.pos = some v) (hexp : v.isExported = true)
    (hfix : v ≠ .fixString []) (hpos : st.pos ≠ npos) :
    st.store = .ok (st.gbnl.setText st.lastIndex st.pos st.msg.dropLast) := by
  obtain ⟨m, hm, hmi⟩ := Option.bind_eq_some_iff.mp hv
  rw [TxtState.store, if_neg hpos]
  simp only [require_of hmsg, ok_bind, hm, hmi]
  cases v with
  | offsetString str offset => rfl
  | fixString str =>
      have hne : str ≠ [] := fun h => hfix (h ▸ rfl)
      simp only [require_of hne, ok_bind]
      rfl
  | _ => cases hexp

/-- What an import needs to find the field of each block and to put a text into it. -/
structure Importable (g : Gbnl) (simple : Bool) (text : Nat → Nat → Bytes) : Prop where
  finds : FindsAll g simple
  /-- `item_count` is a `size_t`. -/
  count : g.type.length < 2 ^ 64
  /-- The search does not wrap, whatever message it starts at. -/
  messages : g.messages.length ≤ 2 ^ 63
  lines : ∀ j i v, field g j i = some v → v.isExported = true →
    NoSeparator (text j i) ∧ v.type ≠ .fixString 0

theorem Importable.congr {g' g : Gbnl} (h : SameKeys g' g) {simple : Bool}
    {text : Nat → Nat → Bytes} (himp : Importable g simple text) :
    Importable g' simple text := by
  refine ⟨findsAll_congr h himp.finds, h.type ▸ himp.count, h.length ▸ himp.messages,
    fun j i v hv hexp => ?_⟩
  obtain ⟨v', hv', hkey, htype⟩ := field_congr h.symm hv
  have hexp' : v'.isExported = true := by rw [← isExported_key, hkey, isExported_key, hexp]
  rw [← htype]
  exact himp.lines j i v' hv' hexp'

theorem mem_exports {g : Gbnl} {simple : Bool} {t : Nat × Nat × Int32} :
    t ∈ exports g simple ↔ Exported g simple t.1 t.2.1 t.2.2 := by
  constructor
  · intro h
    obtain ⟨⟨m, j⟩, hm, ht⟩ := List.mem_flatMap.mp h
    obtain ⟨⟨i, id⟩, hmem, rfl⟩ := List.mem_map.mp ht
    exact ⟨m, List.mem_zipIdx_iff_getElem?.mp hm, hmem⟩
  · rintro ⟨m, hm, hmem⟩
    refine List.mem_flatMap.mpr ⟨(m, t.1), List.mem_zipIdx_iff_getElem?.mpr hm, ?_⟩
    exact List.mem_map.mpr ⟨(t.2.1, t.2.2), hmem, rfl⟩

end Gbnl

end Neptools

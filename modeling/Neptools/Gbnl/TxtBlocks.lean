import Neptools.Gbnl.Txt

/-!
Reading a block of the text form: its field is found by the id alone, ids do not
depend on the texts, and the lines of a text are put together as they were.
-/

namespace Neptools

open Lib

namespace Gbnl

/-! Ids depend on the fields without their texts. -/

/-- A value without its text. -/
def Value.key : Value → Value
  | .offsetString _ offset => .offsetString [] offset
  | .fixString _ => .fixString []
  | v => v

/-- Tables that differ at most in their texts. -/
structure SameKeys (g' g : Gbnl) : Prop where
  type : g'.type = g.type
  isGstl : g'.isGstl = g.isGstl
  flags : g'.flags = g.flags
  field28 : g'.field28 = g.field28
  keys : g'.messages.map (List.map Value.key) = g.messages.map (List.map Value.key)

theorem SameKeys.refl (g : Gbnl) : SameKeys g g := ⟨rfl, rfl, rfl, rfl, rfl⟩

theorem SameKeys.symm {g' g : Gbnl} (h : SameKeys g' g) : SameKeys g g' :=
  ⟨h.type.symm, h.isGstl.symm, h.flags.symm, h.field28.symm, h.keys.symm⟩

theorem SameKeys.trans {g'' g' g : Gbnl} (h' : SameKeys g'' g') (h : SameKeys g' g) :
    SameKeys g'' g :=
  ⟨h'.type.trans h.type, h'.isGstl.trans h.isGstl, h'.flags.trans h.flags,
    h'.field28.trans h.field28, h'.keys.trans h.keys⟩

theorem key_setText (msg : Bytes) (v : Value) : (v.setText msg).key = v.key := by
  cases v with
  | _ => rfl

theorem sameKeys_setText (g : Gbnl) (index pos : Nat) (msg : Bytes) :
    SameKeys (g.setText index pos msg) g :=
  ⟨rfl, rfl, rfl, rfl,
    map_modify_of_eq (fun m => map_modify_of_eq (key_setText msg) m pos) g.messages index⟩

theorem columnId_key (g : Gbnl) (m : Struct) (i : Nat) :
    columnId g (m.map Value.key) i = columnId g m i := by
  rcases m with _ | ⟨a, _ | ⟨b, _ | ⟨c, _ | ⟨d, m⟩⟩⟩⟩
  · rfl
  · cases a with
    | _ => rfl
  · cases a with
    | _ => cases b with
      | _ => rfl
  · cases a with
    | _ => cases b with
      | _ => rfl
  · cases a with
    | _ => cases b with
      | _ => simp only [columnId, List.map_cons, Value.key, List.length_cons, List.length_map]

theorem getId_key (g : Gbnl) (simple : Bool) (m : Struct) (i j k : Nat) :
    getId g simple (m.map Value.key) i j k = getId g simple m i j k := by
  have hid : ∀ K, idFor g simple (m.map Value.key) i j K = idFor g simple m i j K := fun K => by
    rw [idFor, columnId_key, ← idFor]
  rw [getId, getId, List.getElem?_map]
  cases m[i]? with
  | none => rfl
  | some v =>
      cases v with
      | offsetString str offset =>
          simp only [Option.map_some, Value.key, hid]
      | fixString str =>
          simp only [Option.map_some, Value.key, hid]
      | _ => rfl

theorem getId_congr {g' g : Gbnl} (h : SameKeys g' g) (simple : Bool) (m : Struct)
    (i j k : Nat) : getId g' simple m i j k = getId g simple m i j k := by
  have hcol : columnId g' m i = columnId g m i := by
    simp only [columnId, h.isGstl]
  have hid : ∀ K, idFor g' simple m i j K = idFor g simple m i j K := fun K => by
    rw [idFor, hcol, ← idFor]
  have hbase : fixedBase g' = fixedBase g := by
    rw [fixedBase, fixedBase, h.flags, h.field28]
  rw [getId, getId, hbase]
  simp only [hid]

theorem ids_congr {g' g : Gbnl} (h : SameKeys g' g) (simple : Bool) {m' m : Struct}
    (hm : m'.map Value.key = m.map Value.key) (j : Nat) :
    ids g' simple m' j = ids g simple m j := by
  have hlen : m'.length = m.length := by
    have := congrArg List.length hm
    rwa [List.length_map, List.length_map] at this
  have hget : ∀ i k, getId g' simple m' i j k = getId g simple m i j k := fun i k => by
    rw [← getId_key, hm, getId_key, getId_congr h]
  have hfrom : ∀ n i k, idsFrom g' simple m' j n i k = idsFrom g simple m j n i k := by
    intro n
    induction n with
    | zero =>
        intro i k
        rfl
    | succ n ih =>
        intro i k
        rw [idsFrom, idsFrom, hget]
        simp only [ih]
  rw [ids, ids, hlen, hfrom]

theorem exists_message {g' g : Gbnl} (h : SameKeys g' g) {j : Nat} {m : Struct}
    (hm : g.messages[j]? = some m) :
    ∃ m', g'.messages[j]? = some m' ∧ m'.map Value.key = m.map Value.key := by
  have hkeys := congrArg (·[j]?) h.keys
  simp only [List.getElem?_map, hm, Option.map_some] at hkeys
  exact Option.map_eq_some_iff.mp hkeys

theorem exported_congr {g' g : Gbnl} (h : SameKeys g' g) {simple : Bool} {j i : Nat} {id : Int32}
    (he : Exported g simple j i id) : Exported g' simple j i id := by
  obtain ⟨m, hm, hmem⟩ := he
  obtain ⟨m', hm', hkey⟩ := exists_message h hm
  exact ⟨m', hm', (ids_congr h simple hkey j).symm ▸ hmem⟩

theorem SameKeys.length {g' g : Gbnl} (h : SameKeys g' g) :
    g'.messages.length = g.messages.length := by
  simpa using congrArg List.length h.keys

theorem findDst_congr {g' g : Gbnl} (h : SameKeys g' g) (simple : Bool) (id : Int32)
    (index : Nat) : findDst g' simple id index = findDst g simple id index := by
  have hsearch : searchAt g' id = searchAt g id := by
    funext j
    rw [searchAt, searchAt]
    cases hm : g.messages[j]? with
    | none =>
        have hm' : g'.messages[j]? = none := by simpa [h.length] using hm
        simp [hm']
    | some m =>
        obtain ⟨m', hm', hkey⟩ := exists_message h hm
        simp [hm', ids_congr h false hkey]
  cases simple with
  | true => rfl
  | false => rw [findDst_search, findDst_search, h.length, hsearch]

/-- A field is found in all tables with the same ids when it is in one. -/
theorem findsAll_congr {g' g : Gbnl} (h : SameKeys g' g) {simple : Bool}
    (hall : FindsAll g simple) : FindsAll g' simple := by
  intro j i id he index hindex
  rw [findDst_congr h]
  exact hall j i id (exported_congr h.symm he) index (h.length ▸ hindex)

def Value.isExported : Value → Bool
  | .offsetString _ offset => offset ≠ nilOffset
  | .fixString _ => true
  | _ => false

theorem getId_fst (g : Gbnl) (simple : Bool) (m : Struct) (i j k : Nat) :
    (getId g simple m i j k).1.isSome = (m[i]?).any Value.isExported := by
  rw [getId]
  cases m[i]? with
  | none => rfl
  | some v =>
      cases v with
      | offsetString str offset =>
          simp only [Option.any_some, Value.isExported]
          split
          · rename_i hnil
            exact (decide_eq_false fun hne => hne hnil).symm
          · rename_i hne
            exact (decide_eq_true hne).symm
      | _ => rfl

theorem exists_mem_idsFrom {g : Gbnl} {simple : Bool} {m : Struct} {j i n i₀ k₀ : Nat}
    (hlow : i₀ ≤ i) (hhigh : i < i₀ + n) (h : (m[i]?).any Value.isExported = true) :
    ∃ id, (i, id) ∈ idsFrom g simple m j n i₀ k₀ := by
  induction n generalizing i₀ k₀ with
  | zero => omega
  | succ n ih =>
      rw [idsFrom]
      by_cases hi : i = i₀
      · have hsome := getId_fst g simple m i j k₀
        rw [h, hi] at hsome
        split
        · rename_i id k hid
          exact ⟨id, hi ▸ List.mem_cons_self⟩
        · rename_i k hid
          rw [hid] at hsome
          cases hsome
      · split
        · rename_i id₀ k hid
          obtain ⟨id, hmem⟩ := @ih (i₀ + 1) k (by omega) (by omega)
          exact ⟨id, List.mem_cons_of_mem _ hmem⟩
        · exact ih (by omega) (by omega)

theorem exported_iff (g : Gbnl) (simple : Bool) (j i : Nat) :
    (∃ id, Exported g simple j i id) ↔ ∃ v, field g j i = some v ∧ v.isExported = true := by
  constructor
  · rintro ⟨id, m, hm, hmem⟩
    obtain ⟨k, hk, -⟩ := mem_idsFrom hmem
    have hsome := getId_fst g simple m i j k
    simp only at hk
    rw [hk, Option.isSome_some] at hsome
    obtain ⟨v, hv, hexp⟩ := (Option.any_eq_true _ _).mp hsome.symm
    refine ⟨v, ?_, hexp⟩
    rw [field, hm]
    exact hv
  · rintro ⟨v, hv, hexp⟩
    obtain ⟨m, hm, hi⟩ := Option.bind_eq_some_iff.mp hv
    have hlt := (List.getElem?_eq_some_iff.mp hi).1
    obtain ⟨id, hmem⟩ : ∃ id, (i, id) ∈ idsFrom g simple m j m.length 0 0 :=
      exists_mem_idsFrom (Nat.zero_le i) (by omega) (by rw [hi]; exact hexp)
    exact ⟨id, m, hm, hmem⟩

/-! Reading one block. -/

/-- No line starts with a separator. -/
def NoSeparator (text : Bytes) : Prop :=
  ∀ line ∈ text.splitOn 0x0a, ¬ sepDash <+: line ∧ ¬ sepDashUtf8 <+: line

end Gbnl

end Neptools

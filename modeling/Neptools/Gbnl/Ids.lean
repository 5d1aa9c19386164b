import Neptools.Gbnl.Basic
import Mathlib.Data.List.Nodup

/-!
The ids under which texts are exported, and the search for the field with a
given id. By default an id is made of the number of the string in its message
and of the message, except in some games where a column of the table has the
ids; the simple mode numbers all fields.
-/

namespace Neptools

namespace Gbnl

/-- The ids that some tables have in a column of their own. -/
def columnId (g : Gbnl) (m : Struct) (i : Nat) : Option Int32 :=
  if g.isGstl then
    match m with
    | [_, .int32 x, _] => some (x + if i = 0 then 100000 else 0)
    | _ => none
  else
    match m with
    | .int32 x :: _ =>
        if (i = 8 ∧ m.length = 9) ∨ (i = 105 ∧ m.length = 107) then some x else none
    | _ => none

/-- The end of `GetId`, for a field that is exported. -/
def idFor (g : Gbnl) (simple : Bool) (m : Struct) (i j thisK : Nat) : Int32 :=
  if simple then Int32.ofNat (i + j * 1000)
  else
    match columnId g m i with
    | some id => id
    | none => Int32.ofNat (thisK * 10000 + j)

/-- The base of the ids of fixed strings. -/
def fixedBase (g : Gbnl) : Nat := if g.flags ≠ 0 ∧ g.field28 ≠ 1 then 10000 else 0

/-- The id of field `i` of message `j`, and the counter of strings behind it. -/
def getId (g : Gbnl) (simple : Bool) (m : Struct) (i j k : Nat) : Option Int32 × Nat :=
  match m[i]? with
  | some (.offsetString _ offset) =>
      if offset = nilOffset then (none, k)
      else (some (idFor g simple m i j (k + 1)), k + 1)
  | some (.fixString _) => (some (idFor g simple m i j (fixedBase g)), k)
  | _ => (none, k)

/-- The loop over `n` fields of a message from field `i` on: the fields that
have an id, with their ids. -/
def idsFrom (g : Gbnl) (simple : Bool) (m : Struct) (j : Nat) :
    (n i k : Nat) → List (Nat × Int32)
  | 0, _, _ => []
  | n + 1, i, k =>
      match getId g simple m i j k with
      | (some id, k) => (i, id) :: idsFrom g simple m j n (i + 1) k
      | (none, k) => idsFrom g simple m j n (i + 1) k

def ids (g : Gbnl) (simple : Bool) (m : Struct) (j : Nat) : List (Nat × Int32) :=
  idsFrom g simple m j m.length 0 0

/-- A number converted to `size_t`. -/
def toSize (x : Int) : Nat := (x % 2 ^ 64).toNat

/-- `static_cast<size_t>(-1)`. -/
def npos : Nat := 2 ^ 64 - 1

/-- The field and the message with the given id. By default the messages are
searched from `index` on, in a circle; the sum is a `size_t`. -/
def findDst (g : Gbnl) (simple : Bool) (id : Int32) (index : Nat) : Nat × Nat :=
  if simple then (toSize (id.toInt.tmod 1000), toSize (id.toInt.tdiv 1000))
  else
    let size := g.messages.length
    let found := (List.range size).findSome? fun j => do
      let j := (index + j) % 2 ^ 64 % size
      let m ← g.messages[j]?
      let p ← (ids g false m j).find? fun p => p.2 = id
      pure (p.1, j)
    found.getD (npos, index)

/-- `WriteTxt_` exports field `i` of message `j` under `id`. -/
def Exported (g : Gbnl) (simple : Bool) (j i : Nat) (id : Int32) : Prop :=
  ∃ m, g.messages[j]? = some m ∧ (i, id) ∈ ids g simple m j

/-- No two fields are exported under one id. -/
def DistinctIds (g : Gbnl) (simple : Bool) : Prop :=
  ∀ j i j' i' id, Exported g simple j i id → Exported g simple j' i' id → j = j' ∧ i = i'

/-- The destination of every id is the field it was exported from, unless the
search starts where its index wraps. -/
def FindsAll (g : Gbnl) (simple : Bool) : Prop :=
  ∀ j i id, Exported g simple j i id →
    ∀ index, index + g.messages.length ≤ 2 ^ 64 → findDst g simple id index = (i, j)

theorem mem_idsFrom {g : Gbnl} {simple : Bool} {m : Struct} {j n i₀ k₀ : Nat} {p : Nat × Int32}
    (h : p ∈ idsFrom g simple m j n i₀ k₀) :
    ∃ k, getId g simple m p.1 j k = (some p.2, (getId g simple m p.1 j k).2) ∧ i₀ ≤ p.1 ∧
      p.1 < i₀ + n := by
  induction n generalizing i₀ k₀ with
  | zero => cases h
  | succ n ih =>
      rw [idsFrom] at h
      split at h
      · rename_i id k hid
        rcases List.mem_cons.mp h with rfl | h
        · exact ⟨k₀, by rw [hid], Nat.le_refl _, by omega⟩
        · obtain ⟨k', hk', hle, hlt⟩ := ih h
          exact ⟨k', hk', by omega, by omega⟩
      · obtain ⟨k', hk', hle, hlt⟩ := ih h
        exact ⟨k', hk', by omega, by omega⟩

/-- In the simple mode an id is the number of the field. -/
theorem getId_simple {g : Gbnl} {m : Struct} {i j k k' : Nat} {id : Int32}
    (h : getId g true m i j k = (some id, k')) : id = Int32.ofNat (i + j * 1000) := by
  rw [getId] at h
  split at h
  · split at h
    · cases h
    · cases h
      rfl
  · cases h
    rfl
  · cases h

theorem Exported.id_eq_simple {g : Gbnl} {j i : Nat} {id : Int32} (h : Exported g true j i id) :
    id = Int32.ofNat (i + j * 1000) := by
  obtain ⟨m, -, hmem⟩ := h
  obtain ⟨k, hk, -⟩ := mem_idsFrom hmem
  exact getId_simple hk

theorem toSize_natCast {n : Nat} (h : n < 2 ^ 64) : toSize n = n := by
  rw [toSize]
  omega

/-- A number that fits can be taken apart again. -/
theorem findDst_simple (g : Gbnl) {i j : Nat} (hi : i < 1000) (hfit : i + j * 1000 < 2 ^ 31)
    (index : Nat) : findDst g true (Int32.ofNat (i + j * 1000)) index = (i, j) := by
  have hint : (Int32.ofNat (i + j * 1000)).toInt = ((i + j * 1000 : Nat) : Int) :=
    Int32.toInt_ofNat_of_lt hfit
  have hmod : ((i + j * 1000 : Nat) : Int).tmod 1000 = (i : Int) := by
    rw [Int.tmod_eq_emod_of_nonneg (by omega)]
    omega
  have hdiv : ((i + j * 1000 : Nat) : Int).tdiv 1000 = (j : Int) := by
    rw [Int.tdiv_eq_ediv_of_nonneg (by omega)]
    omega
  rw [findDst, if_pos rfl, hint, hmod, hdiv, toSize_natCast (by omega), toSize_natCast (by omega)]

/-- The search goes round all messages when its index does not wrap. -/
theorem exists_round {size j : Nat} (hj : j < size) {index : Nat} (hindex : index + size ≤ 2 ^ 64) :
    ∃ t, t < size ∧ (index + t) % 2 ^ 64 % size = j := by
  have hlt := Nat.mod_lt index (by omega : 0 < size)
  refine ⟨(j + (size - index % size)) % size, Nat.mod_lt _ (by omega), ?_⟩
  have ht := Nat.mod_lt (j + (size - index % size)) (by omega : 0 < size)
  rw [Nat.mod_eq_of_lt (by omega : index + (j + (size - index % size)) % size < 2 ^ 64),
    Nat.add_mod, Nat.mod_mod, ← Nat.add_mod,
    show index + (j + (size - index % size)) = j + size * (index / size + 1) by
      have := Nat.div_add_mod index size
      rw [Nat.mul_add]
      omega,
    Nat.add_mul_mod_self_left, Nat.mod_eq_of_lt hj]

/-- One round of the search of `findDst`. -/
def searchAt (g : Gbnl) (id : Int32) (j : Nat) : Option (Nat × Nat) := do
  let m ← g.messages[j]?
  let p ← (ids g false m j).find? fun p => p.2 = id
  pure (p.1, j)

theorem exported_of_searchAt {g : Gbnl} {id : Int32} {j : Nat} {r : Nat × Nat}
    (h : searchAt g id j = some r) : Exported g false r.2 r.1 id := by
  rw [searchAt, Option.bind_eq_bind, Option.bind_eq_some_iff] at h
  obtain ⟨m, hm, h⟩ := h
  rw [Option.bind_eq_bind, Option.bind_eq_some_iff] at h
  obtain ⟨p, hp, h⟩ := h
  cases h
  have hid : p.2 = id := by simpa using List.find?_some hp
  exact ⟨m, hm, hid ▸ List.mem_of_find?_eq_some hp⟩

theorem searchAt_ne_none {g : Gbnl} {id : Int32} {j i : Nat} (h : Exported g false j i id) :
    searchAt g id j ≠ none := by
  obtain ⟨m, hm, hmem⟩ := h
  intro hnone
  have hfind : ((ids g false m j).find? fun p => p.2 = id) = none := by
    rw [searchAt, hm] at hnone
    cases hf : (ids g false m j).find? fun p => p.2 = id with
    | none => rfl
    | some p =>
        simp [hf] at hnone
  have := List.find?_eq_none.mp hfind _ hmem
  simp at this

/-- Without the simple mode, the rounds are made one after the other. -/
theorem findDst_search (g : Gbnl) (id : Int32) (index : Nat) :
    findDst g false id index = ((List.range g.messages.length).findSome? fun t =>
      searchAt g id ((index + t) % 2 ^ 64 % g.messages.length)).getD (npos, index) := rfl

theorem findsAll_of_distinctIds {g : Gbnl} (h : DistinctIds g false) : FindsAll g false := by
  intro j i id he index hindex
  have hj : j < g.messages.length := by
    obtain ⟨m, hm, -⟩ := he
    exact (List.getElem?_eq_some_iff.mp hm).1
  have hfound : (List.range g.messages.length).findSome?
      (fun t => searchAt g id ((index + t) % 2 ^ 64 % g.messages.length)) = some (i, j) := by
    cases hf : (List.range g.messages.length).findSome?
        (fun t => searchAt g id ((index + t) % 2 ^ 64 % g.messages.length)) with
    | none =>
        obtain ⟨t, ht, hround⟩ := exists_round hj hindex
        have := List.findSome?_eq_none_iff.mp hf t (List.mem_range.mpr ht)
        rw [hround] at this
        exact absurd this (searchAt_ne_none he)
    | some r =>
        obtain ⟨t, -, ht⟩ := List.exists_of_findSome?_eq_some hf
        obtain ⟨hj', hi'⟩ := h _ _ _ _ _ (exported_of_searchAt ht) he
        rw [← hj', ← hi']
  rw [findDst_search, hfound]
  rfl

/-- By default every id finds its field exactly when no id is given twice. -/
theorem findsAll_iff {g : Gbnl} (hcount : g.messages.length < 2 ^ 64) :
    FindsAll g false ↔ DistinctIds g false := by
  refine ⟨fun h j i j' i' id he he' => ?_, findsAll_of_distinctIds⟩
  have hstart : 0 + g.messages.length ≤ 2 ^ 64 := by omega
  have heq := (h j i id he 0 hstart).symm.trans (h j' i' id he' 0 hstart)
  exact ⟨congrArg Prod.snd heq, congrArg Prod.fst heq⟩

/-! Without a column of ids: sufficient bounds for the ids to be distinct. -/

/-- No field takes its id from a column. -/
def NoColumn (g : Gbnl) : Prop := ∀ m ∈ g.messages, ∀ i, columnId g m i = none

def FieldType.isString : FieldType → Bool
  | offsetString => true
  | _ => false

def FieldType.isFixString : FieldType → Bool
  | fixString _ => true
  | _ => false

/-- The fields that have an id, from field `i` on, with the number that the id
is made of. -/
def keysFrom (g : Gbnl) (i k : Nat) : Struct → List (Nat × Nat)
  | [] => []
  | .offsetString _ offset :: vs =>
      if offset = nilOffset then keysFrom g (i + 1) k vs
      else (i, k + 1) :: keysFrom g (i + 1) (k + 1) vs
  | .fixString _ :: vs => (i, fixedBase g) :: keysFrom g (i + 1) k vs
  | _ :: vs => keysFrom g (i + 1) k vs

theorem idsFrom_eq_keysFrom {g : Gbnl} {m : Struct} (h : ∀ i, columnId g m i = none)
    (j : Nat) {n i : Nat} (hn : i + n = m.length) (k : Nat) :
    idsFrom g false m j n i k =
      (keysFrom g i k (m.drop i)).map fun p => (p.1, Int32.ofNat (p.2 * 10000 + j)) := by
  have hid : ∀ i K, idFor g false m i j K = Int32.ofNat (K * 10000 + j) := fun i K => by
    rw [idFor, if_neg Bool.false_ne_true, h]
  induction n generalizing i k with
  | zero =>
      rw [List.drop_eq_nil_of_le (by omega)]
      rfl
  | succ n ih =>
      have hi : i < m.length := by omega
      have hrest := fun k => ih (i := i + 1) (by omega) k
      rw [List.drop_eq_getElem_cons hi, idsFrom, getId, List.getElem?_eq_getElem hi]
      cases m[i] with
      | offsetString str offset =>
          by_cases hnil : offset = nilOffset
          · simp only [keysFrom, if_pos hnil, hrest]
          · simp only [keysFrom, if_neg hnil, hrest, hid, List.map_cons]
      | fixString str => simp only [keysFrom, hrest, hid, List.map_cons]
      | _ => simp only [keysFrom, hrest]

/-- The number of strings, and of fixed strings, among the fields of a message. -/
def strings (m : Struct) : Nat := m.type.countP FieldType.isString
def fixStrings (m : Struct) : Nat := m.type.countP FieldType.isFixString

theorem strings_cons (v : Value) (vs : Struct) :
    strings (v :: vs) = strings vs + if v.type.isString then 1 else 0 := List.countP_cons

theorem fixStrings_cons (v : Value) (vs : Struct) :
    fixStrings (v :: vs) = fixStrings vs + if v.type.isFixString then 1 else 0 :=
  List.countP_cons

/-- Strings count up from `k`, fixed strings all have the base. -/
theorem keysFrom_mem {g : Gbnl} {vs : Struct} {i k : Nat} {p : Nat × Nat}
    (h : p ∈ keysFrom g i k vs) :
    (k < p.2 ∧ p.2 ≤ k + strings vs) ∨ (p.2 = fixedBase g ∧ 0 < fixStrings vs) := by
  induction vs generalizing i k with
  | nil => cases h
  | cons v vs ih =>
      have hs := strings_cons v vs
      have hf := fixStrings_cons v vs
      cases v with
      | offsetString str offset =>
          have hs : strings (.offsetString str offset :: vs) = strings vs + 1 := hs
          rw [keysFrom] at h
          split at h
          · have := ih h
            omega
          · rcases List.mem_cons.mp h with rfl | h
            · exact Or.inl ⟨Nat.lt_succ_self k, by simp only; omega⟩
            · have := ih h
              omega
      | fixString str =>
          have hf : fixStrings (.fixString str :: vs) = fixStrings vs + 1 := hf
          rcases List.mem_cons.mp h with rfl | h
          · exact Or.inr ⟨rfl, by omega⟩
          · have := ih h
            omega
      | _ =>
          have := ih h
          omega

/-- Numbers are given once when there is one fixed string at most and its base
is not reached by the strings. -/
theorem keysFrom_nodup {g : Gbnl} {vs : Struct} {i k : Nat} (hfix : fixStrings vs ≤ 1)
    (hbase : fixedBase g ≤ k ∨ k + strings vs < fixedBase g) :
    ((keysFrom g i k vs).map Prod.snd).Nodup := by
  induction vs generalizing i k with
  | nil => exact List.nodup_nil
  | cons v vs ih =>
      have hs := strings_cons v vs
      have hf := fixStrings_cons v vs
      cases v with
      | offsetString str offset =>
          have hs : strings (.offsetString str offset :: vs) = strings vs + 1 := hs
          rw [keysFrom]
          split
          · exact ih (by omega) (by omega)
          · rw [List.map_cons, List.nodup_cons]
            refine ⟨fun hmem => ?_, ih (by omega) (by omega)⟩
            obtain ⟨p, hp, heq⟩ := List.mem_map.mp hmem
            have := keysFrom_mem hp
            simp only at heq
            omega
      | fixString str =>
          have hf : fixStrings (.fixString str :: vs) = fixStrings vs + 1 := hf
          rw [keysFrom, List.map_cons, List.nodup_cons]
          refine ⟨fun hmem => ?_, ih (by omega) (by omega)⟩
          obtain ⟨p, hp, heq⟩ := List.mem_map.mp hmem
          have := keysFrom_mem hp
          simp only at heq
          omega
      | _ => exact ih (by omega) (by omega)

theorem keysFrom_of_exported {g : Gbnl} (h : NoColumn g) {j i : Nat} {id : Int32}
    (he : Exported g false j i id) :
    ∃ m, g.messages[j]? = some m ∧ ∃ K, (i, K) ∈ keysFrom g 0 0 m ∧
      id = Int32.ofNat (K * 10000 + j) := by
  obtain ⟨m, hm, hmem⟩ := he
  have hcol := h m (List.mem_of_getElem? hm)
  rw [ids, idsFrom_eq_keysFrom hcol j (Nat.zero_add _)] at hmem
  obtain ⟨⟨i', K⟩, hp, heq⟩ := List.mem_map.mp hmem
  cases heq
  exact ⟨m, hm, K, hp, rfl⟩

/-- Without a column of ids they are distinct as long as there is one fixed
string at most, and neither 10000 strings in a message nor more than 10000
messages. -/
theorem distinctIds_of_bounds {g : Gbnl} (hcol : NoColumn g)
    (hfix : g.type.countP FieldType.isFixString ≤ 1)
    (hstr : g.type.countP FieldType.isString < 10000) (hmsgs : g.messages.length ≤ 10000) :
    DistinctIds g false := by
  intro j i j' i' id he he'
  obtain ⟨m, hm, K, hK, rfl⟩ := keysFrom_of_exported hcol he
  obtain ⟨m', hm', K', hK', heq⟩ := keysFrom_of_exported hcol he'
  have hbase : fixedBase g ≤ 0 ∨ 0 + g.type.countP FieldType.isString < fixedBase g := by
    rw [fixedBase]
    split <;> omega
  have hbase' : fixedBase g ≤ 10000 := by
    rw [fixedBase]
    split <;> omega
  have htype := g.typed m (List.mem_of_getElem? hm)
  have htype' := g.typed m' (List.mem_of_getElem? hm')
  have hj := (List.getElem?_eq_some_iff.mp hm).1
  have hj' := (List.getElem?_eq_some_iff.mp hm').1
  have hle := keysFrom_mem hK
  have hle' := keysFrom_mem hK'
  rw [strings, fixStrings, htype] at hle
  rw [strings, fixStrings, htype'] at hle'
  simp only at hle hle'
  have hnat := congrArg Int32.toInt heq
  rw [Int32.toInt_ofNat_of_lt (by omega), Int32.toInt_ofNat_of_lt (by omega)] at hnat
  obtain ⟨rfl, rfl⟩ : j = j' ∧ K = K' := by omega
  cases hm.symm.trans hm'
  have hnodup : ((keysFrom g 0 0 m).map Prod.snd).Nodup := keysFrom_nodup
    (by rw [fixStrings, htype]; exact hfix) (by rw [strings, htype]; exact hbase)
  have := List.inj_on_of_nodup_map hnodup hK hK' rfl
  exact ⟨rfl, congrArg Prod.fst this⟩

/-- In the simple mode the fields among the first 1000 of a message whose ids
are below 2^31 are found, and only there ids are promised to be distinct. By
default the search finds all fields exactly when no id is given twice, for
which the bounds above suffice. -/
theorem findDst_exact (g : Gbnl) (hcount : g.messages.length < 2 ^ 64) :
    (∀ j i id, Exported g true j i id → i < 1000 → i + j * 1000 < 2 ^ 31 →
      ∀ index, findDst g true id index = (i, j)) ∧
    (FindsAll g false ↔ DistinctIds g false) ∧
    (NoColumn g → g.type.countP FieldType.isFixString ≤ 1 →
      g.type.countP FieldType.isString < 10000 → g.messages.length ≤ 10000 →
      DistinctIds g false) := by
  refine ⟨fun j i id he hi hfit index => ?_, findsAll_iff hcount,
    distinctIds_of_bounds⟩
  rw [he.id_eq_simple]
  exact findDst_simple g hi hfit index

/-- Three messages with a string each. -/
def threeTexts : Gbnl :=
  { endian := .little, isGstl := false, flags := 1, field28 := 0, field30 := 0
    type := [.offsetString]
    messages := [[.offsetString [0x61] 0], [.offsetString [0x62] 2], [.offsetString [0x63] 4]]
    msgDescrSize := 0, msgsSize := 0, realItemCount := 0
    typed := by decide }

theorem threeTexts_noColumn : NoColumn threeTexts := by
  intro m hm i
  revert m
  simp [threeTexts, columnId]

theorem threeTexts_findDst_exact :
    (∀ index, findDst threeTexts true 2000 index = (0, 2)) ∧ FindsAll threeTexts false ∧
      DistinctIds threeTexts false := by
  obtain ⟨hsimple, hdefault, hdistinct⟩ := findDst_exact threeTexts (by decide)
  have hids := hdistinct threeTexts_noColumn (by decide) (by decide) (by decide)
  exact ⟨hsimple 2 0 2000 ⟨_, rfl, by decide⟩ (by decide) (by decide), hdefault.mpr hids, hids⟩

/-- One message with two fixed strings. -/
def twoFixStrings : Gbnl :=
  { endian := .little, isGstl := false, flags := 0, field28 := 0, field30 := 0
    type := [.fixString 5, .fixString 5]
    messages := [[.fixString [0, 0, 0, 0, 0], .fixString [0, 0, 0, 0, 0]]]
    msgDescrSize := 0, msgsSize := 0, realItemCount := 0
    typed := by decide }

/-- Two fixed strings of a message have one id, and the second is not found. Where
the index wraps, a message is left out. -/
theorem fixStrings_share_id :
    (¬ ∀ (g : Gbnl) (simple : Bool), DistinctIds g simple ∧ FindsAll g simple) ∧
      DistinctIds threeTexts false ∧ Exported threeTexts false 2 0 10002 ∧
      findDst threeTexts false 10002 (2 ^ 64 - 1) = (npos, 2 ^ 64 - 1) := by
  refine ⟨fun h => ?_, ?_, ⟨_, rfl, by decide⟩, by decide⟩
  · have first : Exported twoFixStrings false 0 0 0 := ⟨_, rfl, by decide⟩
    have second : Exported twoFixStrings false 0 1 0 := ⟨_, rfl, by decide⟩
    have := ((h twoFixStrings false).1 0 0 0 1 0 first second).2
    exact absurd this (by decide)
  · exact distinctIds_of_bounds threeTexts_noColumn (by decide) (by decide) (by decide)

end Gbnl

end Neptools

import Neptools.Gbnl.Dump
import Neptools.Lib.Buffer

/-!
What `RecalcSize` followed by `Dump_` writes: rows of the computed size, the
descriptors of the real fields, and a string section in which every string of
every message stands at its offset.
-/

namespace Neptools

open Lib

namespace Gbnl

theorem length_writeDescr (e : Endian) {v : Value} (h : v.type ≠ .fixString 0) :
    (writeDescr e v).length = v.type.rowSize := by
  cases v with
  | fixString str =>
      have hlen : str.length ≠ 0 := fun h0 => h (by rw [Value.type, h0])
      rw [writeDescr, List.length_append, length_strncpy]
      change str.length - 1 + 1 = str.length
      omega
  | padding pad => rfl
  | _ => exact Pod.length_toBytes _

def rowBytes (e : Endian) (m : Struct) : Bytes := m.flatMap (writeDescr e)

theorem length_rowBytes (e : Endian) {m : Struct} (h : .fixString 0 ∉ m.type) :
    (rowBytes e m).length = (m.type.map FieldType.rowSize).sum := by
  induction m with
  | nil => rfl
  | cons v m ih =>
      rw [Struct.type, List.map_cons, List.mem_cons, not_or] at h
      have hv := length_writeDescr e (Ne.symm h.1)
      have hm := ih h.2
      rw [rowBytes] at hm
      rw [rowBytes, List.flatMap_cons, List.length_append, hv, hm]
      rfl

/-- Fields that have room in a buffer are written inside it, but for a fixed string
of size zero, whose `len - 1` wraps. -/
theorem inBuffer_of_room {size : Nat} {m : Struct} {offs : Nat}
    (htotal : offs + (m.type.map FieldType.rowSize).sum ≤ size) (hroom : .fixString 0 ∉ m.type) :
    InBuffer size offs m := by
  induction m generalizing offs with
  | nil => trivial
  | cons v m ih =>
      simp only [Struct.type, List.map_cons, List.sum_cons, List.mem_cons, not_or] at htotal hroom
      refine ⟨?_, ih (by simp only [Struct.type]; omega) hroom.2⟩
      cases v with
      | fixString str =>
          have hlen : str.length ≠ 0 := fun h0 => hroom.1 (by rw [Value.type, h0])
          have hrow : (Value.fixString str).type.rowSize = str.length := rfl
          rw [extent]
          omega
      | _ =>
          simp only [extent]
          omega

theorem no_empty_of_inBuffer {size : Nat} (hsize : size < 2 ^ 64) {m : Struct} {offs : Nat}
    (h : InBuffer size offs m) : .fixString 0 ∉ m.type := by
  induction m generalizing offs with
  | nil => exact List.not_mem_nil
  | cons v m ih =>
      rw [Struct.type, List.map_cons, List.mem_cons, not_or]
      refine ⟨fun heq => ?_, ih h.2⟩
      cases v with
      | fixString str =>
          have hlen : str.length = 0 := (FieldType.fixString.inj heq).symm
          have hext := h.1
          rw [extent, hlen] at hext
          omega
      | _ => cases heq

theorem length_recalcSize_messages (g : Gbnl) :
    g.recalcSize.messages.length = g.messages.length := by
  have := congrArg List.length (StringTable.type_placeMessages .empty g.messages)
  rwa [List.length_map, List.length_map] at this

/-- The rows that `Dump_` may write after `RecalcSize`. -/
theorem inBuffer_recalcSize {g : Gbnl} (hroom : g.messages = [] ∨ .fixString 0 ∉ g.type) :
    ∀ m ∈ g.recalcSize.messages, InBuffer g.recalcSize.msgDescrSize 0 m := by
  intro m hm
  have htype : m.type = g.type := g.recalcSize.typed m hm
  rcases hroom with hnil | hroom
  · have hlength := length_recalcSize_messages g
    rw [hnil] at hlength
    rw [List.eq_nil_of_length_eq_zero hlength] at hm
    cases hm
  · refine inBuffer_of_room ?_ (by rwa [htype])
    rw [htype, Nat.zero_add]
    exact le_rfl

/-- Rows that fill the buffer are written as they are. -/
theorem bytesOf_dumpRows (e : Endian) {n : Nat} {ms : List Struct}
    (h : ∀ m ∈ ms, (rowBytes e m).length = n) {msgd : Bytes} (hbuf : msgd.length = n) :
    Sink.bytesOf (dumpRows e n msgd ms) = ms.flatMap (rowBytes e) := by
  induction ms generalizing msgd with
  | nil => rfl
  | cons m ms ih =>
      have hm := h m List.mem_cons_self
      have hrow : overwrite msgd 0 (rowBytes e m) = rowBytes e m := by
        rw [overwrite, List.drop_eq_nil_of_le (by omega)]
        simp
      have hrest := ih (fun m' hm' => h m' (List.mem_cons_of_mem m hm')) hm
      change (overwrite msgd 0 (rowBytes e m)).take n ++
        Sink.bytesOf (dumpRows e n (overwrite msgd 0 (rowBytes e m)) ms) = _
      rw [hrow, hrest, List.take_of_length_le (Nat.le_of_eq hm), List.flatMap_cons]

theorem length_bytesOf_dumpRows (e : Endian) (n : Nat) (ms : List Struct) {msgd : Bytes}
    (hbuf : n ≤ msgd.length) :
    (Sink.bytesOf (dumpRows e n msgd ms)).length = n * ms.length := by
  induction ms generalizing msgd with
  | nil => rfl
  | cons m ms ih =>
      have hrow : n ≤ (overwrite msgd 0 (rowBytes e m)).length := by
        simp only [overwrite, List.length_append, List.length_drop]
        omega
      change ((overwrite msgd 0 (rowBytes e m)).take n ++
        Sink.bytesOf (dumpRows e n (overwrite msgd 0 (rowBytes e m)) ms)).length = _
      rw [List.length_append, List.length_take, Nat.min_eq_left hrow, ih hrow,
        List.length_cons, Nat.mul_add, Nat.mul_one, Nat.add_comm]

/-- The descriptors of the real fields of a list of types that starts at `offs`. -/
def descriptors (offs : Nat) : List FieldType → List TypeDescriptor
  | [] => []
  | t :: ts =>
      let rest := descriptors (offs + t.rowSize) ts
      if t.isReal then { type := descriptorType t, offset := UInt16.ofNat offs } :: rest
      else rest

theorem length_descriptors (offs : Nat) (ts : List FieldType) :
    (descriptors offs ts).length = ts.countP FieldType.isReal := by
  induction ts generalizing offs with
  | nil => rfl
  | cons t ts ih =>
      rw [descriptors, List.countP_cons]
      split
      · rw [List.length_cons, ih]
      · rw [ih]
        rfl

theorem bytesOf_dumpTypes (e : Endian) (offs : Nat) (ts : List FieldType) :
    Sink.bytesOf (dumpTypes e (UInt16.ofNat offs) ts) =
      (descriptors offs ts).flatMap fun d => toBytes (fromNative d e) := by
  induction ts generalizing offs with
  | nil => rfl
  | cons t ts ih =>
      rw [dumpTypes, descriptors, ← UInt16.ofNat_add]
      split
      · rw [Sink.bytesOf_cons, List.flatMap_cons, ih]
        rfl
      · exact ih _

/-- The string of a value, if it has one, stands at its offset in `section_`. -/
def Value.StandsIn (section_ : Bytes) : Value → Prop
  | .offsetString str offset =>
      offset = nilOffset ∨ StandsAt (str ++ [0]) offset.toNat section_
  | _ => True

theorem Value.StandsIn.append {text : Bytes} {v : Value} (h : v.StandsIn text) (more : Bytes) :
    v.StandsIn (text ++ more) := by
  cases v with
  | offsetString str offset => exact h.imp_right fun hs => hs.append_buf more
  | _ => trivial

namespace StringTable

/-- The text written so far holds every string of the table at its place. -/
structure Describes (t : StringTable) (text : Bytes) : Prop where
  length_eq : text.length = t.offset
  stands : ∀ str x, (str, x) ∈ t.offsetMap → StandsAt (str ++ [0]) x text

theorem describes_empty : Describes empty [] := ⟨rfl, fun _ _ h => nomatch h⟩

/-- The strings of the table, the last one first. -/
def strings (t : StringTable) : List Bytes := t.offsetMap.map Prod.fst

/-- An old string is where the table says, a new one goes to the end. -/
theorem place_spec {t : StringTable} {text : Bytes} (h : t.Describes text) (str : Bytes) :
    (StandsAt (str ++ [0]) (t.place str).1 text ∧ (t.place str).2 = t) ∨
    ((t.place str).1 = t.offset ∧ (t.place str).2.offset = t.offset + (str.length + 1) ∧
      (t.place str).2.strings = str :: t.strings ∧
      (t.place str).2.Describes (text ++ (str ++ [0]))) := by
  rw [place]
  cases hl : t.offsetMap.lookup str with
  | some x =>
      obtain ⟨pre, post, hmap, -⟩ := List.lookup_eq_some_iff.mp hl
      exact Or.inl ⟨h.stands str x (by simp [hmap]), rfl⟩
  | none =>
      refine Or.inr ⟨rfl, rfl, rfl, ?_, ?_⟩
      · simp only [List.length_append, List.length_singleton, h.length_eq]
      · intro str' x hx
        rcases List.mem_cons.mp hx with heq | hx
        · cases heq
          exact ⟨text, [], by simp, h.length_eq⟩
        · exact (h.stands str' x hx).append_buf _

theorem placeStruct_cons (t : StringTable) (v : Value) (vs : Struct) :
    t.placeStruct (v :: vs) =
      ((t.placeValue v).1 :: ((t.placeValue v).2.placeStruct vs).1,
        ((t.placeValue v).2.placeStruct vs).2) := rfl

theorem offset_le_placeStruct (t : StringTable) (vs : Struct) :
    t.offset ≤ (t.placeStruct vs).2.offset := by
  induction vs generalizing t with
  | nil => exact Nat.le_refl _
  | cons v vs ih =>
      have hv : t.offset ≤ (t.placeValue v).2.offset := by
        cases v with
        | offsetString str offset =>
            simp only [placeValue, place]
            split
            · exact Nat.le_refl _
            · split <;> simp
        | _ => exact Nat.le_refl _
      exact Nat.le_trans hv (ih _)

theorem placeStruct_append (t : StringTable) (vs ws : Struct) :
    t.placeStruct (vs ++ ws) =
      ((t.placeStruct vs).1 ++ ((t.placeStruct vs).2.placeStruct ws).1,
        ((t.placeStruct vs).2.placeStruct ws).2) := by
  induction vs generalizing t with
  | nil => rfl
  | cons v vs ih => simp only [List.cons_append, placeStruct, ih]

theorem placeMessages_flatten (t : StringTable) (ms : List Struct) :
    (t.placeMessages ms).1.flatten = (t.placeStruct ms.flatten).1 ∧
      (t.placeMessages ms).2 = (t.placeStruct ms.flatten).2 := by
  induction ms generalizing t with
  | nil => exact ⟨rfl, rfl⟩
  | cons m ms ih =>
      obtain ⟨h₁, h₂⟩ := ih (t.placeStruct m).2
      simp only [placeMessages, List.flatten_cons, placeStruct_append]
      exact ⟨by rw [h₁], h₂⟩

/-- `WriteCString`. -/
def writeCString (str : Bytes) : Sink.Call := .write (str ++ [0])

/-- `Dump_` writes a value's string where `RecalcSize` has just put it, and
nothing when it was there before. -/
theorem dumpStrings_placeValue {t : StringTable} {text : Bytes} (h : t.Describes text)
    (v : Value) (hsize : (t.placeValue v).2.offset < 2 ^ 32 - 1) :
    ∃ strs : List Bytes, (∀ ws, dumpStrings t.offset ((t.placeValue v).1 :: ws) =
        (strs.map writeCString ++ (dumpStrings (t.placeValue v).2.offset ws).1,
          (dumpStrings (t.placeValue v).2.offset ws).2)) ∧
      (t.placeValue v).2.strings = strs.reverse ++ t.strings ∧
      (t.placeValue v).2.Describes (text ++ Sink.bytesOf (strs.map writeCString)) ∧
      (t.placeValue v).1.StandsIn (text ++ Sink.bytesOf (strs.map writeCString)) := by
  have hsame : t.Describes (text ++ Sink.bytesOf (List.map writeCString [])) := by simpa using h
  cases v with
  | offsetString str offset =>
      by_cases hnil : offset = nilOffset
      · have hv : t.placeValue (.offsetString str offset) = (.offsetString str offset, t) :=
          if_pos hnil
        rw [hv] at hsize ⊢
        have hne : offset.toNat ≠ t.offset := by
          rw [hnil]
          exact Nat.ne_of_gt hsize
        exact ⟨[], fun ws => by simp only [dumpStrings, if_neg hne, List.map_nil, List.nil_append],
          rfl, hsame, Or.inl hnil⟩
      · have hv : t.placeValue (.offsetString str offset) =
            (.offsetString str (UInt32.ofNat (t.place str).1), (t.place str).2) := if_neg hnil
        rw [hv] at hsize ⊢
        simp only at hsize
        rcases place_spec h str with ⟨hst, heq⟩ | ⟨hx, hoff, hstrings, hd⟩
        · have hlt := hst.le
          simp only [List.length_append, List.length_singleton, h.length_eq] at hlt
          rw [heq] at hsize ⊢
          have hto : (UInt32.ofNat (t.place str).1).toNat = (t.place str).1 :=
            UInt32.toNat_ofNat_of_lt' (by change _ < 2 ^ 32; omega)
          have hne : (UInt32.ofNat (t.place str).1).toNat ≠ t.offset := by omega
          refine ⟨[], fun ws => by
            simp only [dumpStrings, if_neg hne, List.map_nil, List.nil_append], rfl, hsame,
            Or.inr ?_⟩
          rw [hto]
          simpa using hst
        · have hto : (UInt32.ofNat (t.place str).1).toNat = t.offset := by
            rw [hx]
            exact UInt32.toNat_ofNat_of_lt' (by change _ < 2 ^ 32; omega)
          refine ⟨[str], fun ws => ?_, hstrings, by simpa [writeCString] using hd, Or.inr ?_⟩
          · simp only [dumpStrings, if_pos hto, hoff, writeCString, List.map_cons, List.map_nil,
              List.singleton_append]
          · exact ⟨text, [], by simp [writeCString], by rw [hto]; exact h.length_eq⟩
  | _ => exact ⟨[], fun ws => rfl, rfl, hsame, trivial⟩

/-- The loop of `Dump_` over values that `RecalcSize` has placed writes each
new string and skips the others, so it ends where `RecalcSize` did. -/
theorem dumpStrings_placeStruct {t : StringTable} {text : Bytes} (h : t.Describes text)
    (vs : Struct) (hsize : (t.placeStruct vs).2.offset < 2 ^ 32 - 1) :
    ∃ strs : List Bytes, dumpStrings t.offset (t.placeStruct vs).1 =
        (strs.map writeCString, (t.placeStruct vs).2.offset) ∧
      (t.placeStruct vs).2.strings = strs.reverse ++ t.strings ∧
      (t.placeStruct vs).2.Describes (text ++ Sink.bytesOf (strs.map writeCString)) ∧
      ∀ v ∈ (t.placeStruct vs).1, v.StandsIn (text ++ Sink.bytesOf (strs.map writeCString)) := by
  induction vs generalizing t text with
  | nil =>
      exact ⟨[], rfl, rfl, by rwa [List.map_nil, Sink.bytesOf_nil, List.append_nil],
        fun _ hv => nomatch hv⟩
  | cons v vs ih =>
      have hle := offset_le_placeStruct (t.placeValue v).2 vs
      have hsize' : ((t.placeValue v).2.placeStruct vs).2.offset < 2 ^ 32 - 1 := hsize
      obtain ⟨strs, hcalls, hstrings, hd, hv⟩ := dumpStrings_placeValue h v (by omega)
      obtain ⟨strs', hcalls', hstrings', hd', hvs⟩ := ih hd hsize'
      rw [List.append_assoc, ← Sink.bytesOf_append, ← List.map_append] at hd' hvs
      refine ⟨strs ++ strs', ?_, ?_, hd', fun w hw => ?_⟩
      · rw [placeStruct_cons, hcalls, hcalls', List.map_append]
      · rw [placeStruct_cons, hstrings', hstrings, List.reverse_append, List.append_assoc]
      · rcases List.mem_cons.mp hw with rfl | hw
        · have := hv.append (Sink.bytesOf (strs'.map writeCString))
          rwa [List.append_assoc, ← Sink.bytesOf_append, ← List.map_append] at this
        · exact hvs w hw

end StringTable

def headerBytes (g : Gbnl) : Bytes := toBytes (fromNative g.header g.endian)

theorem bytesOf_dumpHeader (g : Gbnl) : Sink.bytesOf [g.dumpHeader] = g.headerBytes :=
  List.append_nil _

theorem length_headerBytes (g : Gbnl) : g.headerBytes.length = 0x40 :=
  Pod.length_toBytes _

def descriptorBytes (g : Gbnl) : Bytes :=
  (descriptors 0 g.type).flatMap fun d => toBytes (fromNative d g.endian)

theorem length_descriptorBytes (g : Gbnl) :
    g.descriptorBytes.length = 4 * g.type.countP FieldType.isReal := by
  rw [descriptorBytes, length_flatMap_of_length_eq fun _ _ => Pod.length_toBytes _,
    length_descriptors]
  rfl

def msgsEnd (g : Gbnl) : Nat := g.msgDescrSize * g.messages.length

def controlEnd (g : Gbnl) : Nat := g.align g.msgsEnd + 4 * g.realItemCount

/-- The given rows, the descriptors and the given strings. -/
def body (g : Gbnl) (rows text : Bytes) : Bytes :=
  rows ++ zeros (g.align g.msgsEnd - g.msgsEnd) ++
    g.descriptorBytes ++ zeros (g.align g.controlEnd - g.controlEnd) ++
    text ++ zeros (g.align g.msgsSize - g.msgsSize)

def layout (g : Gbnl) (rows text : Bytes) : Bytes :=
  if g.isGstl then g.headerBytes ++ g.body rows text else g.body rows text ++ g.headerBytes

/-- The strings that are written, with the offset behind them. -/
def stringsWritten (g : Gbnl) : Bytes × Nat :=
  let (calls, offset) := dumpStrings 0 g.messages.flatten
  (Sink.bytesOf calls, offset)

/-- `Dump_` is done when no row is left and the strings end where they should. -/
theorem dump_spec (g : Gbnl) (hrows : ∀ m ∈ g.messages, InBuffer g.msgDescrSize 0 m)
    (h : g.stringsWritten.2 = g.msgsSize) :
    ∃ calls, dump g = .ok calls ∧
      Sink.bytesOf calls = g.layout (Sink.bytesOf (dumpRows g.endian g.msgDescrSize
        (zeros g.msgDescrSize) g.messages)) g.stringsWritten.1 := by
  have hoffset : (dumpStrings 0 g.messages.flatten).2 = g.msgsSize := h
  have htypes : Sink.bytesOf (dumpTypes g.endian 0 g.type) = g.descriptorBytes :=
    bytesOf_dumpTypes g.endian 0 g.type
  rw [dump]
  simp only [require_of hrows, require_of hoffset, ok_bind, pure_eq_ok]
  refine ⟨_, rfl, ?_⟩
  simp only [Sink.bytesOf_append, Sink.bytesOf_cons, Sink.bytesOf_nil, Sink.Call.bytes_pad,
    List.append_nil, htypes, layout, body, hoffset, stringsWritten]
  cases g.isGstl with
  | false =>
      simp only [Bool.false_eq_true, if_false, Sink.bytesOf_nil, bytesOf_dumpHeader]
      rfl
  | true =>
      simp only [if_true, Sink.bytesOf_nil, bytesOf_dumpHeader, List.append_assoc,
        List.append_nil]
      rfl

theorem bytesOf_dump {g : Gbnl} {calls : List Sink.Call} (h : dump g = .ok calls) :
    g.stringsWritten.2 = g.msgsSize ∧
      Sink.bytesOf calls = g.layout (Sink.bytesOf (dumpRows g.endian g.msgDescrSize
        (zeros g.msgDescrSize) g.messages)) g.stringsWritten.1 := by
  obtain ⟨_, hrows, hrest⟩ := bind_eq_ok.mp h
  obtain ⟨_, hoffset, -⟩ := bind_eq_ok.mp hrest
  have hoffset : g.stringsWritten.2 = g.msgsSize := require_eq_ok.mp hoffset
  obtain ⟨calls', hcalls', hbytes⟩ := dump_spec g (require_eq_ok.mp hrows) hoffset
  cases h.symm.trans hcalls'
  exact ⟨hoffset, hbytes⟩

/-- The strings that are written after `RecalcSize` are those of its table, in the order in
which it has got them. -/
theorem stringsWritten_recalcSize (g : Gbnl) (hsize : g.recalcSize.msgsSize < 2 ^ 32 - 1) :
    ∃ strs : List Bytes, g.recalcSize.stringsWritten =
        (Sink.bytesOf (strs.map StringTable.writeCString), g.recalcSize.msgsSize) ∧
      (StringTable.empty.placeStruct g.messages.flatten).2.strings = strs.reverse ∧
      (Sink.bytesOf (strs.map StringTable.writeCString)).length = g.recalcSize.msgsSize ∧
      ∀ m ∈ g.recalcSize.messages, ∀ v ∈ m,
        v.StandsIn (Sink.bytesOf (strs.map StringTable.writeCString)) := by
  obtain ⟨hflat, htable⟩ := StringTable.placeMessages_flatten .empty g.messages
  have hoff : (StringTable.empty.placeStruct g.messages.flatten).2.offset =
      g.recalcSize.msgsSize := by
    rw [← htable]
    rfl
  obtain ⟨strs, hstrings, hkeys, hd, hstand⟩ := StringTable.dumpStrings_placeStruct
    StringTable.describes_empty g.messages.flatten (by rwa [hoff])
  rw [← hflat, hoff] at hstrings
  rw [List.nil_append] at hd hstand
  refine ⟨strs, congrArg (fun y : List Sink.Call × Nat => (Sink.bytesOf y.1, y.2)) hstrings,
    hkeys.trans (List.append_nil _), hd.length_eq.trans hoff, fun m hm v hv => ?_⟩
  apply hstand
  rw [← hflat]
  exact List.mem_flatten.mpr ⟨m, hm, hv⟩

/-- What is written after `RecalcSize`. -/
theorem dump_recalcSize (g : Gbnl) (hroom : g.messages = [] ∨ .fixString 0 ∉ g.type)
    (hsize : g.recalcSize.msgsSize < 2 ^ 32 - 1) :
    ∃ calls rows text, dump g.recalcSize = .ok calls ∧
      Sink.bytesOf calls = g.recalcSize.layout rows text ∧
      rows = Sink.bytesOf (dumpRows g.endian g.recalcSize.msgDescrSize
        (zeros g.recalcSize.msgDescrSize) g.recalcSize.messages) ∧
      text.length = g.recalcSize.msgsSize ∧
      ∀ m ∈ g.recalcSize.messages, ∀ v ∈ m, v.StandsIn text := by
  obtain ⟨strs, hwritten, -, hlength, hstand⟩ := stringsWritten_recalcSize g hsize
  obtain ⟨calls, hcalls, hbytes⟩ := dump_spec g.recalcSize (inBuffer_recalcSize hroom) (by rw [hwritten])
  rw [hwritten] at hbytes
  exact ⟨calls, _, _, hcalls, hbytes, rfl, hlength, hstand⟩

theorem getSize_eq (g : Gbnl) :
    g.getSize = g.align g.controlEnd + g.align g.msgsSize + sizeofHeader := by
  have hround : g.align (g.align g.controlEnd + g.msgsSize) =
      g.align g.controlEnd + g.align g.msgsSize := by
    simp only [align]
    split <;> omega
  change g.align (g.align g.controlEnd + g.msgsSize) + 0x40 = _
  rw [hround]
  rfl

/-- The position of the rows. -/
def base (g : Gbnl) : Nat := if g.isGstl then sizeofHeader else 0

theorem standsAt_layout {g : Gbnl} {rows text xs : Bytes} {i : Nat}
    (h : StandsAt xs i (g.body rows text)) : StandsAt xs (g.base + i) (g.layout rows text) := by
  rw [base, layout]
  cases g.isGstl with
  | false => simpa using h.append_buf g.headerBytes
  | true =>
      exact h.trans ⟨g.headerBytes, [], (List.append_nil _).symm, length_headerBytes g⟩

section

variable {g : Gbnl} {rows text : Bytes}

theorem rows_standsAt : StandsAt rows g.base (g.layout rows text) :=
  standsAt_layout ⟨[], _, by simp only [body, List.append_assoc, List.nil_append]; rfl, rfl⟩

variable (hrows : rows.length = g.msgsEnd)

include hrows

theorem descriptors_standsAt :
    StandsAt g.descriptorBytes (g.base + g.align g.msgsEnd) (g.layout rows text) := by
  have hle := g.le_align g.msgsEnd
  refine standsAt_layout ⟨rows ++ zeros (g.align g.msgsEnd - g.msgsEnd), _,
    by simp only [body, List.append_assoc]; rfl, ?_⟩
  rw [List.length_append, length_zeros, hrows]
  omega

variable (htypes : g.realItemCount = g.type.countP FieldType.isReal)

include htypes

theorem text_standsAt_body : StandsAt text (g.align g.controlEnd) (g.body rows text) := by
  have hle := g.le_align g.msgsEnd
  have hle' := g.le_align g.controlEnd
  have hctrl : g.controlEnd = g.align g.msgsEnd + 4 * g.realItemCount := rfl
  refine ⟨rows ++ zeros (g.align g.msgsEnd - g.msgsEnd) ++ g.descriptorBytes ++
    zeros (g.align g.controlEnd - g.controlEnd), zeros (g.align g.msgsSize - g.msgsSize),
    rfl, ?_⟩
  simp only [List.length_append, length_zeros, length_descriptorBytes, hrows, ← htypes]
  omega

theorem text_standsAt :
    StandsAt text (g.base + g.align g.controlEnd) (g.layout rows text) :=
  standsAt_layout (text_standsAt_body hrows htypes)

variable (htext : text.length = g.msgsSize)

include htext

theorem length_body :
    (g.body rows text).length = g.align g.controlEnd + g.align g.msgsSize := by
  have hle := g.le_align g.msgsEnd
  have hle' := g.le_align g.controlEnd
  have hle'' := g.le_align g.msgsSize
  have hctrl : g.controlEnd = g.align g.msgsEnd + 4 * g.realItemCount := rfl
  simp only [body, List.length_append, length_zeros, length_descriptorBytes, hrows, htext,
    ← htypes]
  omega

theorem length_layout : (g.layout rows text).length = g.getSize := by
  have hbody := length_body hrows htypes htext
  have hheader := length_headerBytes g
  rw [getSize_eq, layout]
  split
  · rw [List.length_append, hbody, hheader, Nat.add_comm]
    rfl
  · rw [List.length_append, hbody, hheader]
    rfl

theorem header_standsAt :
    StandsAt g.headerBytes (if g.isGstl then 0 else g.getSize - sizeofHeader)
      (g.layout rows text) := by
  have hbody := length_body hrows htypes htext
  rw [getSize_eq, layout]
  cases g.isGstl with
  | true => exact ⟨[], g.body rows text, rfl, rfl⟩
  | false =>
      exact ⟨g.body rows text, [], (List.append_nil _).symm,
        hbody.trans (Nat.add_sub_cancel _ _).symm⟩

end

theorem header_descrOffset (g : Gbnl) : g.header.descrOffset.toNat = g.base := by
  simp only [header, base]
  cases g.isGstl <;> rfl

section

variable {g : Gbnl} (hsize : g.getSize < 2 ^ 32)

include hsize

theorem header_offsetTypes : g.header.offsetTypes.toNat = g.base + g.align g.msgsEnd := by
  have hround : g.align (g.base + g.msgsEnd) = g.base + g.align g.msgsEnd := by
    simp only [align, base]
    cases g.isGstl <;> simp
  have hle := g.le_align g.controlEnd
  have hctrl : g.controlEnd = g.align g.msgsEnd + 4 * g.realItemCount := rfl
  have hbase : g.base ≤ sizeofHeader := by
    rw [base]
    split <;> simp [sizeofHeader]
  rw [getSize_eq] at hsize
  change (UInt32.ofNat (g.align (g.base + g.msgsEnd))).toNat = _
  rw [hround, UInt32.toNat_ofNat_of_lt' (by change _ < 2 ^ 32; omega)]

theorem header_offsetMsgs :
    g.header.offsetMsgs.toNat =
      if g.msgsSize ≠ 0 then g.base + g.align g.controlEnd else 0 := by
  have hround : g.align (g.align (g.base + g.msgsEnd) + 4 * g.realItemCount) =
      g.base + g.align g.controlEnd := by
    simp only [align, base, controlEnd]
    cases g.isGstl <;> simp [Nat.add_assoc]
  have hbase : g.base ≤ sizeofHeader := by
    rw [base]
    split <;> simp [sizeofHeader]
  rw [getSize_eq] at hsize
  change (if g.msgsSize ≠ 0 then
    UInt32.ofNat (g.align (g.align (g.base + g.msgsEnd) + 4 * g.realItemCount)) else 0).toNat = _
  rw [hround]
  split
  · rw [UInt32.toNat_ofNat_of_lt' (by change _ < 2 ^ 32; omega)]
  · rfl

theorem header_countTypes : g.header.countTypes.toNat = g.realItemCount := by
  have hle := g.le_align g.controlEnd
  have hctrl : g.controlEnd = g.align g.msgsEnd + 4 * g.realItemCount := rfl
  rw [getSize_eq] at hsize
  exact UInt32.toNat_ofNat_of_lt' (by change _ < 2 ^ 32; omega)

theorem msgsSize_lt : g.msgsSize < 2 ^ 32 - 1 := by
  have hle := g.le_align g.msgsSize
  have : sizeofHeader = 64 := rfl
  rw [getSize_eq] at hsize
  omega

end

theorem msgDescrSize_lt {g : Gbnl} (hsize : g.recalcSize.getSize < 2 ^ 32)
    (hne : g.messages ≠ []) : g.recalcSize.msgDescrSize < 2 ^ 32 := by
  have hpos : 0 < g.recalcSize.messages.length := by
    rw [length_recalcSize_messages]
    exact List.length_pos_of_ne_nil hne
  have hle := g.recalcSize.le_align g.recalcSize.msgsEnd
  have hle' := g.recalcSize.le_align g.recalcSize.controlEnd
  have hctrl : g.recalcSize.controlEnd =
      g.recalcSize.align g.recalcSize.msgsEnd + 4 * g.recalcSize.realItemCount := rfl
  have hend : g.recalcSize.msgDescrSize ≤ g.recalcSize.msgsEnd :=
    Nat.le_mul_of_pos_right _ hpos
  rw [getSize_eq] at hsize
  omega

/-- A fixed string without room for its NUL is what stops `Dump_`. -/
theorem inBuffer_recalcSize_iff {g : Gbnl} (hsize : g.recalcSize.getSize < 2 ^ 32) :
    (∀ m ∈ g.recalcSize.messages, InBuffer g.recalcSize.msgDescrSize 0 m) ↔
      g.messages = [] ∨ .fixString 0 ∉ g.type := by
  constructor
  · intro h
    by_cases hne : g.messages = []
    · exact .inl hne
    · have hlength := List.length_pos_of_ne_nil hne
      rw [← length_recalcSize_messages] at hlength
      have hfirst := List.getElem_mem hlength
      have hbuffer : g.recalcSize.msgDescrSize < 2 ^ 64 :=
        (msgDescrSize_lt hsize hne).trans (by decide)
      have htype : Struct.type g.recalcSize.messages[0] = g.type := g.recalcSize.typed _ hfirst
      exact .inr (htype ▸ no_empty_of_inBuffer hbuffer (h _ hfirst))
  · exact inBuffer_recalcSize

theorem dumps_recalcSize_iff {g : Gbnl} (hsize : g.recalcSize.getSize < 2 ^ 32) :
    (∃ calls, dump g.recalcSize = .ok calls) ↔ g.messages = [] ∨ .fixString 0 ∉ g.type := by
  rw [← inBuffer_recalcSize_iff hsize]
  constructor
  · rintro ⟨calls, hcalls⟩
    obtain ⟨_, hrows, -⟩ := bind_eq_ok.mp hcalls
    exact require_eq_ok.mp hrows
  · intro h
    obtain ⟨calls, -, -, hcalls, -⟩ :=
      dump_recalcSize g ((inBuffer_recalcSize_iff hsize).mp h) (msgsSize_lt hsize)
    exact ⟨calls, hcalls⟩

theorem length_bytesOf_dumpStrings (offset : Nat) (vs : List Value) :
    offset + (Sink.bytesOf (dumpStrings offset vs).1).length = (dumpStrings offset vs).2 := by
  induction vs generalizing offset with
  | nil => rfl
  | cons v vs ih =>
      cases v with
      | offsetString str ofs =>
          rw [dumpStrings]
          split
          · simp only [← ih, Sink.bytesOf_cons, Sink.Call.bytes_write, List.length_append,
              List.length_singleton, Nat.add_assoc]
          · exact ih offset
      | _ => exact ih offset

theorem length_stringsWritten (g : Gbnl) : g.stringsWritten.1.length = g.stringsWritten.2 := by
  rw [← Nat.zero_add g.stringsWritten.1.length]
  exact length_bytesOf_dumpStrings 0 g.messages.flatten

/-- What is written takes the size that was computed. -/
theorem length_of_dump {g : Gbnl} (htypes : g.realItemCount = g.type.countP FieldType.isReal)
    {calls : List Sink.Call} (h : dump g = .ok calls) :
    (Sink.bytesOf calls).length = g.getSize := by
  obtain ⟨hend, hbytes⟩ := bytesOf_dump h
  have hrows := length_bytesOf_dumpRows g.endian g.msgDescrSize g.messages
    (Nat.le_of_eq (length_zeros g.msgDescrSize).symm)
  rw [hbytes]
  exact length_layout hrows htypes ((length_stringsWritten g).trans hend)

end Gbnl

end Neptools

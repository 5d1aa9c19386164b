import Neptools.Gbnl.Repack
import Neptools.Gbnl.TxtRoundTrip
import Neptools.Lib.Align

/-!
Fixed strings in memory. A message is one block of memory with its fields one
behind the other. The text form and the listing take a fixed string for a
`char*`, which ends at the first NUL, be it in the field or behind it; the
accessor of the scripts stops at the end of the field.
-/

namespace Neptools

open Lib

namespace Gbnl

/-! Where fields are in memory. -/

/-- `sizeof(OffsetString)`, a string object and its offset. -/
def sizeofOffsetString : Nat := 40

def FieldType.sizeOf : FieldType → Nat
  | .offsetString => sizeofOffsetString
  | t => t.rowSize

def FieldType.alignOf : FieldType → Nat
  | .int8 => 1
  | .int16 => 2
  | .int32 => 4
  | .int64 => 8
  | .float => 4
  | .offsetString => 8
  | .fixString _ => 1
  | .padding _ => 1

/-- Where the field behind one at `offs` is: its end is rounded up to its own
alignment. -/
def nextOffset (offs : Nat) (t : FieldType) : Nat := roundUp t.alignOf (offs + t.sizeOf)

/-- The offset of field `i` when the first one is at `offs`. -/
def offsetFrom (offs : Nat) : Struct → Nat → Nat
  | v :: m, i + 1 => offsetFrom (nextOffset offs v.type) m i
  | _, _ => offs

/-- What is in memory beside the values of a message: string objects and gaps,
by their offset, and what is behind the message. -/
structure Surroundings where
  unset : Nat → UInt8
  behind : Bytes

def Surroundings.bytes (s : Surroundings) (offs n : Nat) : Bytes :=
  (List.range' offs n).map s.unset

/-- The bytes of a value, for those that are not objects of their own. -/
def Value.native : Value → Option Bytes
  | .int8 x => some (toBytes x.toUInt8)
  | .int16 x => some (toBytes x.toUInt16)
  | .int32 x => some (toBytes x.toUInt32)
  | .int64 x => some (toBytes x.toUInt64)
  | .float bits => some (toBytes bits)
  | .offsetString _ _ => none
  | .fixString str => some str
  | .padding pad => some pad

def Value.bytesAt (s : Surroundings) (offs : Nat) (v : Value) : Bytes :=
  v.native.getD (s.bytes offs sizeofOffsetString)

/-- The memory from the first of the fields on, which is at `offs`. -/
def image (s : Surroundings) (offs : Nat) : Struct → Bytes
  | [] => s.behind
  | v :: m =>
      let stop := offs + v.type.sizeOf
      let next := nextOffset offs v.type
      v.bytesAt s offs ++ (s.bytes stop (next - stop) ++ image s next m)

/-- The memory from field `i` on. -/
def fieldMemory (s : Surroundings) (m : Struct) (i : Nat) : Bytes :=
  (image s 0 m).drop (offsetFrom 0 m i)

/-! The readers. -/

/-- The text that a `char*` stands for. Without a NUL there is none. -/
def ofCharPtr (mem : Bytes) : Option Bytes :=
  if 0 ∈ mem then some (mem.takeWhile (· ≠ 0)) else none

def strnlen (mem : Bytes) (n : Nat) : Nat := ((mem.take n).takeWhile (· ≠ 0)).length

/-- `Push` of the accessor, with the size of the field. -/
def push (mem : Bytes) (size : Nat) : Bytes := mem.take (strnlen mem size)

/-- The text of a field in `WriteTxt_`. -/
def Value.textIn (mem : Bytes) : Value → Option Bytes
  | .offsetString str _ => some str
  | .fixString _ => ofCharPtr mem
  | _ => some []

/-- The text of a fixed string in `Inspect_`; `dumpBytes` quotes it. -/
def inspectFixString (dumpBytes : Bytes → Bytes) (mem : Bytes) : Option Bytes :=
  (ofCharPtr mem).map dumpBytes

/-- `WriteTxt_`, with what is in memory beside each message. -/
def writeTxtIn (s : Nat → Surroundings) (o : TxtOptions) (g : Gbnl) : Option Bytes := do
  let blocks ← (exports g o.simpleIds).mapM fun (j, i, id) => do
    let m ← g.messages[j]?
    let v ← m[i]?
    let str ← v.textIn (fieldMemory (s j) m i)
    pure (writeBlock (separator o g) o.simpleIds id str)
  pure (blocks.flatten ++ eofBlock o g)

/-- The bytes of a fixed string up to its first NUL, or all of them. -/
def ownText (str : Bytes) : Bytes := str.takeWhile (· ≠ 0)

/-- The text of every fixed string is made of its own bytes, whatever else is in
memory, and so is the text form of the table. -/
structure ReadsOwnBytes (dumpBytes : Bytes → Bytes) (g : Gbnl) : Prop where
  written : ∀ s o, writeTxtIn s o g = some (writeTxt o g)
  exported : ∀ m ∈ g.messages, ∀ i str, m[i]? = some (.fixString str) → ∀ s,
    (Value.fixString str).textIn (fieldMemory s m i) = some (ownText str)
  inspected : ∀ m ∈ g.messages, ∀ i str, m[i]? = some (.fixString str) → ∀ s,
    inspectFixString dumpBytes (fieldMemory s m i) = some (dumpBytes (ownText str))

/-- The first byte in memory of these fields is a zero. That of a string object
is not known. -/
def zeroFirst : Struct → Bool
  | [] => false
  | v :: m =>
      match v.native with
      | none => false
      | some [] => zeroFirst m
      | some (b :: _) => b = 0

/-- Every fixed string has a NUL, or the field behind it starts with a zero. -/
def Delimited (m : Struct) : Prop :=
  ∀ i str, m[i]? = some (.fixString str) → 0 ∈ str ∨ zeroFirst (m.drop (i + 1)) = true

/-! The memory of a field. -/

theorem FieldType.alignOf_pos (t : FieldType) : 0 < t.alignOf := by
  cases t with
  | _ => simp [alignOf]

theorem end_le_nextOffset (offs : Nat) (t : FieldType) : offs + t.sizeOf ≤ nextOffset offs t :=
  le_roundUp t.alignOf_pos _

theorem le_offsetFrom (offs : Nat) (m : Struct) (i : Nat) : offs ≤ offsetFrom offs m i := by
  induction m generalizing offs i with
  | nil => simp [offsetFrom]
  | cons v m ih =>
      cases i with
      | zero => simp [offsetFrom]
      | succ i =>
          have hend := end_le_nextOffset offs v.type
          have hrest := ih (nextOffset offs v.type) i
          simp only [offsetFrom]
          omega

theorem length_bytesAt (s : Surroundings) (offs : Nat) (v : Value) :
    (v.bytesAt s offs).length = v.type.sizeOf := by
  cases v with
  | offsetString str offset =>
      simp [Value.bytesAt, Value.native, Surroundings.bytes, Value.type, FieldType.sizeOf]
  | _ => rfl

/-- The memory from a field on is laid out like a message of the fields from it on. -/
theorem drop_image (s : Surroundings) (offs : Nat) (m : Struct) (i : Nat) :
    (image s offs m).drop (offsetFrom offs m i - offs) =
      image s (offsetFrom offs m i) (m.drop i) := by
  induction m generalizing offs i with
  | nil => simp [offsetFrom]
  | cons v m ih =>
      cases i with
      | zero => simp [offsetFrom]
      | succ i =>
          have hend := end_le_nextOffset offs v.type
          have hle := le_offsetFrom (nextOffset offs v.type) m i
          have hlength : (v.bytesAt s offs ++ s.bytes (offs + v.type.sizeOf)
              (nextOffset offs v.type - (offs + v.type.sizeOf))).length =
                nextOffset offs v.type - offs := by
            simp only [List.length_append, length_bytesAt, Surroundings.bytes, List.length_map,
              List.length_range']
            omega
          have hskip : offsetFrom offs (v :: m) (i + 1) - offs =
              (nextOffset offs v.type - offs) +
                (offsetFrom (nextOffset offs v.type) m i - nextOffset offs v.type) := by
            simp only [offsetFrom]
            omega
          rw [image, ← List.append_assoc, hskip, ← hlength, List.drop_length_add_append, ih]
          rfl

theorem image_fixString (s : Surroundings) (offs : Nat) (str : Bytes) (m : Struct) :
    image s offs (.fixString str :: m) = str ++ image s (offs + str.length) m := by
  have hnext : nextOffset offs (.fixString str.length) = offs + str.length :=
    roundUp_of_dvd Nat.one_pos (Nat.one_dvd _)
  simp [image, Value.type, hnext, FieldType.sizeOf, FieldType.rowSize, Value.bytesAt, Value.native,
    Surroundings.bytes]

/-- A fixed string stands in front of the fields behind it, without a gap. -/
theorem fieldMemory_fixString {m : Struct} {i : Nat} {str : Bytes}
    (h : m[i]? = some (.fixString str)) (s : Surroundings) :
    fieldMemory s m i =
      str ++ image s (offsetFrom 0 m i + str.length) (m.drop (i + 1)) := by
  obtain ⟨hlt, hget⟩ := List.getElem?_eq_some_iff.mp h
  have hdrop := drop_image s 0 m i
  rw [List.drop_eq_getElem_cons hlt, hget, image_fixString] at hdrop
  exact hdrop

/-- A value without bytes leaves no gap. -/
theorem nextOffset_of_nil {v : Value} (h : v.native = some []) (offs : Nat) :
    nextOffset offs v.type = offs ∧ v.type.sizeOf = 0 := by
  cases v with
  | fixString str =>
      obtain rfl : str = [] := Option.some.inj h
      exact ⟨roundUp_of_dvd Nat.one_pos (Nat.one_dvd _), rfl⟩
  | padding pad =>
      obtain rfl : pad = [] := Option.some.inj h
      exact ⟨roundUp_of_dvd Nat.one_pos (Nat.one_dvd _), rfl⟩
  | _ => cases h

/-- Only a first byte that is known to be zero is zero in every memory. -/
theorem zeroFirst_iff (m : Struct) (offs : Nat) :
    zeroFirst m = true ↔ ∀ s, (image s offs m).head? = some 0 := by
  induction m generalizing offs with
  | nil => simpa [zeroFirst, image] using ⟨⟨fun _ => 0, []⟩, by simp⟩
  | cons v m ih =>
      cases hnative : v.native with
      | none =>
          have hone : (image ⟨fun _ => 1, []⟩ offs (v :: m)).head? = some 1 := by
            simp [image, Value.bytesAt, hnative, Surroundings.bytes, sizeofOffsetString,
              List.range'_succ]
          refine iff_of_false (by simp [zeroFirst, hnative]) fun h => ?_
          cases hone.symm.trans (h ⟨fun _ => 1, []⟩)
      | some own =>
          cases own with
          | nil =>
              obtain ⟨hnext, hsize⟩ := nextOffset_of_nil hnative offs
              simpa [zeroFirst, image, hnative, Value.bytesAt, hnext, hsize,
                Surroundings.bytes] using ih offs
          | cons b own =>
              simp only [zeroFirst, image, hnative, Value.bytesAt, Option.getD_some,
                List.cons_append, List.head?_cons, Option.some.injEq, decide_eq_true_eq]
              exact ⟨fun h _ => h, fun h => h ⟨fun _ => 0, []⟩⟩

/-! The texts. -/

/-- What is behind a NUL does not belong to the text. -/
theorem takeWhile_append_of_mem {str : Bytes} (h : 0 ∈ str) (rest : Bytes) :
    (str ++ rest).takeWhile (· ≠ 0) = str.takeWhile (· ≠ 0) := by
  obtain ⟨text, tail, rfl, htext⟩ := List.eq_append_cons_of_mem h
  have hcut : ∀ tail : Bytes, (text ++ 0 :: tail).takeWhile (· ≠ 0) = text := fun tail =>
    takeWhile_append_ne_zero htext fun b hb => (Option.some.inj hb).symm
  rw [hcut, List.append_assoc, List.cons_append, hcut]

/-- A `char*` ends in a field exactly when there is a NUL in it or right behind it. -/
theorem ofCharPtr_append_iff (str rest : Bytes) :
    ofCharPtr (str ++ rest) = some (ownText str) ↔ 0 ∈ str ∨ rest.head? = some 0 := by
  by_cases hmem : 0 ∈ str
  · refine iff_of_true ?_ (Or.inl hmem)
    rw [ofCharPtr, if_pos (List.mem_append_left _ hmem), takeWhile_append_of_mem hmem, ownText]
  · have hne : ∀ b ∈ str, decide (b ≠ 0) = true := fun b hb =>
      decide_eq_true fun h0 => hmem (h0 ▸ hb)
    rw [ofCharPtr, List.takeWhile_append_of_pos hne, ownText, takeWhile_ne_zero hmem]
    cases rest with
    | nil => simp [hmem]
    | cons b rest =>
        by_cases hb : b = 0
        · simp [hb]
        · simp [hmem, hb]

/-- The accessor stays in the field. -/
theorem push_append (str rest : Bytes) : push (str ++ rest) str.length = ownText str := by
  have hprefix : ownText str <+: str := List.takeWhile_prefix _
  rw [push, strnlen, List.take_left, ← ownText, List.take_append_of_le_length hprefix.length_le]
  exact (List.prefix_iff_eq_take.mp hprefix).symm

/-- What is exported is what the table has for its texts, when each field is. -/
theorem writeTxtIn_eq {g : Gbnl} (h : ∀ m ∈ g.messages, ∀ i str, m[i]? = some (.fixString str) →
      ∀ s, ofCharPtr (fieldMemory s m i) = some (ownText str))
    (s : Nat → Surroundings) (o : TxtOptions) : writeTxtIn s o g = some (writeTxt o g) := by
  have hblock : ∀ t ∈ exports g o.simpleIds, (do
      let m ← g.messages[t.1]?
      let v ← m[t.2.1]?
      let str ← v.textIn (fieldMemory (s t.1) m t.2.1)
      pure (writeBlock (separator o g) o.simpleIds t.2.2 str)) =
        some (writeBlock (separator o g) o.simpleIds t.2.2 (textAt g t.1 t.2.1)) := by
    rintro ⟨j, i, id⟩ ht
    obtain ⟨v, hv, hexp⟩ := (exported_iff g o.simpleIds j i).mp ⟨id, mem_exports.mp ht⟩
    obtain ⟨m, hm, hi⟩ := Option.bind_eq_some_iff.mp hv
    have htext : v.textIn (fieldMemory (s j) m i) = some v.text := by
      cases v with
      | offsetString str offset => rfl
      | fixString str => exact h m (List.mem_of_getElem? hm) i str hi (s j)
      | _ => cases hexp
    simp [hm, hi, htext, textAt, hv]
  simp only [writeTxtIn, mapM_eq_some_map hblock, writeTxt, blocks]
  rfl

theorem readsOwnBytes_iff (dumpBytes : Bytes → Bytes) (g : Gbnl) :
    ReadsOwnBytes dumpBytes g ↔ ∀ m ∈ g.messages, Delimited m := by
  have hfield : ∀ m i str, m[i]? = some (.fixString str) →
      ((∀ s, ofCharPtr (fieldMemory s m i) = some (ownText str)) ↔
        0 ∈ str ∨ zeroFirst (m.drop (i + 1)) = true) := by
    intro m i str hstr
    simp only [fieldMemory_fixString hstr, ofCharPtr_append_iff, forall_or_left,
      ← zeroFirst_iff]
  constructor
  · intro h m hm i str hstr
    exact (hfield m i str hstr).mp (h.exported m hm i str hstr)
  · intro h
    have htext : ∀ m ∈ g.messages, ∀ i str, m[i]? = some (.fixString str) → ∀ s,
        ofCharPtr (fieldMemory s m i) = some (ownText str) := fun m hm i str hstr =>
      (hfield m i str hstr).mpr (h m hm i str hstr)
    exact ⟨writeTxtIn_eq htext, htext, fun m hm i str hstr s => by
      simp [inspectFixString, htext m hm i str hstr s]⟩

/-- What is exported and listed for the fixed strings of an accepted file depends on
their own bytes alone exactly when each of them is delimited. -/
theorem parse_readsOwnBytes_iff (dumpBytes : Bytes → Bytes) (src : Source) :
    (∀ g, parse src = .ok g → ReadsOwnBytes dumpBytes g ∧
        ∀ m ∈ g.messages, ∀ i str, m[i]? = some (.fixString str) → ∀ s,
          push (fieldMemory s m i) str.length = ownText str) ↔
      ∀ g, parse src = .ok g → ∀ m ∈ g.messages, Delimited m := by
  simp only [readsOwnBytes_iff]
  constructor
  · exact fun h g hg => (h g hg).1
  · refine fun h g hg => ⟨h g hg, fun m hm i str hstr s => ?_⟩
    rw [fieldMemory_fixString hstr, push_append]

/-- "abcde", without a NUL. -/
def fullRow : ByteArr 5 := ⟨[0x61, 0x62, 0x63, 0x64, 0x65], rfl⟩

theorem parse_fullRow :
    parse (.fromMemory (oneRow fullRow)) = .ok (oneFixString fullRow) := rfl

/-- The text goes on behind the field. -/
theorem fullRow_not_readsOwnBytes :
    ¬ ∀ (dumpBytes : Bytes → Bytes) (src : Source) (g : Gbnl), parse src = .ok g →
      ReadsOwnBytes dumpBytes g := by
  intro h
  have hown := (h id _ _ parse_fullRow).exported _ List.mem_cons_self 0 _ rfl
  exact absurd (hown ⟨fun _ => 0, [0x66, 0]⟩) (by decide)

end Gbnl

end Neptools

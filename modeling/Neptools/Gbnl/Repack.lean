import Mathlib.Data.List.TakeWhile
import Neptools.Gbnl.RoundTrip

/-!
Writing a table that was read and not changed. Column by column the rows are
compared with the bytes they were read from: the places of strings may change,
and fixed strings are terminated by zeros.
-/

namespace Neptools

open Lib

namespace Gbnl

/-- The bytes of a column are kept, but for strings. -/
def Kept (t : FieldType) (written read : Bytes) : Prop :=
  t ≠ .offsetString → written = read

/-- The bytes that a value which is not a string was read from. -/
def rawBytes (e : Endian) : Value → Bytes
  | .fixString str => str
  | v => writeDescr e v

/-- The columns of a message were read from `pos` on. -/
def ReadFrom (e : Endian) (data : Bytes) : Nat → Struct → Prop
  | _, [] => True
  | pos, v :: m =>
      (v.type ≠ .offsetString → StandsAt (rawBytes e v) pos data) ∧
        ReadFrom e data (pos + v.type.rowSize) m

/-- A field that was read stands where it was read from. -/
theorem readField_spec {e : Endian} {offsetMsgs : UInt32} {src src' : Source} {t : FieldType}
    {r : { v : Value // v.type = t }} (h : readField e offsetMsgs src t = .ok (r, src')) :
    (t ≠ .offsetString → StandsAt (rawBytes e r.1) src.get src.bytes) ∧
      src' = src.at_ (src.get + t.rowSize) := by
  cases t with
  | int8 =>
      obtain ⟨⟨x, src₁⟩, hread, h⟩ := bind_eq_ok.mp h
      cases h
      obtain ⟨hstand, hsrc⟩ := Source.readUint_spec hread
      exact ⟨fun _ => by simpa [rawBytes, writeDescr] using hstand, hsrc⟩
  | int16 =>
      obtain ⟨⟨x, src₁⟩, hread, h⟩ := bind_eq_ok.mp h
      cases h
      obtain ⟨hstand, hsrc⟩ := Source.readUint_spec hread
      exact ⟨fun _ => by simpa [rawBytes, writeDescr] using hstand, hsrc⟩
  | int32 =>
      obtain ⟨⟨x, src₁⟩, hread, h⟩ := bind_eq_ok.mp h
      cases h
      obtain ⟨hstand, hsrc⟩ := Source.readUint_spec hread
      exact ⟨fun _ => by simpa [rawBytes, writeDescr] using hstand, hsrc⟩
  | int64 =>
      obtain ⟨⟨x, src₁⟩, hread, h⟩ := bind_eq_ok.mp h
      cases h
      obtain ⟨hstand, hsrc⟩ := Source.readUint_spec hread
      exact ⟨fun _ => by simpa [rawBytes, writeDescr] using hstand, hsrc⟩
  | float =>
      obtain ⟨⟨x, src₁⟩, hread, h⟩ := bind_eq_ok.mp h
      cases h
      obtain ⟨hstand, hsrc⟩ := Source.readUint_spec hread
      exact ⟨fun _ => hstand, hsrc⟩
  | offsetString =>
      refine ⟨fun hne => absurd rfl hne, ?_⟩
      obtain ⟨⟨offs, src₁⟩, hread, h⟩ := bind_eq_ok.mp h
      obtain ⟨-, hsrc⟩ := Source.readUint_spec hread
      by_cases hnil : offs = 0xffffffff
      · simp only [if_pos hnil] at h
        cases h
        exact hsrc
      · simp only [if_neg hnil] at h
        obtain ⟨_, -, h⟩ := bind_eq_ok.mp h
        obtain ⟨_, -, h⟩ := bind_eq_ok.mp h
        cases h
        exact hsrc
  | fixString size =>
      obtain ⟨⟨buf, src₁⟩, hread, h⟩ := bind_eq_ok.mp h
      cases h
      obtain ⟨hstand, hsrc⟩ := Source.read_spec hread
      exact ⟨fun _ => hstand, hsrc⟩
  | padding size =>
      obtain ⟨⟨buf, src₁⟩, hread, h⟩ := bind_eq_ok.mp h
      cases h
      obtain ⟨hstand, hsrc⟩ := Source.read_spec hread
      exact ⟨fun _ => hstand, hsrc⟩

theorem readStruct_spec {e : Endian} {offsetMsgs : UInt32} {type : List FieldType}
    {src src' : Source} {m : { m : Struct // m.type = type }}
    (h : readStruct e offsetMsgs type src = .ok (m, src')) :
    ReadFrom e src.bytes src.get m.1 ∧ src'.bytes = src.bytes := by
  induction type generalizing src src' with
  | nil =>
      cases h
      exact ⟨trivial, rfl⟩
  | cons t ts ih =>
      obtain ⟨⟨v, src₁⟩, hv, h⟩ := bind_eq_ok.mp h
      obtain ⟨⟨vs, src₂⟩, hvs, h⟩ := bind_eq_ok.mp h
      cases h
      obtain ⟨hstand, rfl⟩ := readField_spec hv
      obtain ⟨hrest, hbytes⟩ := ih hvs
      refine ⟨⟨?_, ?_⟩, hbytes⟩
      · rw [v.2]
        exact hstand
      · rw [v.2]
        exact hrest

/-- Row `i` was read from the place that the header gives for it. -/
theorem readMessages_spec {e : Endian} {foot : Header} {type : List FieldType} {n : Nat}
    {msgs : UInt32} {src : Source} {ms : { ms : List Struct // ∀ m ∈ ms, m.type = type }}
    (h : readMessages e foot type n msgs src = .ok ms) :
    ms.1.length = n ∧ ∀ i m, ms.1[i]? = some m →
      ReadFrom e src.bytes (msgs + UInt32.ofNat i * foot.msgDescrSize).toNat m := by
  induction n generalizing msgs src ms with
  | zero =>
      cases h
      exact ⟨rfl, fun _ _ h => nomatch h⟩
  | succ n ih =>
      obtain ⟨src₁, hseek, h⟩ := bind_eq_ok.mp h
      obtain ⟨⟨m₀, src₂⟩, hm₀, h⟩ := bind_eq_ok.mp h
      obtain ⟨rest, hrest, h⟩ := bind_eq_ok.mp h
      cases h
      obtain ⟨-, rfl⟩ := Source.seek_spec hseek
      obtain ⟨hread, hbytes⟩ := readStruct_spec hm₀
      obtain ⟨hlen, hrows⟩ := ih hrest
      refine ⟨congrArg Nat.succ hlen, fun i m hm => ?_⟩
      cases i with
      | zero =>
          cases hm
          have hzero : msgs + UInt32.ofNat 0 * foot.msgDescrSize = msgs := by simp
          rw [hzero]
          exact hread
      | succ i =>
          have hrow := hrows i m hm
          rw [hbytes] at hrow
          have hnext : msgs + foot.msgDescrSize + UInt32.ofNat i * foot.msgDescrSize =
              msgs + UInt32.ofNat (i + 1) * foot.msgDescrSize := by
            rw [UInt32.ofNat_add, UInt32.add_mul, UInt32.add_assoc,
              UInt32.add_comm foot.msgDescrSize]
            congr 2
            exact (UInt32.one_mul _).symm
          rwa [hnext] at hrow

/-- Placing its strings leaves the other columns of a message as they were. -/
theorem ReadFrom.placeStruct {e : Endian} {data : Bytes} {m : Struct} :
    ∀ {pos : Nat} (t : StringTable), ReadFrom e data pos m →
      ReadFrom e data pos (t.placeStruct m).1 := by
  induction m with
  | nil => exact fun _ _ => trivial
  | cons v m ih =>
      intro pos t h
      rw [StringTable.placeStruct_cons]
      refine ⟨fun hne => ?_, ?_⟩
      · rw [StringTable.type_placeValue] at hne
        have hsame : (t.placeValue v).1 = v := by
          cases v with
          | offsetString str offset => exact absurd rfl hne
          | _ => rfl
        rw [hsame]
        exact h.1 hne
      · rw [StringTable.type_placeValue]
        exact ih _ h.2

/-- A table with one fixed string, as it is read. -/
def oneFixString (str : ByteArr 5) : Gbnl :=
  { endian := .little, isGstl := false, flags := 0, field28 := 0, field30 := 0
    type := [.fixString 5], messages := [[.fixString str.1]], msgDescrSize := 5
    msgsSize := 0, realItemCount := 1
    typed := fun m hm => by
      rw [List.mem_singleton.mp hm]
      exact congrArg (fun n => [FieldType.fixString n]) str.2 }

/-- A file with one row of five bytes. -/
def oneRow (row : ByteArr 5) : Bytes :=
  (oneFixString row).body row.1 [] ++ (oneFixString row).headerBytes

end Gbnl

end Neptools

import Mathlib.Data.FinEnum
import Neptools.Format.SplitDump

/-!
Strings among the data of an STCM file. Data whose only child is raw bytes is
taken for a string when the bytes are a text with zeros behind it; what stands
for it then is written from the text alone.
-/

namespace Neptools

open Lib

namespace Stcm

namespace StringDataItem

/-- The text in the bytes `src` of the only child of `d`. -/
def recognize (d : DataItem) (src : Source) : Except Error (Option Bytes) :=
  if d.type ≠ 0 ∨ d.offsetUnit ≤ 1 ∨ d.field8 ≠ 1 then pure none
  else if src.size ≠ (d.offsetUnit * 4).toNat then pure none
  else do
    let (s, src) ← src.readCString
    let padlen := ((d.offsetUnit * 4).toNat + 2 ^ 64 - (s.length + 1)) % 2 ^ 64
    if padlen > 4 then pure none
    else do
      let (pad, _) ← src.read padlen
      if ∀ b ∈ pad.1, b = 0 then pure (some s) else pure none

/-- The bytes of the only child, if it is a raw item. -/
def onlyRawChild : ItemList → Option Source
  | .cons child _ .nil =>
      match child.body with
      | .raw src => some src
      | _ => none
  | _ => none

theorem onlyRawChild_eq_some {children : ItemList} {src : Source}
    (h : onlyRawChild children = some src) :
    ∃ child ds, children = .single child ds ∧ child.body = .raw src := by
  match children with
  | .nil => cases h
  | .cons _ _ (.cons _ _ _) => cases h
  | .cons child ds .nil =>
      rw [onlyRawChild] at h
      split at h
      · rename_i hraw
        cases h
        exact ⟨child, ds, rfl, hraw⟩
      · cases h

def maybeCreateAndReplace (ctx : Context) (id : Nat) : Except Error (Context × Bool) := do
  let (it, children) ← ctx.get id
  match it.body, onlyRawChild children with
  | .data d, some src => do
      match ← recognize d src with
      | none => pure (ctx, false)
      | some s => do
          let (sit, ctx) := ctx.create (.stringData s)
          let ctx ← ctx.replace id sit .nil
          pure (ctx, true)
  | _, _ => pure (ctx, false)

/-- What is recognized is the text, its NUL and at most four zeros more. -/
theorem recognize_spec {d : DataItem} {src : Source} {s : Bytes}
    (h : recognize d src = .ok (some s)) :
    d.type = 0 ∧ d.field8 = 1 ∧ src.size = (d.offsetUnit * 4).toNat ∧ 0 ∉ s ∧
      ∃ padlen ≤ 4, src.bytes = s ++ zeros (1 + padlen) := by
  rw [recognize] at h
  split at h
  · cases h
  rename_i hkind
  split at h
  · cases h
  rename_i hsize
  obtain ⟨⟨s', src'⟩, hread, h⟩ := bind_eq_ok.mp h
  obtain ⟨hzero, hstand, rfl⟩ := Source.readCString_spec hread
  dsimp only at h
  split at h
  · cases h
  rename_i hpad
  obtain ⟨⟨⟨pad, hpadLen⟩, src''⟩, hread, h⟩ := bind_eq_ok.mp h
  have hpadStand : StandsAt pad (src.get + s'.length + 1) src.bytes :=
    (Source.read_spec hread).1
  dsimp only at h
  split at h
  swap
  · cases h
  rename_i hzeros
  cases h
  have hsize : src.size = (d.offsetUnit * 4).toNat := of_not_not hsize
  have hlt := UInt32.toNat_lt (d.offsetUnit * 4)
  have hfirst := hstand.le
  have hle := hpadStand.le
  rw [Source.length_bytes, List.length_append, List.length_singleton] at hfirst
  rw [Source.length_bytes] at hle
  -- the padding is as long as what is left behind the text, so the text is first
  have hget : src.get = 0 := by omega
  have hall : StandsAt (s ++ [0] ++ pad) 0 src.bytes := by
    refine StandsAt.append_iff.mpr ⟨hget ▸ hstand, ?_⟩
    rw [List.length_append, List.length_singleton]
    exact (show src.get + s.length + 1 = 0 + (s.length + 1) by omega) ▸ hpadStand
  have hbytes := hall.slice_eq
  rw [slice, List.drop_zero, List.take_of_length_le (by
    rw [Source.length_bytes, List.length_append, List.length_append, List.length_singleton]
    omega)] at hbytes
  have hpadZeros : pad = zeros pad.length := List.eq_replicate_of_mem hzeros
  refine ⟨?_, ?_, hsize, hzero, pad.length, by omega, ?_⟩
  · exact not_not.mp fun h => hkind (Or.inl h)
  · exact not_not.mp fun h => hkind (Or.inr (Or.inr h))
  · rw [hbytes, List.append_assoc, hpadZeros, length_zeros, ← zeros_append]
    rfl

/-- The header that is written for a text. -/
def header (s : Bytes) : DataItem.Header :=
  { type := 0, offsetUnit := UInt32.ofNat (paddedLength s / 4), field8 := 1
    length := UInt32.ofNat (paddedLength s) }

theorem dumpBytes_stringData (v : LabelView) {n : Item} {s : Bytes} (hn : n.body = .stringData s) :
    ItemList.dumpBytes v (.single n .nil) =
      .ok (toBytes (header s) ++ (s ++ zeros (paddedLength s - s.length))) := by
  rw [Forest.single, ItemList.dumpBytes_cons, hn]
  have hnil : ItemList.dumpBytes v .nil = .ok [] := rfl
  simp only [Body.dump, dump, pure_eq_ok, ok_bind, hnil, List.append_nil, Sink.bytesOf_cons,
    Sink.bytesOf_nil, Sink.Call.bytes_write, Sink.Call.bytes_pad]
  rfl

theorem getSize_data {it child : Item} {d : DataItem} {src : Source} (hd : it.body = .data d)
    (hraw : child.body = .raw src) :
    it.getSize (.single child .nil) = Pod.size DataItem.Header + src.size := by
  rw [Item.getSize, hd, ItemList.getSize, Forest.single, Forest.weight, hraw]
  rfl

theorem dumpBytes_data (v : LabelView) {it child : Item} {d : DataItem} {src : Source}
    (hd : it.body = .data d) (hraw : child.body = .raw src) :
    ItemList.dumpBytes v (.single it (.single child .nil)) =
      .ok (toBytes { type := d.type, offsetUnit := d.offsetUnit, field8 := d.field8
                     length := UInt32.ofNat src.size : DataItem.Header } ++ src.bytes) := by
  rw [Forest.single, ItemList.dumpBytes_cons, getSize_data hd hraw, hd,
    ItemList.dumpBytes_raw v hraw]
  have hnil : ItemList.dumpBytes v .nil = .ok [] := rfl
  simp only [Body.dump, DataItem.dump, pure_eq_ok, ok_bind, hnil, List.append_nil,
    Sink.bytesOf_cons, Sink.bytesOf_nil, Sink.Call.bytes_write, Nat.add_sub_cancel_left]

/-- The text and the NUL fill the bytes up to a multiple of four. -/
def Snug (d : DataItem) (src : Source) : Prop :=
  d.offsetUnit.toNat < 2 ^ 30 ∧ src.size < (src.bytes.takeWhile (· ≠ 0)).length + 5

theorem same_iff {d : DataItem} {src : Source} {s : Bytes} (h : recognize d src = .ok (some s)) :
    (paddedLength s = src.size ∧
      toBytes (header s) ++ (s ++ zeros (paddedLength s - s.length)) =
        toBytes { type := d.type, offsetUnit := d.offsetUnit, field8 := d.field8
                  length := UInt32.ofNat src.size : DataItem.Header } ++ src.bytes) ↔
      Snug d src := by
  obtain ⟨htype, hfield8, hsize, hzero, padlen, hpad, hbytes⟩ := recognize_spec h
  have hlen : src.size = s.length + (1 + padlen) := by
    rw [← Source.length_bytes, hbytes, List.length_append, length_zeros]
  have hunit : (d.offsetUnit * 4).toNat = d.offsetUnit.toNat * 4 % 2 ^ 32 :=
    UInt32.toNat_mul d.offsetUnit 4
  rw [Snug, hbytes, takeWhile_append_zeros hzero]
  constructor
  · rintro ⟨hpadded, hsame⟩
    have hheader := congrArg (Pod.ofBytes : Bytes → DataItem.Header)
      (List.append_inj hsame (by simp)).1
    rw [Pod.ofBytes_toBytes, Pod.ofBytes_toBytes] at hheader
    have hoffset : UInt32.ofNat (paddedLength s / 4) = d.offsetUnit :=
      congrArg DataItem.Header.offsetUnit hheader
    have hlt := UInt32.toNat_lt (d.offsetUnit * 4)
    rw [← hoffset, UInt32.toNat_ofNat_of_lt' (show paddedLength s / 4 < 2 ^ 32 by omega)]
    exact ⟨by omega, by rw [paddedLength] at hpadded; omega⟩
  · rintro ⟨hlt, hsnug⟩
    have hpadded : paddedLength s = src.size := by
      rw [paddedLength]
      omega
    have hoffset : UInt32.ofNat (paddedLength s / 4) = d.offsetUnit := by
      refine UInt32.toNat_inj.mp ?_
      rw [UInt32.toNat_ofNat_of_lt' (show paddedLength s / 4 < 2 ^ 32 by omega)]
      omega
    refine ⟨hpadded, ?_⟩
    rw [header, hoffset, hpadded, htype, hfield8, show src.size - s.length = 1 + padlen by omega]

/-- Two lists of items have one size, and write the same bytes. -/
def WriteAlike (v : LabelView) (f g : ItemList) : Prop :=
  f.getSize = g.getSize ∧ f.dumpBytes v = g.dumpBytes v

theorem writeAlike_iff (v : LabelView) {n it child : Item} {d : DataItem} {src : Source} {s : Bytes}
    (hn : n.body = .stringData s) (hd : it.body = .data d) (hraw : child.body = .raw src)
    (h : recognize d src = .ok (some s)) :
    WriteAlike v (.single n .nil) (.single it (.single child .nil)) ↔ Snug d src := by
  have hsize : ItemList.getSize (.single n .nil) =
      Pod.size DataItem.Header + paddedLength s := by
    rw [ItemList.getSize, Forest.single, Forest.weight, hn]
    rfl
  have hsize' : ItemList.getSize (.single it (.single child .nil)) =
      Pod.size DataItem.Header + src.size := by
    rw [← getSize_data hd hraw]
    rfl
  rw [← same_iff h, WriteAlike, hsize, hsize', dumpBytes_stringData v hn, dumpBytes_data v hd hraw,
    Nat.add_left_cancel_iff, Except.ok.injEq]

/-- The string that data is replaced by writes what the data did when it is
padded as strings are. -/
theorem replaced_writeAlike_iff {ctx ctx' : Context} {id : Nat} {it child : Item} {d : DataItem}
    {src : Source} (hget : ctx.get id = .ok (it, .single child .nil)) (hd : it.body = .data d)
    (hraw : child.body = .raw src) (h : maybeCreateAndReplace ctx id = .ok (ctx', true)) :
    ∃ s, (ctx.create (.stringData s)).2.replace id (ctx.create (.stringData s)).1 .nil = .ok ctx' ∧
      ∀ v, WriteAlike v (.single (ctx.create (.stringData s)).1 .nil)
        (.single it (.single child .nil)) ↔ Snug d src := by
  have honly : onlyRawChild (.single child .nil) = some src := by
    rw [Forest.single, onlyRawChild, hraw]
  rw [maybeCreateAndReplace, hget, ok_bind] at h
  simp only [hd, honly] at h
  obtain ⟨found, hfound, h⟩ := bind_eq_ok.mp h
  cases found with
  | none => cases h
  | some s =>
      obtain ⟨ctx₁, hreplace, h⟩ := bind_eq_ok.mp h
      cases h
      exact ⟨s, hreplace, fun v => writeAlike_iff v rfl hd hraw hfound⟩

/-- Data of `unit` words with the given bytes, and nothing else. -/
def dataOf (unit : UInt32) (bytes : Bytes) : Item × Item :=
  ({ id := 0, position := 0, labels := [], body := .data { type := 0, offsetUnit := unit, field8 := 1 } },
    { id := 1, position := 16, labels := [], body := .raw (.fromMemory bytes) })

def contextOf (x : Item × Item) : Context :=
  { children := .single x.1 (.single x.2 .nil), labels := ∅, pmap := ∅, nextId := 2 }

/-- "abcdef" -/
def sixLetters : Item × Item := dataOf 2 [0x61, 0x62, 0x63, 0x64, 0x65, 0x66, 0, 0]

theorem replaced_sixLetters :
    ∃ ctx' s, ((contextOf sixLetters).create (.stringData s)).2.replace 0
        ((contextOf sixLetters).create (.stringData s)).1 .nil = .ok ctx' ∧
      ∀ v, WriteAlike v (.single ((contextOf sixLetters).create (.stringData s)).1 .nil)
        (.single sixLetters.1 (.single sixLetters.2 .nil)) ↔
          Snug { type := 0, offsetUnit := 2, field8 := 1 }
            (.fromMemory [0x61, 0x62, 0x63, 0x64, 0x65, 0x66, 0, 0]) := by
  have hreplaced : (maybeCreateAndReplace (contextOf sixLetters) 0).toOption.map Prod.snd =
      some true := by decide +kernel
  obtain ⟨⟨ctx', _⟩, h, rfl⟩ := exists_ok_of_toOption hreplaced
  exact ⟨ctx', replaced_writeAlike_iff (show (contextOf sixLetters).get 0 =
    .ok (sixLetters.1, .single sixLetters.2 .nil) from rfl) rfl rfl h⟩

/-- "abc": the fourth zero behind the NUL is a word of its own. -/
def threeLetters : Item × Item := dataOf 2 [0x61, 0x62, 0x63, 0, 0, 0, 0, 0]

theorem replaced_threeLetters :
    ((maybeCreateAndReplace (contextOf threeLetters) 0).map fun x => (x.1.getSize, x.2)) =
      .ok (20, true) ∧ (contextOf threeLetters).getSize = 24 := by
  decide +kernel

end StringDataItem

end Stcm

end Neptools

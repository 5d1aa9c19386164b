import Mathlib.Data.List.TakeWhile
import Neptools.Endian
import Neptools.Lib.Access
import Neptools.Utils

/-!
Sources: a window on the bytes of a file, with a read position. What a provider
caches and in which chunks it hands the file out does not show in the bytes
read, so the file is just its bytes here. The checks name the exception they
were written with; whether it is thrown or asserted is up to the caller.
-/

namespace Neptools

open Lib

def validateField (what cond : String) (p : Prop) [Decidable p] : Except Error Unit :=
  require p (Error.decodeError (what ++ ": " ++ cond))

theorem validateField_of {p : Prop} [Decidable p] (h : p) (what cond : String) :
    validateField what cond p = .ok () := require_of h _

/-- An exception, not a failed assertion. -/
def Error.Thrown (e : Error) : Prop := ∃ message, e = .decodeError message

theorem not_thrown_overflow (message : String) : ¬ (Error.sourceOverflow message).Thrown :=
  fun ⟨_, h⟩ => nomatch h

theorem not_thrown_assertion (cond : String) : ¬ (Error.assertionFailed cond).Thrown :=
  fun ⟨_, h⟩ => nomatch h

theorem not_thrown_undefined : ¬ Error.undefinedBehaviour.Thrown := fun ⟨_, h⟩ => nomatch h

theorem not_overran_validateField {what cond : String} {p : Prop} [Decidable p] :
    ¬ Overran Error.Thrown (validateField what cond p) := by
  rintro ⟨e, h, hnot⟩
  rw [validateField, require] at h
  split at h
  · cases h
  · cases h
    exact hnot ⟨_, rfl⟩

structure Source where
  file : Bytes
  offset : Nat
  size : Nat
  get : Nat
  window_le : offset + size ≤ file.length

namespace Source

def fromMemory (data : Bytes) : Source :=
  { file := data, offset := 0, size := data.length, get := 0, window_le := by omega }

@[simp] theorem file_fromMemory (data : Bytes) : (fromMemory data).file = data := rfl

@[simp] theorem size_fromMemory (data : Bytes) : (fromMemory data).size = data.length := rfl

/-- The bytes in the window. -/
def bytes (s : Source) : Bytes := Lib.slice s.file s.offset s.size

def getOrigSize (s : Source) : Nat := s.file.length

@[simp] theorem length_bytes (s : Source) : s.bytes.length = s.size :=
  length_slice_of_le s.window_le

@[simp] theorem bytes_fromMemory (data : Bytes) : (fromMemory data).bytes = data := by
  simp [bytes, fromMemory, Lib.slice]

def slice (s : Source) (offset size : Nat) : Except Error Source :=
  if h : offset ≤ s.size ∧ offset + size ≤ s.size then
    .ok { s with
      offset := s.offset + offset, get := (s.get + 2 ^ 64 - offset) % 2 ^ 64, size
      window_le := by have := s.window_le; omega }
  else .error (.sourceOverflow "Slice: invalid sizes")

/-- `Source{s, offset, size}`. -/
def sub (s : Source) (offset size : Nat) : Except Error Source := do
  let s ← s.slice offset size
  pure { s with get := 0 }

def seek (s : Source) (pos : Nat) : Except Error Source := do
  require (pos ≤ s.size) (Error.sourceOverflow "Seek past end of source")
  pure { s with get := pos }

/-- The size of the whole file is compared, not that of the window. -/
def checkSize (s : Source) (size : Nat) : Except Error Unit :=
  require (size ≤ s.getOrigSize) (Error.decodeError "Premature end of data")

/-- The sum is one of file positions. -/
def checkRemainingSize (s : Source) (size : Nat) : Except Error Unit :=
  s.checkSize ((s.get + size) % 2 ^ 64)

def pread (s : Source) (offs len : Nat) : Except Error (ByteArr len) :=
  if h : offs ≤ s.size ∧ offs + len ≤ s.size then
    .ok ⟨Lib.slice s.file (s.offset + offs) len,
      length_slice_of_le (by have := s.window_le; omega)⟩
  else .error (.sourceOverflow "Source overflow")

def read (s : Source) (len : Nat) : Except Error (ByteArr len × Source) := do
  let buf ← s.pread s.get len
  pure (buf, { s with get := s.get + len })

variable (α : Type) [Pod α]

def preadGen (s : Source) (offs : Nat) : Except Error α := do
  let buf ← s.pread offs (Pod.size α)
  pure (Pod.ofBytes buf.1)

def readGen (s : Source) : Except Error (α × Source) := do
  let (buf, s) ← s.read (Pod.size α)
  pure (Pod.ofBytes buf.1, s)

def readUint [EndianReverse α] (s : Source) (e : Endian) : Except Error (α × Source) := do
  let (x, s) ← s.readGen α
  pure (toNative x e, s)

def readUint8 := readUint UInt8
def readUint16 := readUint UInt16
def readUint32 := readUint UInt32
def readUint64 := readUint UInt64

/-- The text from `offs` on, up to the first NUL; without one the loop over the
chunks runs into the end of the window. -/
def preadCString (s : Source) (offs : Nat) : Except Error Bytes :=
  let rest := s.bytes.drop offs
  if 0 ∈ rest then .ok (rest.takeWhile (· ≠ 0))
  else .error (.assertionFailed "offs < size")

/-- The text at the read position, which is moved behind its NUL. -/
def readCString (s : Source) : Except Error (Bytes × Source) := do
  let ret ← s.preadCString s.get
  let s ← s.seek (s.get + ret.length + 1)
  pure (ret, s)

variable {α}

theorem pread_of_standsAt {s : Source} {xs : Bytes} {offs len : Nat}
    (h : StandsAt xs offs s.bytes) (hlen : xs.length = len) :
    s.pread offs len = .ok ⟨xs, hlen⟩ := by
  subst hlen
  have hle := h.le
  rw [length_bytes] at hle
  have hin : offs ≤ s.size ∧ offs + xs.length ≤ s.size := by omega
  have hxs := h.slice_eq
  rw [bytes, slice_slice _ (by omega)] at hxs
  rw [pread, dif_pos hin]
  congr 2

theorem slice_of_le {s : Source} {offset size : Nat} (h : offset + size ≤ s.size) :
    ∃ s', s.slice offset size = .ok s' ∧ s'.bytes = Lib.slice s.bytes offset size := by
  rw [slice, dif_pos ⟨by omega, h⟩]
  exact ⟨_, rfl, (slice_slice _ h).symm⟩

theorem sub_of_le {s : Source} {offset size : Nat} (h : offset + size ≤ s.size) :
    ∃ s', s.sub offset size = .ok s' ∧ s'.bytes = Lib.slice s.bytes offset size := by
  obtain ⟨s', hs', hbytes⟩ := slice_of_le h
  rw [sub, hs']
  exact ⟨_, rfl, hbytes⟩

theorem size_of_sub {s s' : Source} {offset size : Nat} (h : s.sub offset size = .ok s') :
    s'.size = size := by
  obtain ⟨_, hslice, h⟩ := bind_eq_ok.mp h
  cases h
  rw [slice] at hslice
  split at hslice
  · cases hslice
    rfl
  · cases hslice

/-- The source with its read position moved. -/
def at_ (s : Source) (pos : Nat) : Source := { s with get := pos }

@[simp] theorem size_at_ (s : Source) (pos : Nat) : (s.at_ pos).size = s.size := rfl

theorem seek_of_le {s : Source} {pos : Nat} (h : pos ≤ s.size) :
    s.seek pos = .ok (s.at_ pos) := by
  rw [seek, require_of h]
  rfl

theorem read_of_standsAt {s : Source} {xs : Bytes} {pos len : Nat}
    (h : StandsAt xs pos s.bytes) (hlen : xs.length = len) :
    (s.at_ pos).read len = .ok (⟨xs, hlen⟩, s.at_ (pos + len)) := by
  have hp : (s.at_ pos).pread (s.at_ pos).get len = .ok ⟨xs, hlen⟩ :=
    pread_of_standsAt (s := s.at_ pos) h hlen
  rw [read, hp]
  rfl

theorem read_of_le {s : Source} {pos len : Nat} (h : pos + len ≤ s.size) :
    ∃ buf : ByteArr len, (s.at_ pos).read len = .ok (buf, s.at_ (pos + len)) ∧
      buf.1 = Lib.slice s.bytes pos len := by
  have hlen : (Lib.slice s.bytes pos len).length = len :=
    length_slice_of_le (by rwa [length_bytes])
  have hstand : StandsAt (Lib.slice s.bytes pos len) pos s.bytes :=
    StandsAt.of_slice (by rwa [length_bytes])
  exact ⟨⟨_, hlen⟩, read_of_standsAt hstand hlen, rfl⟩

theorem read_of_gt {s : Source} {pos len : Nat} (h : s.size < pos + len) :
    (s.at_ pos).read len = .error (.sourceOverflow "Source overflow") := by
  have hnot : ¬ ((s.at_ pos).get ≤ (s.at_ pos).size ∧
      (s.at_ pos).get + len ≤ (s.at_ pos).size) := fun ⟨_, hle⟩ =>
    absurd hle (Nat.not_le_of_lt h)
  rw [read, pread, dif_neg hnot, error_bind]

theorem readGen_of_le {s : Source} {pos : Nat} (h : pos + Pod.size α ≤ s.size) :
    (s.at_ pos).readGen α =
      .ok (Pod.ofBytes (Lib.slice s.bytes pos (Pod.size α)), s.at_ (pos + Pod.size α)) := by
  obtain ⟨buf, hread, hbuf⟩ := read_of_le h
  rw [readGen, hread, ok_bind, ← hbuf]
  rfl

theorem readGen_of_gt {s : Source} {pos : Nat} (h : s.size < pos + Pod.size α) :
    (s.at_ pos).readGen α = .error (.sourceOverflow "Source overflow") := by
  rw [readGen, read_of_gt h, error_bind]

theorem readUint_of_le [EndianReverse α] {s : Source} {e : Endian} {pos : Nat}
    (h : pos + Pod.size α ≤ s.size) :
    (s.at_ pos).readUint α e =
      .ok (toNative (Pod.ofBytes (Lib.slice s.bytes pos (Pod.size α))) e,
        s.at_ (pos + Pod.size α)) := by
  rw [readUint, readGen_of_le h, ok_bind]
  rfl

theorem readUint_of_gt [EndianReverse α] {s : Source} {e : Endian} {pos : Nat}
    (h : s.size < pos + Pod.size α) :
    (s.at_ pos).readUint α e = .error (.sourceOverflow "Source overflow") := by
  rw [readUint, readGen_of_gt h, error_bind]

theorem preadGen_of_standsAt {s : Source} {a : α} {offs : Nat}
    (h : StandsAt (toBytes a) offs s.bytes) : s.preadGen α offs = .ok a := by
  rw [preadGen, pread_of_standsAt h (Pod.length_toBytes a), ok_bind]
  simp

theorem preadGen_of_le {s : Source} {offs : Nat} (h : offs + Pod.size α ≤ s.size) :
    s.preadGen α offs = .ok (Pod.ofBytes (Lib.slice s.bytes offs (Pod.size α))) := by
  rw [preadGen, pread, dif_pos ⟨by omega, h⟩, ok_bind, bytes, slice_slice _ h]
  rfl

theorem preadGen_of_gt {s : Source} {offs : Nat} (h : s.size < offs + Pod.size α) :
    s.preadGen α offs = .error (.sourceOverflow "Source overflow") := by
  have hnot : ¬ (offs ≤ s.size ∧ offs + Pod.size α ≤ s.size) := fun ⟨_, hle⟩ =>
    Nat.not_le_of_lt h hle
  rw [preadGen, pread, dif_neg hnot, error_bind]

/-- What is read stands where it is read from. -/
theorem standsAt_of_pread {s : Source} {offs len : Nat} {buf : ByteArr len}
    (h : s.pread offs len = .ok buf) : StandsAt buf.1 offs s.bytes := by
  rw [pread] at h
  split at h
  · rename_i hin
    cases h
    have hslice : Lib.slice s.file (s.offset + offs) len = Lib.slice s.bytes offs len := by
      rw [bytes, slice_slice _ (by omega)]
    simp only [hslice]
    exact StandsAt.of_slice (by rw [length_bytes]; omega)
  · cases h

theorem standsAt_of_preadGen {s : Source} {a : α} {offs : Nat} (h : s.preadGen α offs = .ok a) :
    StandsAt (toBytes a) offs s.bytes := by
  obtain ⟨buf, hbuf, ha⟩ := bind_eq_ok.mp h
  cases ha
  rw [Pod.toBytes_ofBytes _ buf.2]
  exact standsAt_of_pread hbuf

theorem seek_spec {s s' : Source} {pos : Nat} (h : s.seek pos = .ok s') :
    pos ≤ s.size ∧ s' = s.at_ pos := by
  obtain ⟨_, hle, h⟩ := bind_eq_ok.mp h
  cases h
  exact ⟨require_eq_ok.mp hle, rfl⟩

theorem read_spec {s s' : Source} {len : Nat} {buf : ByteArr len}
    (h : s.read len = .ok (buf, s')) :
    StandsAt buf.1 s.get s.bytes ∧ s' = s.at_ (s.get + len) := by
  obtain ⟨_, hbuf, h⟩ := bind_eq_ok.mp h
  cases h
  exact ⟨standsAt_of_pread hbuf, rfl⟩

theorem readGen_spec {s s' : Source} {a : α} (h : s.readGen α = .ok (a, s')) :
    StandsAt (toBytes a) s.get s.bytes ∧ s' = s.at_ (s.get + Pod.size α) := by
  obtain ⟨⟨buf, s₁⟩, hread, h⟩ := bind_eq_ok.mp h
  obtain ⟨hstand, rfl⟩ := read_spec hread
  cases h
  rw [Pod.toBytes_ofBytes _ buf.2]
  exact ⟨hstand, rfl⟩

theorem readUint_spec [EndianReverse α] {s s' : Source} {e : Endian} {x : α}
    (h : s.readUint α e = .ok (x, s')) :
    StandsAt (toBytes (fromNative x e)) s.get s.bytes ∧ s' = s.at_ (s.get + Pod.size α) := by
  obtain ⟨⟨y, s₁⟩, hread, h⟩ := bind_eq_ok.mp h
  obtain ⟨hstand, rfl⟩ := readGen_spec hread
  cases h
  rw [fromNative_toNative]
  exact ⟨hstand, rfl⟩

theorem readGen_of_standsAt {s : Source} {a : α} {pos : Nat}
    (h : StandsAt (toBytes a) pos s.bytes) :
    (s.at_ pos).readGen α = .ok (a, s.at_ (pos + Pod.size α)) := by
  rw [readGen, read_of_standsAt h (Pod.length_toBytes a), ok_bind]
  simp

theorem readUint_of_standsAt [EndianReverse α] {s : Source} {a : α} {e : Endian} {pos : Nat}
    (h : StandsAt (toBytes (fromNative a e)) pos s.bytes) :
    (s.at_ pos).readUint α e = .ok (a, s.at_ (pos + Pod.size α)) := by
  rw [readUint, readGen_of_standsAt h, ok_bind]
  simp

theorem sub_of_gt {s : Source} {offset size : Nat} (h : s.size < offset + size) :
    s.sub offset size = .error (.sourceOverflow "Slice: invalid sizes") := by
  have hnot : ¬ (offset ≤ s.size ∧ offset + size ≤ s.size) := fun ⟨_, hle⟩ =>
    Nat.not_le_of_lt h hle
  rw [sub, slice, dif_neg hnot, error_bind]

theorem sub_of_standsAt {s : Source} {xs : Bytes} {offs : Nat} (h : StandsAt xs offs s.bytes) :
    ∃ s', s.sub offs xs.length = .ok s' ∧ s'.bytes = xs := by
  have hle := h.le
  rw [length_bytes] at hle
  have hin : offs ≤ s.size ∧ offs + xs.length ≤ s.size := by omega
  have hxs := h.slice_eq
  rw [bytes, slice_slice _ (by omega)] at hxs
  rw [sub, slice, dif_pos hin]
  exact ⟨_, rfl, hxs⟩

theorem preadCString_of_mem {s : Source} {offs : Nat} (h : 0 ∈ s.bytes.drop offs) :
    s.preadCString offs = .ok ((s.bytes.drop offs).takeWhile (· ≠ 0)) := if_pos h

theorem preadCString_of_not_mem {s : Source} {offs : Nat} (h : 0 ∉ s.bytes.drop offs) :
    s.preadCString offs = .error (.assertionFailed "offs < size") := if_neg h

/-- A text that stands in the source with a NUL behind it is read up to its
first NUL. -/
theorem preadCString_eq_takeWhile {s : Source} {str : Bytes} {offs : Nat}
    (h : StandsAt (str ++ [0]) offs s.bytes) :
    s.preadCString offs = .ok (str.takeWhile (· ≠ 0)) := by
  obtain ⟨post, hpost⟩ := h.drop_eq
  have hstop : ∀ xs : Bytes, (xs ++ 0 :: post).takeWhile (· ≠ 0) = xs.takeWhile (· ≠ 0) := by
    intro xs
    induction xs with
    | nil => rfl
    | cons x xs ih =>
        rw [List.cons_append, List.takeWhile_cons, List.takeWhile_cons, ih]
  rw [preadCString, hpost, if_pos (by simp), List.append_assoc, List.singleton_append, hstop]

theorem preadCString_of_standsAt {s : Source} {str : Bytes} {offs : Nat} (hstr : 0 ∉ str)
    (h : StandsAt (str ++ [0]) offs s.bytes) : s.preadCString offs = .ok str := by
  rw [preadCString_eq_takeWhile h, takeWhile_ne_zero hstr]

/-- The first NUL ends the text. -/
theorem preadCString_spec {s : Source} {offs : Nat} {str : Bytes}
    (h : s.preadCString offs = .ok str) : 0 ∉ str ∧ StandsAt (str ++ [0]) offs s.bytes := by
  rw [preadCString] at h
  split at h
  · rename_i hmem
    cases h
    have hstop : ¬ (s.bytes.drop offs).dropWhile (· ≠ 0) = [] := fun hnil => by
      have hne := List.dropWhile_eq_nil_iff.mp hnil 0 hmem
      exact of_decide_eq_true hne rfl
    have hhead : ((s.bytes.drop offs).dropWhile (· ≠ 0)).head hstop = 0 := by
      simpa using List.head_dropWhile_not (· ≠ (0 : UInt8)) hstop
    have hrest : s.bytes.drop offs = (s.bytes.drop offs).takeWhile (· ≠ 0) ++ [0] ++
        ((s.bytes.drop offs).dropWhile (· ≠ 0)).tail := by
      conv_lhs => rw [← List.takeWhile_append_dropWhile (p := (· ≠ 0)) (l := s.bytes.drop offs),
        ← List.cons_head_tail hstop, hhead]
      rw [List.append_assoc, List.singleton_append]
    refine ⟨fun hzero => ?_, s.bytes.take offs,
      ((s.bytes.drop offs).dropWhile (· ≠ 0)).tail, ?_, ?_⟩
    · have hne := List.mem_takeWhile_imp hzero
      exact of_decide_eq_true hne rfl
    · rw [List.append_assoc, ← hrest, List.take_append_drop]
    · have hpos := List.length_pos_of_mem hmem
      rw [List.length_drop] at hpos
      exact List.length_take_of_le (by omega)
  · cases h

theorem readCString_spec {s s' : Source} {str : Bytes} (h : s.readCString = .ok (str, s')) :
    0 ∉ str ∧ StandsAt (str ++ [0]) s.get s.bytes ∧ s' = s.at_ (s.get + str.length + 1) := by
  obtain ⟨ret, hread, h⟩ := bind_eq_ok.mp h
  obtain ⟨s₁, hseek, h⟩ := bind_eq_ok.mp h
  cases h
  obtain ⟨hzero, hstand⟩ := preadCString_spec hread
  exact ⟨hzero, hstand, (seek_spec hseek).2⟩

theorem checkSize_of_le {s : Source} {n : Nat} (h : n ≤ s.size) : s.checkSize n = .ok () :=
  require_of (by have := s.window_le; rw [getOrigSize]; omega) _

theorem checkRemainingSize_of_le {s : Source} {n : Nat} (h : s.get + n ≤ s.size) :
    s.checkRemainingSize n = .ok () :=
  checkSize_of_le (Nat.le_trans (Nat.mod_le _ _) h)

end Source

end Neptools

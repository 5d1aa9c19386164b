import Neptools.Lib.Buffer
import Neptools.Lib.Run
import Neptools.Sink.Basic

/-!
The sink that writes through a mapping of the file. Small files are mapped
whole, larger ones by a window that `Write_` and `Pad_` move on. Padding
relies on the file having been extended with zeros, so the invariant is about
the whole file: what was written so far, then zeros up to its size.

The file and its mappings are a parameter. A mapping is known by the file
position it starts at; a store through it changes the file.
-/

namespace Neptools

open Lib

class FileIo (φ : Type) where
  contents : φ → Bytes
  truncate : φ → Nat → Except Error φ
  pwrite : φ → Nat → Bytes → Except Error φ
  mmap : φ → Nat → Nat → Except Error Unit
  poke : φ → Nat → Bytes → φ

/-- `Truncate` zero-fills an empty file, `Mmap` maps any part of the file,
`Pwrite` and stores through a mapping change the bytes at their position. -/
class LawfulFileIo (φ : Type) [FileIo φ] : Prop where
  truncate_empty : ∀ (io : φ) (n : Nat), FileIo.contents io = [] →
    ∃ io', FileIo.truncate io n = .ok io' ∧ FileIo.contents io' = zeros n
  pwrite_ok : ∀ (io : φ) (pos : Nat) (data : Bytes),
    pos + data.length ≤ (FileIo.contents io).length →
      ∃ io', FileIo.pwrite io pos data = .ok io' ∧
        FileIo.contents io' = overwrite (FileIo.contents io) pos data
  mmap_ok : ∀ (io : φ) (pos len : Nat), 0 < len →
    pos + len ≤ (FileIo.contents io).length → FileIo.mmap io pos len = .ok ()
  contents_poke : ∀ (io : φ) (pos : Nat) (data : Bytes),
    pos + data.length ≤ (FileIo.contents io).length →
      FileIo.contents (FileIo.poke io pos data) = overwrite (FileIo.contents io) pos data

/-- A file that is its bytes. -/
instance : FileIo Bytes where
  contents file := file
  truncate file n := .ok (file.take n ++ zeros (n - file.length))
  pwrite file pos data := .ok (overwrite file pos data)
  mmap _ _ _ := .ok ()
  poke := overwrite

instance : LawfulFileIo Bytes where
  truncate_empty file n h := by
    cases show file = [] from h
    exact ⟨_, rfl, by simp [FileIo.contents]⟩
  pwrite_ok _ _ _ _ := ⟨_, rfl, rfl⟩
  mmap_ok _ _ _ _ _ := rfl
  contents_poke _ _ _ _ := rfl

/-- `mapped` is the file position that `buf` points to, if it is not null. -/
structure MmapSink (φ : Type) where
  io : φ
  mapped : Option Nat
  offset : Nat
  size : Nat
  bufPut : Nat
  bufSize : Nat

namespace MmapSink

variable {φ : Type} [FileIo φ]

def create (io : φ) (size : Nat) : Except Error (MmapSink φ) := do
  let toMap := if size < mmapLimit then size else mmapChunk
  let io ← FileIo.truncate io size
  FileIo.mmap io 0 toMap
  pure { io, mapped := some 0, offset := 0, size, bufPut := 0, bufSize := toMap }

def store (s : MmapSink φ) (xs : Bytes) : Except Error (MmapSink φ) :=
  match s.mapped with
  | some pos =>
      .ok { s with io := FileIo.poke s.io (pos + s.bufPut) xs, bufPut := s.bufPut + xs.length }
  | none =>
      if xs = [] then .ok s else .error (.assertionFailed "memcpy to a null buffer")

def mapNext (s : MmapSink φ) (len : Nat) : Except Error (MmapSink φ) :=
  if s.offset < s.size then do
    let nbufSize := min mmapChunk (s.size - s.offset)
    require (len ≤ nbufSize) (Error.assertionFailed "nbuf_size >= len")
    FileIo.mmap s.io s.offset nbufSize
    pure { s with mapped := some s.offset, bufPut := len, bufSize := nbufSize }
  else
    pure { s with mapped := none }

/-- The end of `Write_`: what is left of the data goes into the next window. -/
def writeRest (s : MmapSink φ) (data : Bytes) : Except Error (MmapSink φ) := do
  let s ← mapNext s data.length
  match s.mapped with
  | some pos => pure { s with io := FileIo.poke s.io pos data }
  | none => do
      require (data.length = 0) (Error.assertionFailed "data.length() == 0")
      pure s

def write_ (s : MmapSink φ) (data : Bytes) : Except Error (MmapSink φ) := do
  require (s.bufPut = s.bufSize ∧ s.offset < s.size ∧ s.bufSize = mmapChunk)
    (Error.assertionFailed
      "buf_put == buf_size && offset < size && buf_size == MMAP_CHUNK")
  let s := { s with offset := s.offset + s.bufPut }
  let toWrite := data.length / mmapChunk * mmapChunk
  let s ← if data.length / mmapChunk ≠ 0 then do
      let io ← FileIo.pwrite s.io s.offset (data.take toWrite)
      pure { s with io, offset := s.offset + toWrite, bufPut := 0 }
    else pure s
  writeRest s (data.drop toWrite)

def pad_ (s : MmapSink φ) (len : Nat) : Except Error (MmapSink φ) := do
  require (s.bufPut = s.bufSize ∧ s.offset < s.size ∧ s.bufSize = mmapChunk)
    (Error.assertionFailed
      "buf_put == buf_size && offset < size && buf_size == MMAP_CHUNK")
  let s := { s with offset := s.offset + (s.bufPut + len / mmapChunk * mmapChunk) }
  require (s.offset ≤ s.size) (Error.assertionFailed "sink overflow")
  mapNext s (len % mmapChunk)

instance : Sink (MmapSink φ) where
  offset := offset
  size := size
  bufPut := bufPut
  bufSize := bufSize
  store := store
  write_ := write_
  pad_ := pad_
  flush s := pure s

/-- The position of the sink and the beginning of the file agree with `out`. -/
def Written (s : MmapSink φ) (out : Bytes) : Prop :=
  Sink.tell s = out.length ∧
    (FileIo.contents s.io).take (Sink.tell s) = out

/-- The window lies in the file and ends where the file does unless it is a
full chunk; without one the sink has reached the end of the file. -/
def Window (s : MmapSink φ) : Prop :=
  match s.mapped with
  | some pos => pos = s.offset ∧ s.offset + s.bufSize ≤ s.size ∧ s.bufPut ≤ s.bufSize ∧
      (s.bufSize = mmapChunk ∨ s.offset + s.bufSize = s.size)
  | none => s.offset = s.size ∧ s.bufPut = 0

structure Inv (size : Nat) (s : MmapSink φ) (out : Bytes) : Prop where
  size_eq : s.size = size
  tell_eq : s.offset + s.bufPut = out.length
  length_le : out.length ≤ size
  contents_eq : FileIo.contents s.io = out ++ zeros (size - out.length)
  window : s.Window

theorem Inv.written {size : Nat} {s : MmapSink φ} {out : Bytes} (h : Inv size s out) :
    s.Written out := by
  refine ⟨h.tell_eq, ?_⟩
  change (FileIo.contents s.io).take (s.offset + s.bufPut) = out
  rw [h.tell_eq, h.contents_eq, List.take_left']
  rfl

/-- What is left of the file behind `out` before and after `data` is written. -/
theorem contents_append {size : Nat} {out : Bytes} (data : Bytes) {file : Bytes}
    (h : file = out ++ zeros (size - out.length)) :
    overwrite file out.length data =
      out ++ data ++ zeros (size - (out ++ data).length) := by
  rw [h, overwrite_append_zeros, List.length_append, Nat.sub_sub]

theorem length_contents {size : Nat} {out file : Bytes} (hle : out.length ≤ size)
    (h : file = out ++ zeros (size - out.length)) : file.length = size := by
  rw [h, List.length_append, length_zeros]
  omega

theorem append_zeros {size : Nat} {out : Bytes} {len : Nat} (h : out.length + len ≤ size) :
    out ++ zeros (size - out.length) =
      out ++ zeros len ++ zeros (size - (out ++ zeros len).length) := by
  rw [List.append_assoc, zeros_append, List.length_append, length_zeros]
  congr 2
  omega

variable [LawfulFileIo φ]

theorem inv_create {io : φ} (hio : FileIo.contents io = []) {size : Nat} {s : MmapSink φ}
    (hs : create io size = .ok s) : Inv size s [] := by
  obtain ⟨io', hio', hc⟩ := LawfulFileIo.truncate_empty io size hio
  rw [create, hio', ok_bind] at hs
  obtain ⟨⟨⟩, -, hs⟩ := bind_eq_ok.mp hs
  cases hs
  refine ⟨rfl, rfl, Nat.zero_le _, by simpa using hc, rfl, ?_, Nat.zero_le _, ?_⟩
  · change 0 + (if size < mmapLimit then size else mmapChunk) ≤ size
    have : mmapChunk ≤ mmapLimit := by decide
    split <;> omega
  · change (if size < mmapLimit then size else mmapChunk) = mmapChunk ∨
      0 + (if size < mmapLimit then size else mmapChunk) = size
    split <;> omega

theorem inv_store {size : Nat} {s : MmapSink φ} {out : Bytes} (h : Inv size s out)
    (xs : Bytes) (hput : s.bufPut + xs.length ≤ s.bufSize)
    (hfit : out.length + xs.length ≤ size) :
    ∃ s', store s xs = .ok s' ∧ Inv size s' (out ++ xs) ∧ s'.offset = s.offset ∧
      s'.bufPut = s.bufPut + xs.length ∧ s'.bufSize = s.bufSize := by
  obtain ⟨hsize, htell, hle, hcont, hwin⟩ := h
  cases hm : s.mapped with
  | none =>
      rw [Window, hm] at hwin
      have hxs : xs = [] := List.eq_nil_of_length_eq_zero (by omega)
      subst hxs
      refine ⟨s, by rw [store, hm]; rfl, ?_, rfl, rfl, rfl⟩
      rw [List.append_nil]
      exact ⟨hsize, htell, hle, hcont, by rw [Window, hm]; exact hwin⟩
  | some pos =>
      rw [Window, hm] at hwin
      obtain ⟨rfl, hend, -, hkind⟩ := hwin
      have hlen := length_contents hle hcont
      have hs : store s xs = .ok { s with
          io := FileIo.poke s.io (s.offset + s.bufPut) xs
          bufPut := s.bufPut + xs.length } := by rw [store, hm]
      refine ⟨_, hs, ⟨hsize, ?_, ?_, ?_, ?_⟩, rfl, rfl, rfl⟩
      · change s.offset + (s.bufPut + xs.length) = _
        rw [List.length_append]
        omega
      · rw [List.length_append]
        exact hfit
      · rw [LawfulFileIo.contents_poke _ _ _ (by omega), htell]
        exact contents_append xs hcont
      · rw [Window, hm]
        exact ⟨rfl, hend, hput, hkind⟩

/-- `MapNext` with room for what is to be put into the new window. -/
theorem mapNext_of_lt {s : MmapSink φ} {len : Nat} (hlt : s.offset < s.size)
    (hc : (FileIo.contents s.io).length = s.size) (hlen : len < mmapChunk)
    (hfit : s.offset + len ≤ s.size) :
    mapNext s len = .ok { s with
      mapped := some s.offset, bufPut := len
      bufSize := min mmapChunk (s.size - s.offset) } := by
  have hpos := mmapChunk_pos
  have hmap : FileIo.mmap s.io s.offset (min mmapChunk (s.size - s.offset)) = .ok () :=
    LawfulFileIo.mmap_ok _ _ _ (by omega) (by omega)
  have hlen : len ≤ min mmapChunk (s.size - s.offset) := by omega
  simp only [mapNext, if_pos hlt, require_of hlen, ok_bind, hmap, pure_eq_ok]

omit [LawfulFileIo φ] in
theorem mapNext_of_eq {s : MmapSink φ} (len : Nat) (heq : s.offset = s.size) :
    mapNext s len = .ok { s with mapped := none } := by
  rw [mapNext, if_neg (by omega)]
  rfl

omit [LawfulFileIo φ] in
/-- A sink asked for more than its window holds has a full chunk mapped. -/
theorem Inv.full {size : Nat} {s : MmapSink φ} {out : Bytes} (h : Inv size s out)
    (hput : s.bufPut = s.bufSize) (hlt : out.length < size) :
    s.offset < s.size ∧ s.bufSize = mmapChunk := by
  obtain ⟨hsize, htell, -, -, hwin⟩ := h
  cases hm : s.mapped with
  | none =>
      rw [Window, hm] at hwin
      omega
  | some pos =>
      rw [Window, hm] at hwin
      omega

theorem inv_writeRest {size : Nat} {s : MmapSink φ} {out : Bytes} (data : Bytes)
    (hsize : s.size = size) (htell : s.offset = out.length)
    (hput : s.bufPut = 0 ∨ data ≠ [])
    (hcont : FileIo.contents s.io = out ++ zeros (size - out.length))
    (hdata : data.length < mmapChunk) (hfit : out.length + data.length ≤ size) :
    ∃ s', writeRest s data = .ok s' ∧ Inv size s' (out ++ data) := by
  subst hsize
  have hlen := length_contents (by omega) hcont
  have hle : (out ++ data).length ≤ s.size := by rwa [List.length_append]
  by_cases hlt : s.offset < s.size
  · rw [writeRest, mapNext_of_lt hlt hlen hdata (by omega), ok_bind]
    refine ⟨_, rfl, rfl, ?_, hle, ?_, rfl, ?_, ?_, ?_⟩
    · rw [List.length_append, ← htell]
    · have hin : s.offset + data.length ≤ (FileIo.contents s.io).length := by omega
      rw [LawfulFileIo.contents_poke s.io s.offset data hin, htell]
      exact contents_append data hcont
    · change s.offset + min mmapChunk (s.size - s.offset) ≤ s.size
      omega
    · change data.length ≤ min mmapChunk (s.size - s.offset)
      omega
    · change min mmapChunk (s.size - s.offset) = mmapChunk ∨
        s.offset + min mmapChunk (s.size - s.offset) = s.size
      omega
  · have heq : s.offset = s.size := by omega
    have hnil : data = [] := List.eq_nil_of_length_eq_zero (by omega)
    have hput0 : s.bufPut = 0 := hput.resolve_right (not_not.mpr hnil)
    subst hnil
    rw [writeRest, mapNext_of_eq _ heq, ok_bind, List.append_nil]
    refine ⟨_, rfl, rfl, ?_, by omega, hcont, heq, hput0⟩
    change s.offset + s.bufPut = out.length
    omega

theorem inv_write_ {size : Nat} {s : MmapSink φ} {out : Bytes} (h : Inv size s out)
    (hput : s.bufPut = s.bufSize) {data : Bytes} (hdata : data ≠ [])
    (hfit : out.length + data.length ≤ size) :
    ∃ s', write_ s data = .ok s' ∧ Inv size s' (out ++ data) := by
  have hpos : 0 < data.length := List.length_pos_iff.mpr hdata
  obtain ⟨hlt, hfull⟩ := h.full hput (by omega)
  obtain ⟨hsize, htell, hle, hcont, -⟩ := h
  have hlen := length_contents hle hcont
  by_cases hbig : data.length / mmapChunk = 0
  · have hsmall : data.length < mmapChunk := (Nat.div_eq_zero_iff_lt mmapChunk_pos).mp hbig
    have hrest := inv_writeRest (s := { s with offset := s.offset + s.bufPut }) data
      hsize htell (Or.inr hdata) hcont hsmall hfit
    simpa only [write_, require_of (And.intro hput (And.intro hlt hfull)), ok_bind, hbig,
      ne_eq, not_true_eq_false, if_false, pure_eq_ok, Nat.zero_mul, List.drop_zero]
      using hrest
  · obtain ⟨toWrite, htw⟩ : ∃ n, data.length / mmapChunk * mmapChunk = n := ⟨_, rfl⟩
    have hdm := Nat.div_add_mod' data.length mmapChunk
    have hmod := Nat.mod_lt data.length mmapChunk_pos
    have htake : (data.take toWrite).length = toWrite := by
      rw [List.length_take]
      omega
    have hdrop : (data.drop toWrite).length = data.length % mmapChunk := by
      rw [List.length_drop]
      omega
    obtain ⟨io, hio, hc⟩ := LawfulFileIo.pwrite_ok s.io (s.offset + s.bufPut)
      (data.take toWrite) (by omega)
    rw [htell, contents_append _ hcont] at hc
    have hrest := inv_writeRest (data.drop toWrite)
      (s := { s with io, offset := s.offset + s.bufPut + toWrite, bufPut := 0 })
      hsize (by simp [htake, htell]) (Or.inl rfl) hc (by omega)
      (by rw [List.length_append]; omega)
    rw [List.append_assoc, List.take_append_drop] at hrest
    simpa only [write_, require_of (And.intro hput (And.intro hlt hfull)), ok_bind, hbig,
      ne_eq, not_false_eq_true, if_true, htw, hio, pure_eq_ok] using hrest

/-- A pad that leaves the window keeps the sink right unless it ends, by a
whole number of chunks, at the end of the file: `MapNext` then maps nothing and
leaves `buf_put` at the end of the old window. -/
theorem inv_pad_ {size : Nat} {s : MmapSink φ} {out : Bytes} (h : Inv size s out)
    (hput : s.bufPut = s.bufSize) {len : Nat} (hpos : 0 < len)
    (hfit : out.length + len ≤ size) :
    ∃ s', pad_ s len = .ok s' ∧
      ((mmapChunk ∣ len → out.length + len ≠ size) → Inv size s' (out ++ zeros len)) ∧
      (s'.Written (out ++ zeros len) → mmapChunk ∣ len → out.length + len ≠ size) := by
  obtain ⟨hlt, hfull⟩ := h.full hput (by omega)
  obtain ⟨hsize, htell, hle, hcont, -⟩ := h
  have hlen := length_contents hle hcont
  have hdm := Nat.div_add_mod' len mmapChunk
  have hmod := Nat.mod_lt len mmapChunk_pos
  obtain ⟨skip, hskip⟩ : ∃ n, len / mmapChunk * mmapChunk = n := ⟨_, rfl⟩
  have hp : pad_ s len =
      mapNext { s with offset := s.offset + (s.bufPut + skip) } (len % mmapChunk) := by
    have hin : s.offset + (s.bufPut + skip) ≤ s.size := by omega
    simp only [pad_, require_of (And.intro hput (And.intro hlt hfull)), ok_bind, hskip,
      require_of hin]
  have hiff : (mmapChunk ∣ len → out.length + len ≠ size) ↔
      s.offset + (s.bufPut + skip) ≠ s.size := by
    rw [Nat.dvd_iff_mod_eq_zero]
    omega
  rw [hp, hiff]
  by_cases hend : s.offset + (s.bufPut + skip) = s.size
  · rw [mapNext_of_eq _ hend]
    refine ⟨_, rfl, fun hne => absurd hend hne, ?_⟩
    rintro ⟨htell', -⟩
    have := mmapChunk_pos
    change s.offset + (s.bufPut + skip) + s.bufPut = _ at htell'
    rw [List.length_append, length_zeros] at htell'
    omega
  · have hlt' : s.offset + (s.bufPut + skip) < s.size := by omega
    rw [mapNext_of_lt (by exact hlt') (by rw [hlen, hsize]) hmod (by simp only; omega)]
    refine ⟨_, rfl, fun _ => ?_, fun _ => hend⟩
    refine ⟨hsize, ?_, ?_, hcont.trans (append_zeros hfit), rfl, ?_, ?_, ?_⟩
    · rw [List.length_append, length_zeros]
      change s.offset + (s.bufPut + skip) + len % mmapChunk = _
      omega
    · rwa [List.length_append, length_zeros]
    · change s.offset + (s.bufPut + skip) +
        min mmapChunk (s.size - (s.offset + (s.bufPut + skip))) ≤ s.size
      omega
    · change len % mmapChunk ≤ min mmapChunk (s.size - (s.offset + (s.bufPut + skip)))
      omega
    · change min mmapChunk (s.size - (s.offset + (s.bufPut + skip))) = mmapChunk ∨
        s.offset + (s.bufPut + skip) +
          min mmapChunk (s.size - (s.offset + (s.bufPut + skip))) = s.size
      omega

omit [FileIo φ] [LawfulFileIo φ] in
theorem inv_room [FileIo φ] {size : Nat} {s : MmapSink φ} {out : Bytes} (h : Inv size s out) :
    s.bufPut ≤ s.bufSize := by
  have hwin := h.window
  cases hm : s.mapped with
  | none =>
      rw [Window, hm] at hwin
      omega
  | some pos =>
      rw [Window, hm] at hwin
      omega

theorem inv_write {size : Nat} {s : MmapSink φ} {out : Bytes} (h : Inv size s out)
    (data : Bytes) (hfit : out.length + data.length ≤ size) :
    ∃ s', Sink.write s data = .ok s' ∧ Inv size s' (out ++ data) := by
  have hcheck : s.offset + s.bufPut + data.length ≤ s.size := by
    rw [h.size_eq, h.tell_eq]
    exact hfit
  have hput := inv_room h
  let cp := min data.length (s.bufSize - s.bufPut)
  have hcp : (data.take cp).length = cp := by
    rw [List.length_take]
    omega
  obtain ⟨s₁, hs₁, h₁, hoff₁, hput₁, hsize₁⟩ :=
    inv_store h (data.take cp) (by omega) (by omega)
  have hw : Sink.write s data =
      if data.drop cp ≠ [] then write_ s₁ (data.drop cp) else pure s₁ := by
    change (require (s.offset + s.bufPut + data.length ≤ s.size) _ >>= fun _ =>
      store s (data.take cp) >>= fun s => _) = _
    rw [require_of hcheck, ok_bind, hs₁, ok_bind]
    rfl
  have hz : out ++ data = out ++ data.take cp ++ data.drop cp := by
    rw [List.append_assoc, List.take_append_drop]
  rw [hw, hz]
  by_cases hrest : data.drop cp = []
  · rw [if_neg (not_not.mpr hrest), hrest, List.append_nil]
    exact ⟨s₁, rfl, h₁⟩
  · have hlt : cp < data.length := by
      by_contra hge
      exact hrest (List.drop_eq_nil_of_le (by omega))
    have hfit' : (out ++ data.take cp).length + (data.drop cp).length ≤ size := by
      rw [List.length_append, List.length_drop, hcp]
      omega
    rw [if_pos hrest]
    exact inv_write_ h₁ (by omega) hrest hfit'

/-- The pad leaves the sink right: it does not go past the window by a whole
number of chunks to end where the file does. -/
def EndsInside (s : MmapSink φ) : Sink.Call → Prop
  | .pad len => s.bufSize - s.bufPut < len → mmapChunk ∣ len - (s.bufSize - s.bufPut) →
      s.offset + s.bufPut + len ≠ s.size
  | _ => True

theorem inv_pad {size : Nat} {s : MmapSink φ} {out : Bytes} (h : Inv size s out)
    {len : Nat} (hfit : out.length + len ≤ size) :
    ∃ s', Sink.pad s len = .ok s' ∧
      (s.EndsInside (.pad len) → Inv size s' (out ++ zeros len)) ∧
      (s'.Written (out ++ zeros len) → s.EndsInside (.pad len)) := by
  have hcheck : s.offset + s.bufPut + len ≤ s.size := by
    rw [h.size_eq, h.tell_eq]
    exact hfit
  have hput := inv_room h
  let cp := min len (s.bufSize - s.bufPut)
  have hcp : (zeros cp).length = cp := length_zeros cp
  obtain ⟨s₁, hs₁, h₁, hoff₁, hput₁, hsize₁⟩ := inv_store h (zeros cp) (by omega) (by omega)
  have hp : Sink.pad s len = if len - cp ≠ 0 then pad_ s₁ (len - cp) else pure s₁ := by
    change (require (s.offset + s.bufPut + len ≤ s.size) _ >>= fun _ =>
      store s (zeros cp) >>= fun s => _) = _
    rw [require_of hcheck, ok_bind, hs₁, ok_bind]
    rfl
  have hz : out ++ zeros len = out ++ zeros cp ++ zeros (len - cp) := by
    rw [List.append_assoc, zeros_append]
    congr 2
    omega
  rw [hp, hz]
  by_cases hrest : len - cp = 0
  · rw [if_neg (not_not.mpr hrest), hrest, zeros_zero, List.append_nil]
    exact ⟨s₁, rfl, fun _ => h₁, fun _ hgt => absurd hgt (by omega)⟩
  · have hout : (out ++ zeros cp).length = out.length + cp := by
      rw [List.length_append, hcp]
    have hends : s.EndsInside (.pad len) ↔
        (mmapChunk ∣ len - cp → (out ++ zeros cp).length + (len - cp) ≠ size) := by
      have hcp' : cp = s.bufSize - s.bufPut := by omega
      rw [EndsInside, ← hcp', hout, h.tell_eq, h.size_eq]
      exact ⟨fun hne hdvd heq => hne (by omega) hdvd (by omega),
        fun hne _ hdvd heq => hne hdvd (by omega)⟩
    rw [if_pos hrest, hends]
    exact inv_pad_ h₁ (by omega) (Nat.pos_of_ne_zero hrest) (by omega)

/-- Throughout a run no assertion of the sink fails, its position is the length
of all calls and the file begins with their concatenation, as long as no pad
goes past the window by a whole number of chunks to end where the file does. -/
theorem calls_written_iff (io : φ) (hio : FileIo.contents io = []) (size : Nat)
    (s₀ : MmapSink φ) (hs₀ : create io size = .ok s₀) (calls : List Sink.Call)
    (hfit : Sink.totalLength calls ≤ size) :
    (∀ p, p <+: calls → ∃ s, run Sink.step s₀ p = .ok s ∧ s.Written (Sink.bytesOf p)) ↔
      EveryStep Sink.step EndsInside s₀ calls := by
  have h₀ := inv_create hio hs₀
  have hall : Sink.Fits size [] calls := by simpa [Sink.Fits] using hfit
  rw [← every_prefix_iff Sink.step (fun s out => Inv size s out)
    (fun s out => s.Written out) (fun out c => out ++ c.bytes) (Sink.Fits size)
    (fun _ _ h => h.written) (fun _ _ _ => Sink.Fits.tail) ?_ ?_ s₀ [] calls h₀ hall]
  · simp only [Sink.foldl_append_bytes, List.nil_append]
  · intro s out c cs h hfit hP
    have hhead := hfit.head
    cases c with
    | write data => exact inv_write h data hhead
    | pad len =>
        rw [Sink.Call.length, Sink.Call.bytes, length_zeros] at hhead
        obtain ⟨s', hs', hkeep, -⟩ := inv_pad h hhead
        exact ⟨s', hs', hkeep hP⟩
    | flush => exact ⟨s, rfl, by rwa [Sink.Call.bytes, List.append_nil]⟩
  · intro s out c cs s' h hfit hs' hw
    have hhead := hfit.head
    cases c with
    | write data => trivial
    | flush => trivial
    | pad len =>
        rw [Sink.Call.length, Sink.Call.bytes, length_zeros] at hhead
        obtain ⟨t, ht, -, hneed⟩ := inv_pad h hhead
        cases ht.symm.trans hs'
        exact hneed hw

/-- Both calls go past the window, through `Pad_` and through `Write_`. -/
def padThenWrite : List Sink.Call :=
  [.pad (2 * mmapChunk + 5), .write (List.replicate mmapChunk 7)]

theorem padThenWrite_written :
    Sink.totalLength padThenWrite = 3 * mmapChunk + 5 ∧
      ∀ p, p <+: padThenWrite →
        ∃ s, run Sink.step (σ := MmapSink Bytes)
            ⟨zeros mmapLimit, some 0, 0, mmapLimit, 0, mmapChunk⟩ p = .ok s ∧
          s.Written (Sink.bytesOf p) := by
  have hlength : Sink.totalLength padThenWrite = 3 * mmapChunk + 5 := by
    simp [padThenWrite, Sink.totalLength, Sink.bytesOf]
    omega
  have hfit : Sink.totalLength padThenWrite ≤ mmapLimit := by
    rw [hlength]
    decide
  refine ⟨hlength, ?_⟩
  refine (calls_written_iff ([] : Bytes) rfl mmapLimit _ rfl padThenWrite hfit).mpr
    ⟨fun _ hdvd => ?_, fun _ _ => ⟨trivial, fun _ _ => trivial⟩⟩
  exact absurd hdvd (by decide)

/-- One pad over a whole file of 1 MiB: the position is past its end. -/
theorem pad_whole_file_not_written :
    ¬ ∀ (s₀ : MmapSink Bytes), create [] mmapLimit = .ok s₀ →
      ∀ p, p <+: [Sink.Call.pad mmapLimit] →
        ∃ s, run Sink.step s₀ p = .ok s ∧ s.Written (Sink.bytesOf p) := by
  intro h
  have hs₀ : create ([] : Bytes) mmapLimit =
      .ok ⟨zeros mmapLimit, some 0, 0, mmapLimit, 0, mmapChunk⟩ := by
    rfl
  obtain ⟨s, hrun, hs⟩ := h _ hs₀ _ List.prefix_rfl
  obtain ⟨s', hstep, hnil⟩ := exists_of_run_cons Sink.step hrun
  cases hnil
  obtain ⟨t, ht, -, hneed⟩ := inv_pad (inv_create rfl hs₀) (Nat.le_refl (0 + mmapLimit))
  cases ht.symm.trans hstep
  have hbytes : Sink.bytesOf [Sink.Call.pad mmapLimit] = [] ++ zeros mmapLimit := by
    simp [Sink.bytesOf, Sink.Call.bytes]
  rw [hbytes] at hs
  exact hneed hs (by decide) ⟨7, by decide⟩ (by decide)

end MmapSink

end Neptools

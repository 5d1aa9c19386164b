import Neptools.Lib.Heap
import Neptools.Lib.Lru
import Neptools.Source

/-!
The providers that read a file piece by piece: they keep the last four pieces,
mapped or copied to the heap, and a window of a source asks them for bytes of
the file. A piece that leaves the cache is released; so is what is left of them
when the provider goes. The file is a parameter; positions are natural numbers,
since no call goes past the end of the file.

Reading or releasing what is not live, using a file that was reset and a loop
that makes no progress are undefined.
-/

namespace Neptools

open Lib

class ReadIo (φ : Type) where
  contents : φ → Bytes
  pread : φ → (len offs : Nat) → Except Error (ByteArr len)
  mmap : φ → (offs size : Nat) → Except Error (ByteArr size)

/-- What `Mmap` asks of the file position it maps from. -/
def mapGranularity : Nat := 64 * 1024

class LawfulReadIo (φ : Type) [ReadIo φ] : Prop where
  pread_ok : ∀ (io : φ) (len offs : Nat), offs + len ≤ (ReadIo.contents io).length →
    ∃ buf, ReadIo.pread io len offs = .ok buf ∧ buf.1 = slice (ReadIo.contents io) offs len
  mmap_ok : ∀ (io : φ) (offs size : Nat), 0 < size → mapGranularity ∣ offs →
    offs + size ≤ (ReadIo.contents io).length →
    ∃ buf, ReadIo.mmap io offs size = .ok buf ∧ buf.1 = slice (ReadIo.contents io) offs size
  mmap_empty : ∀ (io : φ) (offs : Nat), ReadIo.mmap io offs 0 = .error .systemError

/-- A file that is its bytes. -/
instance : ReadIo Bytes where
  contents file := file
  pread file len offs :=
    if h : offs + len ≤ file.length then .ok ⟨slice file offs len, length_slice_of_le h⟩
    else .error .systemError
  mmap file offs size :=
    if h : 0 < size ∧ mapGranularity ∣ offs ∧ offs + size ≤ file.length then
      .ok ⟨slice file offs size, length_slice_of_le h.2.2⟩
    else .error .systemError

theorem ReadIo.contents_bytes (file : Bytes) : ReadIo.contents file = file := rfl

instance : LawfulReadIo Bytes where
  pread_ok _ _ _ h := ⟨_, dif_pos h, rfl⟩
  mmap_ok _ _ _ hsize hoffs h := ⟨_, dif_pos ⟨hsize, hoffs, h⟩, rfl⟩
  mmap_empty _ _ := dif_neg fun h => Nat.lt_irrefl 0 h.1

structure BufEntry where
  ptr : Option Nat := none
  offset : Nat := 2 ^ 64 - 1
  size : Nat := 0

namespace BufEntry

def covers (offs : Nat) (x : BufEntry) : Bool :=
  decide (x.offset ≤ offs ∧ offs < x.offset + x.size)

theorem covers_iff {offs : Nat} {x : BufEntry} :
    x.covers offs = true ↔ x.offset ≤ offs ∧ offs < x.offset + x.size := decide_eq_true_iff

end BufEntry

/-- `MmapProvider` or `UnixProvider`. -/
inductive ProviderKind
  | mmap
  | unix
  deriving Repr, DecidableEq

def ProviderKind.chunkSize : ProviderKind → Nat
  | .mmap => mmapChunk
  | .unix => memChunk

theorem ProviderKind.chunkSize_pos (k : ProviderKind) : 0 < k.chunkSize := by
  cases k with
  | mmap => exact mmapChunk_pos
  | unix => exact memChunk_pos

/-- `io` is `none` once it has been reset. -/
structure Provider (φ : Type) where
  kind : ProviderKind
  io : Option φ
  heap : Heap UInt8
  lru : Lru BufEntry 4
  size : Nat

namespace Provider

variable {φ : Type} [ReadIo φ]

def createUnix (io : φ) : Provider φ where
  kind := .unix
  io := some io
  heap := Heap.empty
  lru := Lru.replicate 4 {}
  size := (ReadIo.contents io).length

def createMmap (io : φ) : Except Error (Provider φ) := do
  let size := (ReadIo.contents io).length
  let toMap := if size < mmapLimit then size else mmapChunk
  let data ← ReadIo.mmap io 0 toMap
  let (ptr, heap) := Heap.empty.alloc data.1
  pure {
    kind := .mmap
    io := if toMap = size then none else some io
    heap
    lru := ⟨[{ ptr := some ptr, offset := 0, size := toMap }, {}, {}, {}], rfl⟩
    size }

/-- `Source::FromFile_`. -/
def fromFile (io : φ) : Except Error (Provider φ) :=
  match createMmap io with
  | .error .systemError => .ok (createUnix io)
  | p => p

/-- The bytes `len` behind `offs` in the piece `x`, as `memcpy` copies them. -/
def copy (p : Provider φ) (x : BufEntry) (offs len : Nat) : Except Error Bytes :=
  match x.ptr.bind p.heap.block with
  | some data =>
      if offs + len ≤ data.length then .ok (slice data offs len) else .error .undefinedBehaviour
  | none => .error .undefinedBehaviour

def lruGet (p : Provider φ) (offs : Nat) : Except Error (Bool × Provider φ) :=
  match p.lru.get? (BufEntry.covers offs) with
  | none => .ok (false, p)
  | some (x, lru) => do
      require (x.ptr.isSome = true) (Error.assertionFailed "x.ptr")
      pure (true, { p with lru })

def readChunk (p : Provider φ) (offs size : Nat) : Except Error (Nat × Heap UInt8) :=
  match p.io with
  | none => .error .undefinedBehaviour
  | some io => do
      let data ← match p.kind with
        | .mmap => ReadIo.mmap io offs size
        | .unix => ReadIo.pread io size offs
      pure (p.heap.alloc data.1)

def release (heap : Heap UInt8) (ptr : Nat) : Except Error (Heap UInt8) :=
  match heap.release ptr with
  | some heap => .ok heap
  | none => .error .undefinedBehaviour

/-- A mapping is given back with its size. -/
def munmap (heap : Heap UInt8) (ptr size : Nat) : Except Error (Heap UInt8) := do
  require ((heap.block ptr).map List.length = some size) Error.undefinedBehaviour
  release heap ptr

def deleteChunk (kind : ProviderKind) (heap : Heap UInt8) (x : BufEntry) :
    Except Error (Heap UInt8) :=
  match x.ptr, kind with
  | none, _ => .ok heap
  | some ptr, .mmap => munmap heap ptr x.size
  | some ptr, .unix => release heap ptr

def ensureChunk (p : Provider φ) (offs : Nat) : Except Error (Provider φ) := do
  let chOffs := offs / p.kind.chunkSize * p.kind.chunkSize
  let (hit, p) ← p.lruGet offs
  if hit then pure p else do
    let size := min p.kind.chunkSize (p.size - chOffs)
    let (ptr, heap) ← p.readChunk chOffs size
    let heap ← deleteChunk p.kind heap p.lru.last
    pure { p with heap, lru := p.lru.push { ptr := some ptr, offset := chOffs, size } }

/-- The loop of `UnixLike::Pread`. -/
def preadChunks (p : Provider φ) (offs len : Nat) : Except Error (Bytes × Provider φ) :=
  if len = 0 then .ok ([], p) else do
    let p ← p.ensureChunk offs
    let x := p.lru.head
    let bufOffs := offs - x.offset
    let toCpy := min len (x.size - bufOffs)
    let data ← p.copy x bufOffs toCpy
    if toCpy = 0 then .error .undefinedBehaviour else do
      let (rest, p) ← p.preadChunks (offs + toCpy) (len - toCpy)
      pure (data ++ rest, p)
termination_by len
decreasing_by exact Nat.sub_lt (Nat.pos_of_ne_zero ‹¬ len = 0›) (Nat.pos_of_ne_zero ‹¬ toCpy = 0›)

def pread (p : Provider φ) (offs len : Nat) : Except Error (Bytes × Provider φ) :=
  if p.kind.chunkSize < len then
    match p.io with
    | none => .error .undefinedBehaviour
    | some io => do
        let buf ← ReadIo.pread io len offs
        pure (buf.1, p)
  else if len = 0 then do
    let p ← p.ensureChunk offs
    pure ([], p)
  else p.preadChunks offs len

def destroy (p : Provider φ) : Except Error (Heap UInt8) :=
  p.lru.entries.foldlM
    (fun heap x => if x.size ≠ 0 then deleteChunk p.kind heap x else pure heap) p.heap

end Provider

/-- `Provider::Pread`, which every kind of provider has of its own. -/
abbrev ProviderPread (φ : Type) :=
  Provider φ → (offs len : Nat) → Except Error (Bytes × Provider φ)

/-! The functions of a source that ask its provider. -/

namespace Provider

variable {φ : Type} (pread : ProviderPread φ)

/-- The loop of `Source::Pread_`, at a position in the file. -/
def preadCached (p : Provider φ) (offs len : Nat) : Except Error (Bytes × Provider φ) :=
  if len = 0 then .ok ([], p) else do
    let (hit, p) ← p.lruGet offs
    if hit then do
      let x := p.lru.head
      let bufOffs := offs - x.offset
      let toCpy := min len (x.size - bufOffs)
      let data ← p.copy x bufOffs toCpy
      if toCpy = 0 then .error .undefinedBehaviour else do
        let (rest, p) ← preadCached p (offs + toCpy) (len - toCpy)
        pure (data ++ rest, p)
    else pread p offs len
termination_by len
decreasing_by exact Nat.sub_lt (Nat.pos_of_ne_zero ‹¬ len = 0›) (Nat.pos_of_ne_zero ‹¬ toCpy = 0›)

def getTemporaryEntry (p : Provider φ) (offs : Nat) : Except Error (BufEntry × Provider φ) := do
  let (hit, p) ← p.lruGet offs
  if hit then pure (p.lru.head, p) else do
    let (_, p) ← pread p offs 0
    require (p.lru.head.covers offs = true)
      (Error.assertionFailed
        "p->lru[0].offset <= offs && p->lru[0].offset + p->lru[0].size > offs")
    pure (p.lru.head, p)

end Provider

namespace Source

variable {φ : Type} (s : Source) (pread : ProviderPread φ)

def preadFrom (p : Provider φ) (offs len : Nat) : Except Error (Bytes × Provider φ) := do
  require (offs ≤ s.size ∧ offs + len ≤ s.size) (Error.sourceOverflow "Source overflow")
  p.preadCached pread (offs + s.offset) len

def getChunk (p : Provider φ) (offs : Nat) : Except Error (Bytes × Provider φ) := do
  require (offs < s.size) (Error.assertionFailed "offs < size")
  let (e, p) ← p.getTemporaryEntry pread (offs + s.offset)
  let eoffs := offs + s.offset - e.offset
  let data ← p.copy e eoffs (min (e.size - eoffs) (s.size - offs))
  pure (data, p)

/-- The pieces that `Dump` writes into the sink from `offset` on. -/
def dumpFrom (p : Provider φ) (offset : Nat) : Except Error (List Bytes × Provider φ) :=
  if offset < s.size then do
    let (chunk, p) ← s.getChunk pread p offset
    if chunk = [] then .error .undefinedBehaviour else do
      let (rest, p) ← dumpFrom p (offset + chunk.length)
      pure (chunk :: rest, p)
  else .ok ([], p)
termination_by s.size - offset
decreasing_by
  have : 0 < chunk.length := List.length_pos_of_ne_nil ‹_›
  omega

def dump (p : Provider φ) : Except Error (List Bytes × Provider φ) := s.dumpFrom pread p 0

end Source

end Neptools

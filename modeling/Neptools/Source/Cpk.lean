import Neptools.Source.Cache

/-!
The provider on an entry of an archive. The game's own functions read the entry
from the position in its record, a 32-bit number; the provider reads whole
chunks and keeps the last four. A chunk is read from a multiple of its size, and
remembered as one that begins where the caller's read began.
-/

namespace Neptools

open Lib

def cpkChunk : Nat := 128 * 1024 * 1024

theorem cpkChunk_pos : 0 < cpkChunk := by decide

class CpkHandler (φ : Type) where
  contents : φ → Bytes
  uncompressedSize : φ → UInt32
  origRead : φ → (readPos : UInt32) → (len : Nat) → Option Bytes

class LawfulCpkHandler (φ : Type) [CpkHandler φ] : Prop where
  size_eq : ∀ cpk : φ, (CpkHandler.contents cpk).length = (CpkHandler.uncompressedSize cpk).toNat
  origRead_ok : ∀ (cpk : φ) (readPos : UInt32) (len : Nat),
    readPos.toNat + len ≤ (CpkHandler.contents cpk).length →
    CpkHandler.origRead cpk readPos len = some (slice (CpkHandler.contents cpk) readPos.toNat len)

/-- An entry that is its bytes. -/
structure PlainEntry where
  bytes : Bytes
  length_lt : bytes.length < 2 ^ 32

instance : CpkHandler PlainEntry where
  contents e := e.bytes
  uncompressedSize e := UInt32.ofNat e.bytes.length
  origRead e readPos len :=
    if readPos.toNat + len ≤ e.bytes.length then some (slice e.bytes readPos.toNat len) else none

instance : LawfulCpkHandler PlainEntry where
  size_eq e := (UInt32.toNat_ofNat_of_lt' e.length_lt).symm
  origRead_ok _ _ _ h := if_pos h

/-- The entry a provider was made for. -/
structure CpkEntry (φ : Type) where
  cpk : φ

variable {φ : Type} [CpkHandler φ]

namespace CpkEntry

/-- `OrigRead` from a position set before, and the check of how much it has read. -/
def origRead (e : CpkEntry φ) (readPos len : Nat) (cond : String) : Except Error (ByteArr len) :=
  match CpkHandler.origRead e.cpk (UInt32.ofNat readPos) len with
  | none => .error (.runtimeError "Cpk::OrigRead failed")
  | some buf => if h : buf.length = len then .ok ⟨buf, h⟩ else .error (.assertionFailed cond)

instance : ReadIo (CpkEntry φ) where
  contents e := CpkHandler.contents e.cpk
  pread e len offs := e.origRead offs len "read == len"
  mmap _ _ _ := .error .systemError

theorem origRead_ok [LawfulCpkHandler φ] (e : CpkEntry φ) {readPos len : Nat}
    (h : readPos + len ≤ (ReadIo.contents e).length) (cond : String) :
    ∃ buf, e.origRead readPos len cond = .ok buf ∧
      buf.1 = slice (ReadIo.contents e) readPos len := by
  have hsize : (CpkHandler.contents e.cpk).length < 2 ^ 32 :=
    LawfulCpkHandler.size_eq e.cpk ▸ UInt32.toNat_lt _
  have hpos : (UInt32.ofNat readPos).toNat = readPos :=
    UInt32.toNat_ofNat_of_lt' (show readPos < 2 ^ 32 by
      have : readPos + len ≤ (CpkHandler.contents e.cpk).length := h
      omega)
  have hread := LawfulCpkHandler.origRead_ok e.cpk (UInt32.ofNat readPos) len (by rw [hpos]; exact h)
  rw [hpos] at hread
  have hbuf : (slice (CpkHandler.contents e.cpk) readPos len).length = len := length_slice_of_le h
  refine ⟨⟨_, hbuf⟩, ?_, rfl⟩
  rw [origRead, hread]
  exact dif_pos hbuf

end CpkEntry

/-! `CpkSource`: a provider whose pieces are on the heap. -/

abbrev CpkSource (φ : Type) := Provider (CpkEntry φ)

namespace CpkSource

def create (cpk : φ) : CpkSource φ where
  kind := .unix
  io := some ⟨cpk⟩
  heap := Heap.empty
  lru := Lru.replicate 4 {}
  size := (CpkHandler.uncompressedSize cpk).toNat

/-- The chunk that has `offs`, remembered under the position `offs`. -/
def readChunk (p : CpkSource φ) (offs : Nat) : Except Error (Bytes × CpkSource φ) :=
  match p.io with
  | none => .error .undefinedBehaviour
  | some e => do
      let coffs := offs / cpkChunk * cpkChunk
      let csize := min cpkChunk (p.size - coffs)
      let cbuf ← e.origRead coffs csize "read == csize"
      let (ptr, heap) := p.heap.alloc cbuf.1
      let heap ← Provider.deleteChunk .unix heap p.lru.last
      pure (cbuf.1, { p with heap, lru := p.lru.push { ptr := some ptr, offset := offs, size := csize } })

/-- The loop of `CpkSource::Pread`; it runs at least once. -/
def preadChunks (p : CpkSource φ) (offs len : Nat) : Except Error (Bytes × CpkSource φ) := do
  let (cbuf, p) ← readChunk p offs
  let toOffs := offs % cpkChunk
  let toCopy := min len (cbuf.length - toOffs)
  let data := slice cbuf toOffs toCopy
  if len - toCopy = 0 then pure (data, p)
  else if toCopy = 0 then .error .undefinedBehaviour else do
    let (rest, p) ← preadChunks p (offs + toCopy) (len - toCopy)
    pure (data ++ rest, p)
termination_by len
decreasing_by omega

def pread (p : CpkSource φ) (offs len : Nat) : Except Error (Bytes × CpkSource φ) :=
  if cpkChunk < len then
    match p.io with
    | none => .error .undefinedBehaviour
    | some e => do
        let buf ← e.origRead offs len "read == len"
        pure (buf.1, p)
  else preadChunks p offs len

/-! What the cache holds when every chunk was read from where it is remembered. -/

structure Cached (file : Bytes) (p : CpkSource φ) : Prop where
  caches : p.Caches file
  io_ne_none : p.io ≠ none
  chunks : ∀ x ∈ p.lru, x.size ≠ 0 →
    cpkChunk ∣ x.offset ∧ x.size = min cpkChunk (file.length - x.offset)

/-- No chunk is read from between the places where chunks begin: more than a chunk is
asked for, or something from a position in the cache or at the beginning of a chunk. -/
def AtChunk (p : CpkSource φ) (offs len : Nat) : Prop :=
  cpkChunk < len ∨ (∃ x ∈ p.lru, x.covers offs = true) ∨ cpkChunk ∣ offs

variable {file : Bytes} {p : CpkSource φ}

variable [LawfulCpkHandler φ]

theorem readChunk_spec (hp : Cached file p) {offs : Nat} (hdvd : cpkChunk ∣ offs)
    (h : offs < file.length) :
    ∃ q, readChunk p offs = .ok (slice file offs (min cpkChunk (file.length - offs)), q) ∧
      Cached file q ∧ q.lru.head.covers offs = true := by
  have hpos := cpkChunk_pos
  have hsize : 0 < min cpkChunk (file.length - offs) := by omega
  have hle : offs + min cpkChunk (file.length - offs) ≤ file.length := by omega
  have hcoffs : offs / cpkChunk * cpkChunk = offs := Nat.div_mul_cancel hdvd
  have hcsize : min cpkChunk (p.size - offs / cpkChunk * cpkChunk) =
      min cpkChunk (file.length - offs) := by rw [hcoffs, hp.caches.size_eq]
  rw [readChunk]
  split
  · exact absurd ‹_› hp.io_ne_none
  · rename_i e he
    have hfile := hp.caches.handle e he
    subst hfile
    obtain ⟨buf, hbuf, hdata⟩ := e.origRead_ok hle "read == csize"
    obtain ⟨heap, hdel, hblock⟩ :=
      Provider.deleteChunk_spec (hp.caches.entry_alloc p.lru.last_mem buf.1) .unix
    have hq := hp.caches.push hsize hle hp.io_ne_none (hdata ▸ hblock)
    refine ⟨_, ?_, ⟨hq, hp.io_ne_none, ?_⟩, ?_⟩
    · dsimp only
      rw [hcsize, hcoffs, hbuf, ok_bind, hdel, ok_bind, hdata]
      rfl
    · intro x hx hne
      cases Lru.mem_of_mem_push hx with
      | inl hnew =>
          subst hnew
          exact ⟨hdvd, rfl⟩
      | inr hold => exact hp.chunks x hold hne
    · exact BufEntry.covers_iff.mpr ⟨Nat.le_refl _, Nat.lt_add_of_pos_right hsize⟩

theorem preadChunks_spec (hp : Cached file p) {offs len : Nat} (hdvd : cpkChunk ∣ offs)
    (hlt : offs < file.length) (h : offs + len ≤ file.length) :
    ∃ q, preadChunks p offs len = .ok (slice file offs len, q) ∧ Cached file q ∧
      (len = 0 → q.lru.head.covers offs = true) := by
  induction len using Nat.strong_induction_on generalizing p offs with
  | _ len ih =>
      obtain ⟨q, hread, hq, hcov⟩ := readChunk_spec hp hdvd hlt
      have hpos := cpkChunk_pos
      have hlen : (slice file offs (min cpkChunk (file.length - offs))).length =
          min cpkChunk (file.length - offs) := length_slice_of_le (by omega)
      rw [preadChunks, hread]
      simp only [ok_bind, Nat.mod_eq_zero_of_dvd hdvd, hlen, Nat.sub_zero]
      generalize hm : min len (min cpkChunk (file.length - offs)) = n
      rw [slice_slice file (by omega), Nat.add_zero]
      by_cases hdone : len - n = 0
      · have hn : n = len := by omega
        exact ⟨q, by rw [if_pos hdone, hn, pure_eq_ok], hq, fun _ => hcov⟩
      · have hn : n = cpkChunk := by omega
        subst hn
        obtain ⟨r, hrest, hr, -⟩ := ih (len - cpkChunk) (by omega) hq
          (show cpkChunk ∣ offs + cpkChunk from Nat.dvd_add hdvd (Nat.dvd_refl _)) (by omega) (by omega)
        refine ⟨r, ?_, hr, fun hzero => absurd hzero (by omega)⟩
        rw [if_neg hdone, if_neg hpos.ne', hrest, ok_bind]
        simp only [slice_append_slice, pure_eq_ok]
        rw [Nat.add_sub_cancel' (by omega)]

theorem pread_spec (hp : Cached file p) {offs len : Nat} (hlt : offs < file.length)
    (h : offs + len ≤ file.length) (hchunk : cpkChunk < len ∨ cpkChunk ∣ offs) :
    ∃ q, pread p offs len = .ok (slice file offs len, q) ∧ Cached file q ∧
      (len = 0 → q.lru.head.covers offs = true) := by
  rw [pread]
  split
  · rename_i hlong
    split
    · exact absurd ‹_› hp.io_ne_none
    · rename_i e he
      have hfile := hp.caches.handle e he
      subst hfile
      obtain ⟨buf, hbuf, hdata⟩ := e.origRead_ok h "read == len"
      refine ⟨p, ?_, hp, fun hzero => absurd hzero (by omega)⟩
      rw [hbuf, ok_bind, hdata, pure_eq_ok]
  · rename_i hshort
    exact preadChunks_spec hp (hchunk.resolve_left hshort) hlt h

/-- Behind a chunk another one begins, or the file ends. -/
theorem pread_servesMisses :
    Provider.ServesMisses (φ := CpkEntry φ) pread file (Cached file) AtChunk where
  caches _ hp := hp.caches
  reorder _ _ hp hmem hq := ⟨hq, hp.io_ne_none, fun x hx => hp.chunks x ((hmem x).mp hx)⟩
  behind p hp hsize hlt len := by
    obtain ⟨hdvd, hchunk⟩ := hp.chunks _ p.lru.head_mem hsize
    have hfull : p.lru.head.size = cpkChunk := by omega
    exact Or.inr (Or.inr (hfull.symm ▸ Nat.dvd_add hdvd (Nat.dvd_refl _)))
  miss p offs len hp hnot hat hlt h := by
    refine pread_spec hp hlt h (hat.imp id fun hat => hat.resolve_left ?_)
    rintro ⟨x, hx, hcov⟩
    exact hnot x hx hcov

end CpkSource

namespace CpkSource

theorem cached_create [LawfulCpkHandler φ] (cpk : φ) :
    Cached (CpkHandler.contents cpk) (create cpk) where
  caches :=
    { size_eq := (LawfulCpkHandler.size_eq cpk).symm
      handle := fun e h => by cases h; rfl
      entries := fun x hx => Or.inl (by rw [Lru.mem_replicate hx]; exact ⟨rfl, rfl⟩)
      complete := fun h => nomatch h
      live_iff := fun _ => iff_of_false (fun h => nomatch h) (fun h => nomatch h)
      nodup := List.nodup_nil }
  io_ne_none h := nomatch h
  chunks x hx hne := by
    rw [Lru.mem_replicate hx] at hne
    exact absurd rfl hne

/-- What a run should give: every call the bytes of the file, and a cache whose
entries have the bytes of the file at their place. -/
def ReadsFile (cpk : φ) (calls : List SourceCall) : Prop :=
  ∃ outs q, transcript (SourceCall.exec pread) (create cpk) calls = .ok (outs, q) ∧
    List.Forall₂ SourceCall.Answers calls outs ∧
    ∀ x ∈ q.lru, x.size ≠ 0 → ∃ ptr, x.Caches (CpkHandler.contents cpk) q.heap ptr

theorem readsFile_of_atChunk [LawfulCpkHandler φ] (cpk : φ) (calls : List SourceCall)
    (hcalls : ∀ c ∈ calls, c.InRange (CpkHandler.contents cpk))
    (hchunk : EveryStep (fun p c => (SourceCall.exec pread p c).map Prod.snd)
      (fun p c => c.Begins AtChunk p) (create cpk) calls) : ReadsFile cpk calls := by
  obtain ⟨outs, q, hrun, hall, hq⟩ := transcript_answers_of_everyStep
    (fun p c hp hc => SourceCall.exec_spec pread_servesMisses c hp hc.1 hc.2) (cached_create cpk)
    ((everyStep_of_forall _ hcalls).and hchunk)
  refine ⟨outs, q, hrun, hall, fun x hx hne => ?_⟩
  exact (hq.caches.entries x hx).resolve_left fun hnone => hne hnone.2

def threeBytes : PlainEntry := ⟨[1, 2, 3], by decide⟩

theorem readsFile_threeBytes :
    ReadsFile threeBytes [.getChunk (Source.fromMemory [1, 2, 3]) 0,
      .pread (Source.fromMemory [1, 2, 3]) 0 2, .dump (Source.fromMemory [1, 2, 3])] := by
  have hstart : ∀ (p : CpkSource PlainEntry) len, AtChunk p 0 len :=
    fun p len => Or.inr (Or.inr (Nat.dvd_zero _))
  refine readsFile_of_atChunk threeBytes _ (fun c hc => ?_)
    ⟨hstart _ _, fun p _ => ⟨Or.inr (hstart p _), fun q _ => ⟨Or.inr (hstart q _), fun _ _ => trivial⟩⟩⟩
  simp only [List.mem_cons, List.not_mem_nil, or_false] at hc
  obtain rfl | rfl | rfl := hc
  · exact ⟨rfl, by decide⟩
  · exact ⟨rfl, by decide⟩
  · exact rfl

/-- Two reads of the second byte. -/
def secondByteTwice : List SourceCall :=
  [.pread (Source.fromMemory [1, 2, 3]) 1 1, .pread (Source.fromMemory [1, 2, 3]) 1 1]

/-- The first read remembers the chunk one byte too far behind, and the second one
gets the first byte. -/
theorem readsFile_not_at_chunk :
    (∀ c ∈ secondByteTwice, c.InRange (CpkHandler.contents threeBytes)) ∧
      ¬ ReadsFile threeBytes secondByteTwice := by
  refine ⟨fun c hc => ?_, fun ⟨outs, q, hrun, hall, _⟩ => ?_⟩
  · simp only [secondByteTwice, List.mem_cons, List.not_mem_nil, or_false, or_self] at hc
    subst hc
    exact ⟨rfl, by decide⟩
  · have houts : (transcript (SourceCall.exec pread) (create threeBytes) secondByteTwice).map
        Prod.fst = .ok [[[2]], [[1]]] := by decide +kernel
    rw [hrun] at houts
    cases houts
    obtain ⟨buf, hbuf, hout⟩ := (List.forall₂_cons.mp (List.forall₂_cons.mp hall).2).1
    cases hbuf
    exact absurd hout (by decide)

end CpkSource

end Neptools

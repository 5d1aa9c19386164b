import Neptools.Source.Cache

/-!
A text of a window, read chunk by chunk up to its first NUL. The loop only asks
for the next chunk, so any provider will do that hands out pieces of the window:
those that read a file piece by piece, and those that hold all of it in memory.
A text without a NUL is read to the end of the window, and there the loop asks
for one chunk more.
-/

namespace Neptools

open Lib

/-- Providers as `GetChunk` uses them. -/
class Chunks (σ : Type) where
  getChunk : Source → σ → Nat → Except Error (Bytes × σ)
  lt_of_getChunk : ∀ {s : Source} {p : σ} {offs : Nat} {r : Bytes × σ},
    getChunk s p offs = .ok r → offs < s.size

/-- A provider that serves a file hands out what stands in the window. -/
class LawfulChunks (σ : Type) [Chunks σ] where
  Serves : Bytes → σ → Prop
  getChunk_ok : ∀ {s : Source} {p : σ} {offs : Nat}, Serves s.file p → offs < s.size →
    ∃ chunk q, Chunks.getChunk s p offs = .ok (chunk, q) ∧ Serves s.file q ∧ chunk ≠ [] ∧
      StandsAt chunk offs s.bytes
  getChunk_end : ∀ {s : Source} {p : σ} {offs : Nat}, s.size ≤ offs →
    Chunks.getChunk s p offs = .error (.assertionFailed "offs < size")

instance {φ : Type} [ReadIo φ] : Chunks (Provider φ) where
  getChunk s p offs := s.getChunk Provider.pread p offs
  lt_of_getChunk h := by
    obtain ⟨_, hlt, -⟩ := bind_eq_ok.mp h
    exact require_eq_ok.mp hlt

instance {φ : Type} [ReadIo φ] [LawfulReadIo φ] : LawfulChunks (Provider φ) where
  Serves file p := p.Caches file
  getChunk_ok hp h := by
    obtain ⟨chunk, q, hchunk, hq, hne, hstand, -⟩ :=
      Source.getChunk_spec Provider.pread_servesMisses hp h trivial
    exact ⟨chunk, q, hchunk, hq, hne, hstand⟩
  getChunk_end h := by
    simp only [Chunks.getChunk, Source.getChunk, require_not (Nat.not_lt_of_le h), error_bind]

/-- `StringProvider` and `UniquePtrProvider`: one entry, made with the provider,
has all of the data. -/
structure MemoryProvider where
  data : Bytes

namespace MemoryProvider

def entry (p : MemoryProvider) : BufEntry := { ptr := some 0, offset := 0, size := p.data.length }

/-- What is not in the entry is never asked for, so `Pread` is not reached. -/
def getTemporaryEntry (p : MemoryProvider) (offs : Nat) : Except Error BufEntry := do
  require (p.entry.covers offs = true) (Error.assertionFailed "StringProvider Pread")
  pure p.entry

def getChunk (s : Source) (p : MemoryProvider) (offs : Nat) :
    Except Error (Bytes × MemoryProvider) := do
  require (offs < s.size) (Error.assertionFailed "offs < size")
  let e ← p.getTemporaryEntry (offs + s.offset)
  let eoffs := offs + s.offset - e.offset
  pure (slice p.data eoffs (min (e.size - eoffs) (s.size - offs)), p)

theorem getChunk_spec {s : Source} {p : MemoryProvider} {offs : Nat} (hp : s.file = p.data)
    (h : offs < s.size) :
    getChunk s p offs = .ok (slice s.bytes offs (s.size - offs), p) := by
  have hwindow := s.window_le
  have hcov : p.entry.covers (offs + s.offset) = true := by
    refine BufEntry.covers_iff.mpr ⟨Nat.zero_le _, ?_⟩
    simp only [entry, Nat.zero_add, ← hp]
    omega
  have hmin : min (p.data.length - (offs + s.offset)) (s.size - offs) = s.size - offs := by
    rw [← hp]
    omega
  rw [getChunk, require_of h, ok_bind, getTemporaryEntry, require_of hcov, ok_bind, pure_eq_ok,
    ok_bind]
  simp only [entry, Nat.sub_zero, hmin, pure_eq_ok]
  rw [Source.bytes, slice_slice _ (by omega), ← hp, Nat.add_comm]

end MemoryProvider

instance : Chunks MemoryProvider where
  getChunk := MemoryProvider.getChunk
  lt_of_getChunk h := by
    obtain ⟨_, hlt, -⟩ := bind_eq_ok.mp h
    exact require_eq_ok.mp hlt

instance : LawfulChunks MemoryProvider where
  Serves file p := file = p.data
  getChunk_ok {s p offs} hp h := by
    refine ⟨_, p, MemoryProvider.getChunk_spec hp h, hp, ?_, ?_⟩
    · refine List.ne_nil_of_length_pos ?_
      rw [length_slice_of_le (by rw [Source.length_bytes]; omega)]
      omega
    · exact StandsAt.of_slice (by rw [Source.length_bytes]; omega)
  getChunk_end h := by
    simp only [Chunks.getChunk, MemoryProvider.getChunk, require_not (Nat.not_lt_of_le h),
      error_bind]

def strnlen (xs : Bytes) : Nat := (xs.takeWhile (· ≠ 0)).length

theorem strnlen_eq_length {xs : Bytes} : strnlen xs = xs.length ↔ 0 ∉ xs := by
  rw [strnlen]
  constructor
  · intro h hmem
    have hall := (List.takeWhile_prefix (p := (· ≠ 0)) (l := xs)).eq_of_length h
    have hne := List.all_eq_true.mp (List.all_takeWhile (p := (· ≠ 0)) (l := xs)) 0 (hall.symm ▸ hmem)
    exact of_decide_eq_true hne rfl
  · intro h
    rw [takeWhile_ne_zero h]

theorem take_strnlen (xs : Bytes) : xs.take (strnlen xs) = xs.takeWhile (· ≠ 0) :=
  (List.prefix_iff_eq_take.mp (List.takeWhile_prefix _)).symm

namespace Source

variable {σ : Type} [Chunks σ]

/-- The loop of `PreadCString`. A chunk without bytes would be asked for again and
again. -/
def preadCStringFrom (s : Source) (p : σ) (offs : Nat) (ret : Bytes) :
    Except Error (Bytes × σ) :=
  match _h : Chunks.getChunk s p offs with
  | .error e => .error e
  | .ok (e, p) =>
      let len := strnlen e
      let ret := ret ++ e.take len
      if len = e.length then
        if e = [] then .error .undefinedBehaviour
        else s.preadCStringFrom p (offs + e.length) ret
      else .ok (ret, p)
termination_by s.size - offs
decreasing_by
  have hlt := Chunks.lt_of_getChunk _h
  have hpos : 0 < e.length := List.length_pos_of_ne_nil ‹_›
  omega

def preadCStringVia (s : Source) (p : σ) (offs : Nat) : Except Error (Bytes × σ) :=
  s.preadCStringFrom p offs []

variable [LawfulChunks σ] {s : Source} {p : σ} {offs : Nat}

/-- What the loop gives is what it has got so far and the text that follows. -/
theorem preadCStringFrom_of_mem (hp : LawfulChunks.Serves s.file p)
    (h : 0 ∈ s.bytes.drop offs) (ret : Bytes) :
    ∃ q : σ, LawfulChunks.Serves s.file q ∧
      s.preadCStringFrom p offs ret = .ok (ret ++ (s.bytes.drop offs).takeWhile (· ≠ 0), q) := by
  induction hn : s.size - offs using Nat.strong_induction_on generalizing p offs ret with
  | _ n ih =>
      have hlt : offs < s.size := by
        have hpos := List.length_pos_of_mem h
        rw [List.length_drop, length_bytes] at hpos
        omega
      obtain ⟨e, q, hchunk, hq, hne, hstand⟩ := LawfulChunks.getChunk_ok hp hlt
      have hpos : 0 < e.length := List.length_pos_of_ne_nil hne
      rw [hstand.drop_eq_append] at h ⊢
      rw [preadCStringFrom.eq_def, hchunk]
      simp only [take_strnlen, if_neg hne, List.takeWhile_append, ← strnlen.eq_def]
      by_cases he : 0 ∈ e
      · have hlen : ¬ strnlen e = e.length := fun hlen => strnlen_eq_length.mp hlen he
        exact ⟨q, hq, by simp only [if_neg hlen]⟩
      · have hlen : strnlen e = e.length := strnlen_eq_length.mpr he
        obtain ⟨r, hr, hrest⟩ := ih (s.size - (offs + e.length)) (by omega) hq
          ((List.mem_append.mp h).resolve_left he) (ret ++ e) rfl
        refine ⟨r, hr, ?_⟩
        simp only [if_pos hlen, takeWhile_ne_zero he, hrest, List.append_assoc]

theorem preadCStringFrom_of_not_mem (hp : LawfulChunks.Serves s.file p)
    (h : 0 ∉ s.bytes.drop offs) (ret : Bytes) :
    s.preadCStringFrom p offs ret = .error (.assertionFailed "offs < size") := by
  induction hn : s.size - offs using Nat.strong_induction_on generalizing p offs ret with
  | _ n ih =>
      rw [preadCStringFrom.eq_def]
      by_cases hlt : offs < s.size
      · obtain ⟨e, q, hchunk, hq, hne, hstand⟩ := LawfulChunks.getChunk_ok hp hlt
        have hpos : 0 < e.length := List.length_pos_of_ne_nil hne
        rw [hstand.drop_eq_append, List.mem_append, not_or] at h
        have hlen : strnlen e = e.length := strnlen_eq_length.mpr h.1
        rw [hchunk]
        simp only [if_pos hlen, if_neg hne]
        exact ih _ (by omega) hq h.2 _ rfl
      · rw [LawfulChunks.getChunk_end (Nat.le_of_not_lt hlt)]

/-- The chunks do not show in the text. -/
theorem preadCStringVia_eq (hp : LawfulChunks.Serves s.file p) (offs : Nat) :
    (s.preadCStringVia p offs).map Prod.fst = s.preadCString offs := by
  by_cases h : 0 ∈ s.bytes.drop offs
  · obtain ⟨q, -, hq⟩ := preadCStringFrom_of_mem hp h []
    rw [preadCStringVia, hq, preadCString_of_mem h]
    rfl
  · rw [preadCStringVia, preadCStringFrom_of_not_mem hp h, preadCString_of_not_mem h]
    rfl

theorem standsAt_of_getChunk (hp : LawfulChunks.Serves s.file p) {chunk : Bytes} {q : σ}
    (h : Chunks.getChunk s p offs = .ok (chunk, q)) : StandsAt chunk offs s.bytes := by
  obtain ⟨_, _, hchunk, -, -, hstand⟩ := LawfulChunks.getChunk_ok hp (Chunks.lt_of_getChunk h)
  cases h.symm.trans hchunk
  exact hstand

omit [Chunks σ] [LawfulChunks σ] in
/-- What reading a text from `offs` on should give: the text up to the first NUL
of the window, and an exception when there is none. -/
structure ReadsCString (s : Source) (offs : Nat) (r : Except Error (Bytes × σ)) : Prop where
  noAssertion : ∀ cond, r ≠ .error (.assertionFailed cond)
  upToNul : 0 ∈ s.bytes.drop offs → ∃ q, r = .ok ((s.bytes.drop offs).takeWhile (· ≠ 0), q)
  noNul : 0 ∉ s.bytes.drop offs → ∃ message, r = .error (.decodeError message)

theorem readsCString_iff (hp : LawfulChunks.Serves s.file p) (offs : Nat) :
    ReadsCString s offs (s.preadCStringVia p offs) ∧
        (∀ (q q' : σ) (pos : Nat) (chunk : Bytes), LawfulChunks.Serves s.file q →
          Chunks.getChunk s q pos = .ok (chunk, q') → StandsAt chunk pos s.bytes) ↔
      0 ∈ s.bytes.drop offs := by
  constructor
  · intro h
    by_contra hnul
    exact h.1.noAssertion _ (preadCStringFrom_of_not_mem hp hnul [])
  · intro hnul
    obtain ⟨q, -, hread⟩ := preadCStringFrom_of_mem hp hnul []
    refine ⟨⟨fun cond h => ?_, fun _ => ⟨q, hread⟩, fun hno => absurd hnul hno⟩,
      fun q q' pos chunk hq h => standsAt_of_getChunk hq h⟩
    rw [preadCStringVia, hread] at h
    cases h

def abNul : Bytes := [0x61, 0x62, 0]

theorem readsCString_abNul :
    ReadsCString (fromMemory abNul) 1
        ((fromMemory abNul).preadCStringVia (Provider.createUnix abNul) 1) ∧
      (∀ (q q' : Provider Bytes) (pos : Nat) (chunk : Bytes),
        LawfulChunks.Serves (fromMemory abNul).file q →
        Chunks.getChunk (fromMemory abNul) q pos = .ok (chunk, q') →
        StandsAt chunk pos (fromMemory abNul).bytes) :=
  (readsCString_iff (s := fromMemory abNul) (p := Provider.createUnix abNul)
    (Provider.caches_createUnix abNul) 1).mpr (by decide)

/-- Without a NUL the loop asks for a chunk at the end of the window. -/
theorem readsCString_no_nul :
    ¬ ReadsCString (fromMemory [0x61]) 0
      ((fromMemory [0x61]).preadCStringVia (Provider.createUnix ([0x61] : Bytes)) 0) := by
  intro h
  refine h.noAssertion "offs < size" ?_
  exact preadCStringFrom_of_not_mem (s := fromMemory [0x61]) (Provider.caches_createUnix [0x61])
    (by decide) []

end Source

end Neptools

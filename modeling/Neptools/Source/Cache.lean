import Neptools.Lib.Run
import Neptools.Source.Provider

/-!
What is read through a provider is what stands in the file. The invariant says
what the cache holds: every entry in use has the bytes of the file at its place,
in a block of its own, and there are no other blocks; a provider that has reset
its file has the whole file in an entry. Reading keeps it, so no read fails, and
in the end every block has been released once.
-/

namespace Neptools

open Lib

/-- The entry has the bytes of the file at its place. -/
structure BufEntry.Caches (file : Bytes) (heap : Heap UInt8) (x : BufEntry) (ptr : Nat) :
    Prop where
  ptr_eq : x.ptr = some ptr
  size_pos : 0 < x.size
  le : x.offset + x.size ≤ file.length
  block_eq : heap.block ptr = some (slice file x.offset x.size)

theorem BufEntry.Caches.mono {file : Bytes} {heap heap' : Heap UInt8} {x : BufEntry} {ptr : Nat}
    (hx : x.Caches file heap ptr) (h : heap'.block ptr = heap.block ptr) :
    x.Caches file heap' ptr :=
  ⟨hx.ptr_eq, hx.size_pos, hx.le, h.trans hx.block_eq⟩

namespace Provider

variable {φ : Type} [ReadIo φ]

/-- The blocks the entries of the cache point to. -/
def ptrs (p : Provider φ) : List Nat := p.lru.entries.filterMap BufEntry.ptr

structure Caches (file : Bytes) (p : Provider φ) : Prop where
  size_eq : p.size = file.length
  handle : ∀ io, p.io = some io → ReadIo.contents io = file
  entries : ∀ x ∈ p.lru, (x.ptr = none ∧ x.size = 0) ∨ ∃ ptr, x.Caches file p.heap ptr
  complete : p.io = none → ∀ offs < file.length, ∃ x ∈ p.lru, x.covers offs = true
  live_iff : ∀ ptr, (p.heap.block ptr).isSome ↔ ptr ∈ p.ptrs
  nodup : p.ptrs.Nodup

variable {file : Bytes} {p q : Provider φ}

/-- An entry that covers a position is one in use. -/
theorem Caches.of_covers (hp : p.Caches file) {x : BufEntry} (hx : x ∈ p.lru) {offs : Nat}
    (hcov : x.covers offs = true) : ∃ ptr, x.Caches file p.heap ptr := by
  cases hp.entries x hx with
  | inl hnone =>
      rw [BufEntry.covers_iff, hnone.2] at hcov
      omega
  | inr hsome => exact hsome

/-- The order of the entries does not matter. -/
theorem Caches.of_perm (hp : p.Caches file) {lru : Lru BufEntry 4}
    (hperm : lru.entries.Perm p.lru.entries) : ({ p with lru } : Provider φ).Caches file := by
  have hptrs : (lru.entries.filterMap BufEntry.ptr).Perm p.ptrs := hperm.filterMap _
  refine ⟨hp.size_eq, hp.handle, fun x hx => hp.entries x (hperm.mem_iff.mp hx), ?_, ?_, ?_⟩
  · intro hio offs hoffs
    obtain ⟨x, hx, hcov⟩ := hp.complete hio offs hoffs
    exact ⟨x, hperm.mem_iff.mpr hx, hcov⟩
  · intro ptr
    exact (hp.live_iff ptr).trans hptrs.mem_iff.symm
  · exact hptrs.nodup_iff.mpr hp.nodup

/-- A hit moves the entry that covers the position to the front; there is none
otherwise. -/
theorem lruGet_spec (hp : p.Caches file) (offs : Nat) :
    (∃ lru, p.lruGet offs = .ok (true, { p with lru }) ∧
      ({ p with lru } : Provider φ).Caches file ∧ (∀ x, x ∈ lru ↔ x ∈ p.lru) ∧
      lru.head.covers offs = true) ∨
    (p.lruGet offs = .ok (false, p) ∧ ∀ x ∈ p.lru, x.covers offs ≠ true) := by
  cases hget : p.lru.get? (BufEntry.covers offs) with
  | none =>
      right
      rw [lruGet, hget]
      exact ⟨rfl, Lru.get?_eq_none.mp hget⟩
  | some found =>
      left
      obtain ⟨x, lru⟩ := found
      obtain ⟨hcov, hhead, hperm⟩ := Lru.get?_eq_some hget
      have hx : x ∈ p.lru := hperm.mem_iff.mp (hhead ▸ lru.head_mem)
      obtain ⟨ptr, hcaches⟩ := hp.of_covers hx hcov
      refine ⟨lru, ?_, hp.of_perm hperm, fun x => hperm.mem_iff, hhead ▸ hcov⟩
      rw [lruGet, hget]
      simp only [hcaches.ptr_eq, Option.isSome_some]
      rfl

/-- What is copied out of an entry from a position it covers on. -/
theorem copy_spec (hp : p.Caches file) {x : BufEntry} (hx : x ∈ p.lru) {offs : Nat}
    (hcov : x.covers offs = true) {n : Nat} (hn : offs - x.offset + n ≤ x.size) :
    p.copy x (offs - x.offset) n = .ok (slice file offs n) := by
  obtain ⟨ptr, hcaches⟩ := hp.of_covers hx hcov
  have hle := (BufEntry.covers_iff.mp hcov).1
  have hlen : (slice file x.offset x.size).length = x.size := length_slice_of_le hcaches.le
  have hblock : x.ptr.bind p.heap.block = some (slice file x.offset x.size) := by
    rw [hcaches.ptr_eq]
    exact hcaches.block_eq
  rw [copy, hblock]
  simp only [hlen, if_pos hn]
  rw [slice_slice file hn, Nat.add_sub_cancel' hle]

theorem readChunk_spec [LawfulReadIo φ] (hp : p.Caches file) (hio : p.io ≠ none)
    {offs size : Nat} (hsize : 0 < size) (halign : p.kind.chunkSize ∣ offs)
    (hle : offs + size ≤ file.length) :
    p.readChunk offs size = .ok (p.heap.alloc (slice file offs size)) := by
  cases hp_io : p.io with
  | none => exact absurd hp_io hio
  | some io =>
      have hfile := hp.handle io hp_io
      subst hfile
      rw [readChunk, hp_io]
      cases hk : p.kind with
      | mmap =>
          have hdvd : mapGranularity ∣ offs := by
            rw [hk] at halign
            exact Nat.dvd_trans ⟨2, rfl⟩ halign
          obtain ⟨buf, hbuf, hdata⟩ := LawfulReadIo.mmap_ok io offs size hsize hdvd hle
          simp only [hbuf, ok_bind, hdata]
          rfl
      | unix =>
          obtain ⟨buf, hbuf, hdata⟩ := LawfulReadIo.pread_ok io size offs hle
          simp only [hbuf, ok_bind, hdata]
          rfl

/-- Deleting an entry releases the block it points to, and no other. -/
theorem deleteChunk_spec {heap : Heap UInt8} {x : BufEntry}
    (hx : (x.ptr = none ∧ x.size = 0) ∨ ∃ ptr, x.Caches file heap ptr) (kind : ProviderKind) :
    ∃ heap', deleteChunk kind heap x = .ok heap' ∧
      ∀ b, heap'.block b = if x.ptr = some b then none else heap.block b := by
  rw [deleteChunk.eq_def]
  cases hx with
  | inl hnone =>
      rw [hnone.1]
      exact ⟨heap, rfl, fun b => (if_neg (fun h => nomatch h)).symm⟩
  | inr hsome =>
      obtain ⟨ptr, hx⟩ := hsome
      obtain ⟨heap', hrel, hdead, -, -, hother⟩ := Heap.release_of_live hx.block_eq
      have hrelease : release heap ptr = .ok heap' := by rw [release, hrel]
      rw [hx.ptr_eq]
      refine ⟨heap', ?_, fun b => ?_⟩
      · cases kind with
        | mmap =>
            have hlen : (heap.block ptr).map List.length = some x.size := by
              rw [hx.block_eq, Option.map_some, length_slice_of_le hx.le]
            simp only [munmap, require_of hlen, ok_bind]
            exact hrelease
        | unix => exact hrelease
      · by_cases hb : ptr = b
        · subst hb
          rw [if_pos rfl, hdead]
        · rw [if_neg fun h => hb (Option.some.inj h), hother b fun h => hb h.symm]

/-- The place of the chunk that `EnsureChunk` reads for a position. -/
theorem chunk_bounds {c offs size : Nat} (hc : 0 < c) (h : offs < size) :
    0 < min c (size - offs / c * c) ∧ offs / c * c + min c (size - offs / c * c) ≤ size ∧
      offs / c * c ≤ offs ∧ offs < offs / c * c + min c (size - offs / c * c) := by
  have hle : offs / c * c ≤ offs := Nat.div_mul_le_self offs c
  have hlt : offs < offs / c * c + c := Nat.lt_div_mul_add hc
  omega

theorem Caches.entry_alloc (hp : p.Caches file) {x : BufEntry} (hx : x ∈ p.lru) (new : Bytes) :
    (x.ptr = none ∧ x.size = 0) ∨ ∃ ptr, x.Caches file (p.heap.alloc new).2 ptr := by
  refine (hp.entries x hx).imp id fun ⟨ptr, hcaches⟩ => ⟨ptr, hcaches.mono ?_⟩
  rw [Heap.block_alloc_of_live hcaches.block_eq, hcaches.block_eq]

/-- A new piece of the file in front of the cache, the last entry deleted. -/
theorem Caches.push (hp : p.Caches file) {offs size : Nat} (hsize : 0 < size)
    (hle : offs + size ≤ file.length) (hio : p.io ≠ none) {heap : Heap UInt8}
    (hblock : ∀ b, heap.block b = if p.lru.last.ptr = some b then none
      else (p.heap.alloc (slice file offs size)).2.block b) :
    ({ p with heap, lru := p.lru.push { ptr := some p.heap.next, offset := offs, size } } :
      Provider φ).Caches file := by
  have hnew : p.heap.next ∉ p.ptrs := by
    rw [← hp.live_iff, p.heap.block_next]
    exact fun h => nomatch h
  obtain ⟨hnodup, hkeys⟩ :=
    Lru.keys_push (f := BufEntry.ptr) (a := { ptr := some p.heap.next, offset := offs, size })
      (l := p.lru) (List.nodup_cons.mpr ⟨hnew, hp.nodup⟩)
  have hlive : ∀ b, ((p.heap.alloc (slice file offs size)).2.block b).isSome ↔
      b = p.heap.next ∨ b ∈ p.ptrs := by
    intro b
    by_cases hb : b = p.heap.next
    · subst hb
      exact iff_of_true (by rw [show p.heap.next = (p.heap.alloc (slice file offs size)).1 from rfl,
        Heap.block_alloc_self]; rfl) (Or.inl rfl)
    · rw [Heap.block_alloc_of_ne hb, hp.live_iff, or_iff_right hb]
  -- an entry that is still there does not point to the block released
  have hkept : ∀ x ∈ p.lru.push { ptr := some p.heap.next, offset := offs, size },
      ∀ b, x.ptr = some b →
        heap.block b = (p.heap.alloc (slice file offs size)).2.block b := by
    intro x hx b hb
    rw [hblock, if_neg ((hkeys b).mp (List.mem_filterMap.mpr ⟨x, hx, hb⟩)).2]
  refine ⟨hp.size_eq, hp.handle, ?_, fun h => absurd h hio, ?_, hnodup⟩
  · intro x hx
    cases Lru.mem_of_mem_push hx with
    | inl hxnew =>
        subst hxnew
        refine Or.inr ⟨p.heap.next, rfl, hsize, hle, ?_⟩
        exact (hkept _ hx _ rfl).trans (Heap.block_alloc_self _ _)
    | inr hxold =>
        refine (hp.entries x hxold).imp id fun ⟨ptr, hcaches⟩ => ⟨ptr, hcaches.mono ?_⟩
        rw [hkept x hx ptr hcaches.ptr_eq, Heap.block_alloc_of_live hcaches.block_eq,
          hcaches.block_eq]
  · intro b
    change _ ↔ b ∈ (p.lru.push _).entries.filterMap BufEntry.ptr
    rw [hkeys, hblock]
    split
    · rename_i hlast
      exact iff_of_false (fun h => nomatch h) fun h => h.2 hlast
    · rename_i hlast
      rw [hlive]
      exact ⟨fun h => ⟨List.mem_cons.mpr h, hlast⟩, fun h => List.mem_cons.mp h.1⟩

theorem ensureChunk_spec [LawfulReadIo φ] (hp : p.Caches file) {offs : Nat}
    (hoffs : offs < file.length) :
    ∃ q, p.ensureChunk offs = .ok q ∧ q.Caches file ∧ q.lru.head.covers offs = true := by
  rw [ensureChunk]
  cases lruGet_spec hp offs with
  | inl hhit =>
      obtain ⟨lru, hget, hq, -, hcov⟩ := hhit
      rw [hget]
      exact ⟨_, rfl, hq, hcov⟩
  | inr hmiss =>
      obtain ⟨hget, hnot⟩ := hmiss
      have hio : p.io ≠ none := fun hnone => by
        obtain ⟨x, hx, hcov⟩ := hp.complete hnone offs hoffs
        exact hnot x hx hcov
      obtain ⟨hsize, hend, hstart, hcov⟩ :=
        chunk_bounds p.kind.chunkSize_pos (hoffs.trans_eq hp.size_eq.symm)
      have hend := hend.trans_eq hp.size_eq
      obtain ⟨heap, hdel, hblock⟩ :=
        deleteChunk_spec (hp.entry_alloc p.lru.last_mem (slice file _ _)) p.kind
      refine ⟨_, ?_, hp.push hsize hend hio hblock, BufEntry.covers_iff.mpr ⟨hstart, hcov⟩⟩
      simp only [hget, ok_bind, Bool.false_eq_true, if_false,
        readChunk_spec hp hio hsize (Nat.dvd_mul_left _ _) hend]
      rw [hdel]
      rfl

/-- A piece copied out of the entry in front makes progress. -/
theorem copy_head (hp : p.Caches file) {offs len : Nat} (hcov : p.lru.head.covers offs = true)
    (hlen : len ≠ 0) :
    min len (p.lru.head.size - (offs - p.lru.head.offset)) ≠ 0 ∧
      p.copy p.lru.head (offs - p.lru.head.offset)
          (min len (p.lru.head.size - (offs - p.lru.head.offset))) =
        .ok (slice file offs (min len (p.lru.head.size - (offs - p.lru.head.offset)))) := by
  have hin := BufEntry.covers_iff.mp hcov
  exact ⟨by omega, copy_spec hp p.lru.head_mem hcov (by omega)⟩

/-- What a `Pread` is relied on for, when it is only called for what the cache does not
have: it reads the file and keeps the invariant, if the read is one it is `Ready` for, as
it is behind every entry in use. -/
structure ServesMisses (pread : ProviderPread φ) (file : Bytes) (Inv : Provider φ → Prop)
    (Ready : Provider φ → (offs len : Nat) → Prop) : Prop where
  caches : ∀ p, Inv p → p.Caches file
  reorder : ∀ p lru, Inv p → (∀ x, x ∈ lru ↔ x ∈ p.lru) →
    ({ p with lru } : Provider φ).Caches file → Inv { p with lru }
  behind : ∀ p, Inv p → p.lru.head.size ≠ 0 → p.lru.head.offset + p.lru.head.size < file.length →
    ∀ len, Ready p (p.lru.head.offset + p.lru.head.size) len
  miss : ∀ p offs len, Inv p → (∀ x ∈ p.lru, x.covers offs ≠ true) → Ready p offs len →
    offs < file.length → offs + len ≤ file.length →
    ∃ q, pread p offs len = .ok (slice file offs len, q) ∧ Inv q ∧
      (len = 0 → q.lru.head.covers offs = true)

section Misses

variable {pread : ProviderPread φ} {Inv : Provider φ → Prop}
  {Ready : Provider φ → (offs len : Nat) → Prop} (hpread : ServesMisses pread file Inv Ready)
include hpread

theorem ServesMisses.lruGet_spec (hp : Inv p) (offs : Nat) :
    (∃ q : Provider φ, p.lruGet offs = .ok (true, q) ∧ Inv q ∧ q.lru.head.covers offs = true) ∨
    (p.lruGet offs = .ok (false, p) ∧ ∀ x ∈ p.lru, x.covers offs ≠ true) := by
  refine (Provider.lruGet_spec (hpread.caches p hp) offs).imp ?_ id
  rintro ⟨lru, hget, hq, hmem, hcov⟩
  exact ⟨_, hget, hpread.reorder p lru hp hmem hq, hcov⟩

/-- What is left to read behind the entry in front begins where `Pread` is ready. -/
theorem ServesMisses.ready_behind (hp : Inv p) {offs n len : Nat}
    (hcov : p.lru.head.covers offs = true) (hn : n = p.lru.head.size - (offs - p.lru.head.offset))
    (hlt : offs + n < file.length) : Ready p (offs + n) len := by
  have hin := BufEntry.covers_iff.mp hcov
  have hend : offs + n = p.lru.head.offset + p.lru.head.size := by omega
  rw [hend] at hlt ⊢
  exact hpread.behind p hp (by omega) hlt len

theorem preadCached_spec (hp : Inv p) {offs len : Nat} (h : offs + len ≤ file.length)
    (hready : len = 0 ∨ Ready p offs len) :
    ∃ q, p.preadCached pread offs len = .ok (slice file offs len, q) ∧ Inv q := by
  induction len using Nat.strong_induction_on generalizing p offs with
  | _ len ih =>
      rw [preadCached]
      by_cases hlen : len = 0
      · subst hlen
        exact ⟨p, rfl, hp⟩
      · rw [if_neg hlen]
        cases hpread.lruGet_spec hp offs with
        | inl hhit =>
            obtain ⟨q, hget, hq, hcov⟩ := hhit
            obtain ⟨hn, hcopy⟩ := copy_head (hpread.caches q hq) hcov hlen
            rw [hget, ok_bind]
            simp only [if_true, hcopy, ok_bind, if_neg hn]
            generalize hm : min len (q.lru.head.size - (offs - q.lru.head.offset)) = n at hn ⊢
            have hle : n ≤ len := hm ▸ Nat.min_le_left _ _
            have hnext : len - n = 0 ∨ Ready q (offs + n) (len - n) := by
              by_cases hdone : len - n = 0
              · exact Or.inl hdone
              · exact Or.inr (hpread.ready_behind hq hcov (by omega) (by omega))
            obtain ⟨r, hrest, hr⟩ := ih (len - n) (by omega) hq
              (show offs + n + (len - n) ≤ file.length by omega) hnext
            refine ⟨r, ?_, hr⟩
            rw [hrest, ok_bind]
            simp only [slice_append_slice, Nat.add_sub_cancel' hle, pure_eq_ok]
        | inr hmiss =>
            obtain ⟨hget, hnot⟩ := hmiss
            obtain ⟨q, hread, hq, -⟩ :=
              hpread.miss p offs len hp hnot (hready.resolve_left hlen) (by omega) h
            rw [hget, ok_bind]
            exact ⟨q, hread, hq⟩

theorem getTemporaryEntry_spec (hp : Inv p) {offs : Nat} (h : offs < file.length)
    (hready : Ready p offs 0) :
    ∃ q, p.getTemporaryEntry pread offs = .ok (q.lru.head, q) ∧ Inv q ∧
      q.lru.head.covers offs = true := by
  rw [getTemporaryEntry]
  cases hpread.lruGet_spec hp offs with
  | inl hhit =>
      obtain ⟨q, hget, hq, hcov⟩ := hhit
      rw [hget]
      exact ⟨q, rfl, hq, hcov⟩
  | inr hmiss =>
      obtain ⟨hget, hnot⟩ := hmiss
      obtain ⟨q, hread, hq, hcov⟩ := hpread.miss p offs 0 hp hnot hready h (by omega)
      refine ⟨q, ?_, hq, hcov rfl⟩
      rw [hget, ok_bind]
      simp only [Bool.false_eq_true, if_false, hread, ok_bind, require_of (hcov rfl)]
      rfl

end Misses

variable [LawfulReadIo φ]

theorem preadChunks_spec (hp : p.Caches file) {offs len : Nat} (h : offs + len ≤ file.length) :
    ∃ q, p.preadChunks offs len = .ok (slice file offs len, q) ∧ q.Caches file := by
  induction len using Nat.strong_induction_on generalizing p offs with
  | _ len ih =>
      rw [preadChunks]
      by_cases hlen : len = 0
      · subst hlen
        exact ⟨p, rfl, hp⟩
      · obtain ⟨q, hens, hq, hcov⟩ := ensureChunk_spec hp (show offs < file.length by omega)
        obtain ⟨hn, hcopy⟩ := copy_head hq hcov hlen
        rw [if_neg hlen, hens, ok_bind]
        simp only [hcopy, ok_bind, if_neg hn]
        generalize hm : min len (q.lru.head.size - (offs - q.lru.head.offset)) = n at hn ⊢
        have hle : n ≤ len := hm ▸ Nat.min_le_left _ _
        obtain ⟨r, hrest, hr⟩ := ih (len - n) (by omega) hq (show offs + n + (len - n) ≤ file.length by omega)
        refine ⟨r, ?_, hr⟩
        rw [hrest, ok_bind]
        simp only [slice_append_slice, Nat.add_sub_cancel' hle, pure_eq_ok]

/-- `Pread` after a miss, when the file has not been reset. -/
theorem pread_spec (hp : p.Caches file) {offs len : Nat} (hio : p.io ≠ none)
    (h : offs + len ≤ file.length) (hlen : len ≠ 0) :
    ∃ q, p.pread offs len = .ok (slice file offs len, q) ∧ q.Caches file := by
  rw [pread]
  split
  · cases hp_io : p.io with
    | none => exact absurd hp_io hio
    | some io =>
        have hfile := hp.handle io hp_io
        subst hfile
        obtain ⟨buf, hbuf, hdata⟩ := LawfulReadIo.pread_ok io len offs h
        refine ⟨p, ?_, hp⟩
        simp only [hbuf, ok_bind, hdata, pure_eq_ok]
  · exact preadChunks_spec hp h

/-- The providers that read aligned pieces are ready for every read. -/
theorem pread_servesMisses :
    ServesMisses (φ := φ) pread file (Caches file) (fun _ _ _ => True) where
  caches _ hp := hp
  reorder _ _ _ _ hq := hq
  behind _ _ _ _ _ := trivial
  miss p offs len hp hnot _ hlt h := by
    by_cases hlen : len = 0
    · obtain ⟨q, hens, hq, hcov⟩ := ensureChunk_spec hp hlt
      refine ⟨q, ?_, hq, fun _ => hcov⟩
      rw [hlen, pread, if_neg (Nat.not_lt_zero _), if_pos rfl, hens]
      rfl
    · have hio : p.io ≠ none := fun hnone => by
        obtain ⟨x, hx, hcov⟩ := hp.complete hnone offs hlt
        exact hnot x hx hcov
      obtain ⟨q, hread, hq⟩ := pread_spec hp hio h hlen
      exact ⟨q, hread, hq, fun hzero => absurd hzero hlen⟩

end Provider

namespace Source

variable {φ : Type} [ReadIo φ] {p : Provider φ} {s : Source}

omit [ReadIo φ] in
/-- The bytes of the file that a window reads. -/
theorem pread_eq_slice {offs len : Nat} (h : offs + len ≤ s.size) :
    ∃ arr, s.pread offs len = .ok arr ∧ arr.1 = Lib.slice s.file (offs + s.offset) len := by
  have hin : offs ≤ s.size ∧ offs + len ≤ s.size := ⟨by omega, h⟩
  exact ⟨_, dif_pos hin, by simp only [Nat.add_comm]⟩

/-- What is copied for a chunk out of the entry in front stands in the window. -/
theorem copy_head_spec (hp : p.Caches s.file) {offs : Nat} (h : offs < s.size)
    (hcov : p.lru.head.covers (offs + s.offset) = true) :
    ∃ chunk, p.copy p.lru.head (offs + s.offset - p.lru.head.offset)
        (min (p.lru.head.size - (offs + s.offset - p.lru.head.offset)) (s.size - offs)) =
          .ok chunk ∧ chunk ≠ [] ∧ StandsAt chunk offs s.bytes ∧
      chunk.length =
        min (p.lru.head.size - (offs + s.offset - p.lru.head.offset)) (s.size - offs) := by
  have hwindow := s.window_le
  have hin := BufEntry.covers_iff.mp hcov
  obtain ⟨hn, hcopy⟩ := Provider.copy_head hp hcov (show s.size - offs ≠ 0 by omega)
  rw [Nat.min_comm] at hn hcopy
  generalize hm : min (p.lru.head.size - (offs + s.offset - p.lru.head.offset)) (s.size - offs) = n
    at hn hcopy ⊢
  have hle : offs + n ≤ s.size := by omega
  have hslice : Lib.slice s.file (offs + s.offset) n = Lib.slice s.bytes offs n := by
    rw [bytes, slice_slice _ hle, Nat.add_comm]
  have hlen : (Lib.slice s.bytes offs n).length = n := length_slice_of_le (by rwa [length_bytes])
  refine ⟨Lib.slice s.bytes offs n, hcopy.trans (congrArg _ hslice), ?_,
    StandsAt.of_slice (by rwa [length_bytes]), hlen⟩
  intro hnil
  rw [hnil] at hlen
  exact hn hlen.symm

variable {pread : ProviderPread φ} {Inv : Provider φ → Prop}
  {Ready : Provider φ → (offs len : Nat) → Prop}
  (hpread : Provider.ServesMisses pread s.file Inv Ready)
include hpread

/-- A read through a provider is a read of the file. -/
theorem preadFrom_spec (hp : Inv p) {offs len : Nat} (h : offs + len ≤ s.size)
    (hready : len = 0 ∨ Ready p (offs + s.offset) len) :
    ∃ buf q, s.preadFrom pread p offs len = .ok (buf, q) ∧ Inv q ∧
      ∃ arr, s.pread offs len = .ok arr ∧ arr.1 = buf := by
  have hin : offs ≤ s.size ∧ offs + len ≤ s.size := ⟨by omega, h⟩
  have hwindow := s.window_le
  obtain ⟨q, hread, hq⟩ := Provider.preadCached_spec hpread hp
    (show offs + s.offset + len ≤ s.file.length by omega) hready
  refine ⟨Lib.slice s.file (offs + s.offset) len, q, ?_, hq, pread_eq_slice h⟩
  rw [preadFrom, require_of hin, ok_bind, hread]

/-- A chunk stands in the window, and the next one can be asked for. -/
theorem getChunk_spec (hp : Inv p) {offs : Nat} (h : offs < s.size)
    (hready : Ready p (offs + s.offset) 0) :
    ∃ chunk q, s.getChunk pread p offs = .ok (chunk, q) ∧ Inv q ∧ chunk ≠ [] ∧
      StandsAt chunk offs s.bytes ∧
      (offs + chunk.length < s.size → Ready q (offs + chunk.length + s.offset) 0) := by
  have hwindow := s.window_le
  obtain ⟨q, hentry, hq, hcov⟩ := Provider.getTemporaryEntry_spec hpread hp
    (show offs + s.offset < s.file.length by omega) hready
  obtain ⟨chunk, hcopy, hne, hstand, hlen⟩ := copy_head_spec (hpread.caches q hq) h hcov
  refine ⟨chunk, q, ?_, hq, hne, hstand, fun hlt => ?_⟩
  · rw [getChunk, require_of h, ok_bind, hentry, ok_bind]
    simp only [hcopy, ok_bind, pure_eq_ok]
  · rw [Nat.add_right_comm]
    exact hpread.ready_behind hq hcov (by omega) (by omega)

theorem dumpFrom_spec (hp : Inv p) (offset : Nat)
    (hready : offset < s.size → Ready p (offset + s.offset) 0) :
    ∃ chunks q, s.dumpFrom pread p offset = .ok (chunks, q) ∧ Inv q ∧
      chunks.flatten = s.bytes.drop offset ∧ ∀ chunk ∈ chunks, chunk ≠ [] := by
  induction hn : s.size - offset using Nat.strong_induction_on generalizing p offset with
  | _ n ih =>
      rw [dumpFrom]
      by_cases hoffset : offset < s.size
      · obtain ⟨chunk, q, hchunk, hq, hne, hstand, hnext⟩ :=
          getChunk_spec hpread hp hoffset (hready hoffset)
        have hlen : 0 < chunk.length := List.length_pos_of_ne_nil hne
        obtain ⟨rest, r, hrest, hr, hflat, hall⟩ :=
          ih (s.size - (offset + chunk.length)) (by omega) hq _ hnext rfl
        refine ⟨chunk :: rest, r, ?_, hr, ?_, ?_⟩
        · simp only [if_pos hoffset, hchunk, ok_bind, if_neg hne, hrest, pure_eq_ok]
        · rw [List.flatten_cons, hflat, hstand.drop_eq_append]
        · intro c hc
          cases hc with
          | head => exact hne
          | tail _ hc => exact hall c hc
      · refine ⟨[], p, if_neg hoffset, hp, ?_, fun c hc => nomatch hc⟩
        rw [List.flatten_nil, List.drop_eq_nil_of_le (by rw [length_bytes]; omega)]

end Source

/-! A run: any number of windows on one file, read in any order. -/

inductive SourceCall
  | pread (s : Source) (offs len : Nat)
  | getChunk (s : Source) (offs : Nat)
  | dump (s : Source)

namespace SourceCall

/-- The window is on the file, and the call asks for what is in the window. -/
def InRange (file : Bytes) : SourceCall → Prop
  | pread s offs len => s.file = file ∧ offs + len ≤ s.size
  | getChunk s offs => s.file = file ∧ offs < s.size
  | dump s => s.file = file

variable {φ : Type}

/-- The call, and the pieces it hands out. -/
def exec (read : ProviderPread φ) (p : Provider φ) :
    SourceCall → Except Error (List Bytes × Provider φ)
  | pread s offs len => do
      let (buf, p) ← s.preadFrom read p offs len
      pure ([buf], p)
  | getChunk s offs => do
      let (chunk, p) ← s.getChunk read p offs
      pure ([chunk], p)
  | dump s => s.dump read p

/-- What the call asks the provider for first is ready. -/
def Begins (Ready : Provider φ → (offs len : Nat) → Prop) (p : Provider φ) : SourceCall → Prop
  | pread s offs len => len = 0 ∨ Ready p (offs + s.offset) len
  | getChunk s offs => Ready p (offs + s.offset) 0
  | dump s => s.size = 0 ∨ Ready p s.offset 0

theorem begins_true (c : SourceCall) (p : Provider φ) : c.Begins (fun _ _ _ => True) p := by
  cases c with
  | pread => exact Or.inr trivial
  | getChunk => exact trivial
  | dump => exact Or.inr trivial

/-- The pieces are the bytes of the file that the call asks for. -/
def Answers : SourceCall → List Bytes → Prop
  | pread s offs len, out => ∃ buf, s.pread offs len = .ok buf ∧ out = [buf.1]
  | getChunk s offs, out => ∃ chunk, out = [chunk] ∧ chunk ≠ [] ∧ StandsAt chunk offs s.bytes
  | dump s, out => out.flatten = s.bytes ∧ ∀ chunk ∈ out, chunk ≠ []

theorem exec_spec [ReadIo φ] {read : ProviderPread φ} {file : Bytes} {Inv : Provider φ → Prop}
    {Ready : Provider φ → (offs len : Nat) → Prop}
    (hread : Provider.ServesMisses read file Inv Ready) {p : Provider φ} (c : SourceCall)
    (hp : Inv p) (hc : c.InRange file) (hready : c.Begins Ready p) :
    ∃ out q, exec read p c = .ok (out, q) ∧ c.Answers out ∧ Inv q := by
  cases c with
  | pread s offs len =>
      obtain ⟨rfl, hin⟩ := hc
      obtain ⟨buf, q, hbuf, hq, arr, harr, heq⟩ := Source.preadFrom_spec hread hp hin hready
      refine ⟨[buf], q, ?_, ⟨arr, harr, heq ▸ rfl⟩, hq⟩
      rw [exec, hbuf]
      rfl
  | getChunk s offs =>
      obtain ⟨rfl, hin⟩ := hc
      obtain ⟨chunk, q, hchunk, hq, hne, hstand, -⟩ := Source.getChunk_spec hread hp hin hready
      refine ⟨[chunk], q, ?_, ⟨chunk, rfl, hne, hstand⟩, hq⟩
      rw [exec, hchunk]
      rfl
  | dump s =>
      cases hc
      obtain ⟨chunks, q, hdump, hq, hflat, hne⟩ := Source.dumpFrom_spec hread hp 0 fun hpos =>
        (Nat.zero_add s.offset).symm ▸ hready.resolve_left (Nat.pos_iff_ne_zero.mp hpos)
      exact ⟨chunks, q, hdump, ⟨hflat, hne⟩, hq⟩

end SourceCall

namespace Provider

variable {φ : Type} [ReadIo φ] [LawfulReadIo φ] {file : Bytes}

/-- A provider as its constructor leaves it. -/
def Created (io : φ) (p : Provider φ) : Prop := createMmap io = .ok p ∨ p = createUnix io

omit [LawfulReadIo φ] in
theorem caches_createUnix (io : φ) : (createUnix io).Caches (ReadIo.contents io) where
  size_eq := rfl
  handle io' h := by cases h; rfl
  entries x hx := Or.inl (by rw [Lru.mem_replicate hx]; exact ⟨rfl, rfl⟩)
  complete h := nomatch h
  live_iff _ := iff_of_false (fun h => nomatch h) (fun h => nomatch h)
  nodup := List.nodup_nil

omit [ReadIo φ] [LawfulReadIo φ] in
/-- What `MmapProvider` maps at first. -/
theorem toMap_bounds {size : Nat} (h : 0 < size) :
    0 < (if size < mmapLimit then size else mmapChunk) ∧
      (if size < mmapLimit then size else mmapChunk) ≤ size := by
  have hlimit : mmapChunk ≤ mmapLimit := by decide
  have hpos := mmapChunk_pos
  split <;> omega

theorem createMmap_of_nil {io : φ} (h : ReadIo.contents io = []) :
    createMmap io = .error .systemError := by
  rw [createMmap, h]
  exact congrArg (· >>= _) (LawfulReadIo.mmap_empty io 0)

theorem createMmap_of_ne_nil {io : φ} (h : ReadIo.contents io ≠ []) :
    ∃ p, createMmap io = .ok p ∧ p.Caches (ReadIo.contents io) := by
  obtain ⟨hpos, hle⟩ := toMap_bounds (List.length_pos_of_ne_nil h)
  rw [createMmap]
  generalize (if (ReadIo.contents io).length < mmapLimit
    then (ReadIo.contents io).length else mmapChunk) = toMap at hpos hle ⊢
  obtain ⟨buf, hbuf, hdata⟩ :=
    LawfulReadIo.mmap_ok io 0 toMap hpos (Nat.dvd_zero _) ((Nat.zero_add _).trans_le hle)
  rw [hbuf]
  refine ⟨_, rfl, ?_⟩
  have hentry : BufEntry.Caches (ReadIo.contents io) (Heap.empty.alloc buf.1).2
      { ptr := some 0, offset := 0, size := toMap } 0 := by
    refine ⟨rfl, hpos, (Nat.zero_add _).trans_le hle, ?_⟩
    rw [← hdata]
    exact Heap.block_alloc_self Heap.empty buf.1
  refine ⟨rfl, ?_, ?_, ?_, ?_, List.nodup_singleton 0⟩
  · intro io' hio
    change (if toMap = (ReadIo.contents io).length then none else some io) = some io' at hio
    split at hio
    · cases hio
    · cases hio
      rfl
  · intro x hx
    cases hx with
    | head => exact Or.inr ⟨0, hentry⟩
    | tail _ hx => exact Or.inl (by rw [Lru.mem_replicate (n := 3) hx]; exact ⟨rfl, rfl⟩)
  · -- the file is only reset when the mapping is all of it
    intro hio offs hoffs
    change (if toMap = (ReadIo.contents io).length then none else some io) = none at hio
    split at hio
    · rename_i hwhole
      refine ⟨_, List.mem_cons_self, BufEntry.covers_iff.mpr ⟨Nat.zero_le _, ?_⟩⟩
      exact (Nat.zero_add toMap).symm ▸ hwhole ▸ hoffs
    · cases hio
  · intro ptr
    change ((Function.update Heap.empty.block 0 (some buf.1)) ptr).isSome ↔ ptr ∈ [0]
    rw [List.mem_singleton]
    by_cases hptr : ptr = 0
    · subst hptr
      exact iff_of_true (by rw [Function.update_self]; rfl) rfl
    · rw [Function.update_of_ne hptr]
      exact iff_of_false (fun h => nomatch h) hptr

theorem caches_of_created {io : φ} {p : Provider φ} (h : Created io p) :
    p.Caches (ReadIo.contents io) := by
  cases h with
  | inl hmmap =>
      have hne : ReadIo.contents io ≠ [] := fun hnil => by
        rw [createMmap_of_nil hnil] at hmmap
        cases hmmap
      obtain ⟨q, hq, hcaches⟩ := createMmap_of_ne_nil hne
      cases hq.symm.trans hmmap
      exact hcaches
  | inr hunix =>
      subst hunix
      exact caches_createUnix io

/-- Opening a file gives one of the two providers. -/
theorem fromFile_created (io : φ) : ∃ p, fromFile io = .ok p ∧ Created io p := by
  by_cases hnil : ReadIo.contents io = []
  · refine ⟨createUnix io, ?_, Or.inr rfl⟩
    rw [fromFile, createMmap_of_nil hnil]
  · obtain ⟨p, hp, -⟩ := createMmap_of_ne_nil hnil
    refine ⟨p, ?_, Or.inl hp⟩
    rw [fromFile, hp]

omit [ReadIo φ] [LawfulReadIo φ] in
/-- Deleting entries that point to different blocks releases these blocks. -/
theorem foldlM_deleteChunk (kind : ProviderKind) (xs : List BufEntry) (heap : Heap UInt8)
    (hxs : ∀ x ∈ xs, (x.ptr = none ∧ x.size = 0) ∨ ∃ ptr, x.Caches file heap ptr)
    (hnodup : (xs.filterMap BufEntry.ptr).Nodup) :
    ∃ heap', xs.foldlM
        (fun heap x => if x.size ≠ 0 then deleteChunk kind heap x else pure heap) heap =
        .ok heap' ∧
      ∀ b, heap'.block b = if b ∈ xs.filterMap BufEntry.ptr then none else heap.block b := by
  induction xs generalizing heap with
  | nil => exact ⟨heap, rfl, fun b => rfl⟩
  | cons x xs ih =>
      rw [List.foldlM_cons]
      cases hxs x List.mem_cons_self with
      | inl hnone =>
          rw [List.filterMap_cons_none hnone.1] at hnodup ⊢
          obtain ⟨heap', hfold, hblock⟩ :=
            ih heap (fun y hy => hxs y (List.mem_cons_of_mem _ hy)) hnodup
          rw [if_neg fun h => h hnone.2]
          exact ⟨heap', hfold, hblock⟩
      | inr hsome =>
          obtain ⟨ptr, hx⟩ := hsome
          obtain ⟨heap₁, hdel, hblock₁⟩ := deleteChunk_spec (Or.inr ⟨ptr, hx⟩) kind
          rw [List.filterMap_cons_some hx.ptr_eq] at hnodup ⊢
          obtain ⟨hptr, hrest⟩ := List.nodup_cons.mp hnodup
          have hkept : ∀ y ∈ xs, (y.ptr = none ∧ y.size = 0) ∨ ∃ c, y.Caches file heap₁ c := by
            intro y hy
            refine (hxs y (List.mem_cons_of_mem _ hy)).imp id fun ⟨c, hy'⟩ => ⟨c, hy'.mono ?_⟩
            rw [hblock₁, hx.ptr_eq, if_neg]
            rintro ⟨⟩
            exact hptr (List.mem_filterMap.mpr ⟨y, hy, hy'.ptr_eq⟩)
          obtain ⟨heap', hfold, hblock⟩ := ih heap₁ hkept hrest
          rw [if_pos (Nat.pos_iff_ne_zero.mp hx.size_pos), hdel]
          refine ⟨heap', hfold, fun b => ?_⟩
          rw [hblock, hblock₁, hx.ptr_eq]
          by_cases hb : b = ptr
          · subst hb
            rw [if_neg hptr, if_pos rfl, if_pos List.mem_cons_self]
          · simp only [List.mem_cons, hb, false_or, Option.some.injEq, Ne.symm hb, if_false]

omit [LawfulReadIo φ] in
/-- Destroying a provider releases what is left: in the end every block it
ever had has been released, once. -/
theorem destroy_spec {p : Provider φ} (hp : p.Caches file) :
    ∃ heap, p.destroy = .ok heap ∧ heap.released.Perm (List.range heap.next) := by
  obtain ⟨heap, hfold, hblock⟩ :=
    foldlM_deleteChunk p.kind p.lru.entries p.heap hp.entries hp.nodup
  refine ⟨heap, hfold, Heap.released_perm fun a => ?_⟩
  rw [hblock]
  split
  · rfl
  · rename_i ha
    have hdead := mt (hp.live_iff a).mp ha
    simpa using hdead

/-- Calls in range, through any windows on the file, are answered with the bytes
of the file. -/
theorem transcript_of_created {io : φ} {p : Provider φ} (hp : Created io p)
    {calls : List SourceCall} (hcalls : ∀ c ∈ calls, c.InRange (ReadIo.contents io)) :
    ∃ outs q, transcript (SourceCall.exec pread) p calls = .ok (outs, q) ∧
      List.Forall₂ SourceCall.Answers calls outs ∧ q.Caches (ReadIo.contents io) ∧
      ∃ heap, q.destroy = .ok heap ∧ heap.released.Perm (List.range heap.next) := by
  obtain ⟨outs, q, hrun, hall, hq⟩ := transcript_answers
    (fun p c hp hc => SourceCall.exec_spec pread_servesMisses c hp hc (c.begins_true p))
    (caches_of_created hp) hcalls
  exact ⟨outs, q, hrun, hall, hq, destroy_spec hq⟩

/-- Sixteen pieces of a mapping, each filled with its number. -/
def numbered : Bytes := (List.range (16 * mmapChunk)).map fun i => UInt8.ofNat (i / mmapChunk)

theorem length_numbered : numbered.length = 16 * mmapChunk := by
  rw [numbered, List.length_map, List.length_range]

/-- All of the file. -/
def whole : Source := Source.fromMemory numbered

/-- From the last byte of the fourth piece to the first one of the tenth. -/
def middle : Source where
  file := numbered
  offset := 4 * mmapChunk - 1
  size := 5 * mmapChunk + 2
  get := 0
  window_le := by
    rw [length_numbered]
    have := mmapChunk_pos
    omega

/-- Reads over several pieces, reads of more than one piece, enough others to lose the
first, and that one again; the two windows in turns. -/
def twoWindows : List SourceCall :=
  [.pread whole (mmapChunk - 1) 2, .pread middle 0 (3 * mmapChunk), .getChunk whole 5,
    .dump middle, .getChunk middle (5 * mmapChunk + 1), .pread whole 0 (16 * mmapChunk), .dump whole,
    .pread whole 3 0, .getChunk whole (16 * mmapChunk - 1)]

theorem inRange_twoWindows : ∀ c ∈ twoWindows, c.InRange numbered := by
  have hpos := mmapChunk_pos
  have hwhole : whole.file = numbered ∧ whole.size = 16 * mmapChunk := by
    rw [whole, Source.size_fromMemory, length_numbered]
    exact ⟨Source.file_fromMemory _, rfl⟩
  have hmiddle : middle.file = numbered ∧ middle.size = 5 * mmapChunk + 2 := by
    simp only [middle, and_self]
  simp only [twoWindows, List.forall_mem_cons, List.not_mem_nil, false_imp_iff, implies_true,
    SourceCall.InRange, hwhole, hmiddle, true_and, and_true]
  omega

theorem transcript_twoWindows :
    ∃ p, createMmap numbered = .ok p ∧ ∀ start ∈ [p, createUnix numbered],
      ∃ outs q, transcript (SourceCall.exec pread) start twoWindows = .ok (outs, q) ∧
        List.Forall₂ SourceCall.Answers twoWindows outs ∧ q.Caches numbered ∧
        ∃ heap, q.destroy = .ok heap ∧ heap.released.Perm (List.range heap.next) := by
  have hpos := mmapChunk_pos
  have hne : ReadIo.contents numbered ≠ [] :=
    List.ne_nil_of_length_pos (by rw [ReadIo.contents_bytes, length_numbered]; omega)
  obtain ⟨p, hp, -⟩ := createMmap_of_ne_nil hne
  refine ⟨p, hp, fun start hstart => ?_⟩
  have hcreated : Created numbered start := by
    simp only [List.mem_cons, List.not_mem_nil, or_false] at hstart
    obtain rfl | rfl := hstart
    · exact Or.inl hp
    · exact Or.inr rfl
  exact transcript_of_created hcreated inRange_twoWindows

end Provider

end Neptools

import Neptools.Lib.Trim
import Neptools.Sink.Simple

/-!
Writing an object to a path: a sink on a temporary file, the object's calls on
it, the destructor of the sink, and the rename over the target. The file may have
got its size, and be filled with zeros, before it turned out that it cannot be
mapped. Writes to it may fail at any point. How much of the dump gets into the
file is decided by the lengths of the calls alone, so the buffered sink is
compared with one that keeps no data.
-/

namespace Neptools

open Lib

/-- The temporary file, which was truncated to `fill` bytes, and what has been
written to it from its start on. Write number `n` fails when `faults n` is
`some k`; `k` bytes of it, but never all, may have reached the file by then. -/
structure TempFile (faults : Nat → Option Nat) (fill : Nat) where
  written : Bytes
  writes : Nat

namespace TempFile

variable {faults : Nat → Option Nat} {fill : Nat}

/-- What was written has replaced the zeros at the start of the file. -/
def content (f : TempFile faults fill) : Bytes := overwrite (zeros fill) 0 f.written

def put (f : TempFile faults fill) (data : Bytes) : TempFile faults fill :=
  match faults f.writes with
  | none => { written := f.written ++ data, writes := f.writes + 1 }
  | some k => { written := f.written ++ data.dropLast.take k, writes := f.writes + 1 }

instance : LowIo (TempFile faults fill) where
  write f data := if faults f.writes = none then .ok (f.put data) else .error .systemError
  written := written

theorem write_ok {f : TempFile faults fill} (h : faults f.writes = none) (data : Bytes) :
    LowIo.write f data = .ok ⟨f.written ++ data, f.writes + 1⟩ := by
  change (if faults f.writes = none then Except.ok (f.put data) else _) = _
  rw [if_pos h, put, h]

theorem write_error {f : TempFile faults fill} (h : faults f.writes ≠ none) (data : Bytes) :
    LowIo.write f data = .error .systemError := if_neg h

theorem content_eq (f : TempFile faults fill) :
    f.content = f.written ++ zeros (fill - f.written.length) := by
  rw [content, overwrite, List.take_zero, List.nil_append, Nat.zero_add, zeros,
    List.drop_replicate]
  rfl

/-- No write from number `m` on fails before number `n`. -/
def Quiet (faults : Nat → Option Nat) (m n : Nat) : Prop :=
  ∀ i, m ≤ i → i < n → faults i = none

theorem Quiet.refl (m : Nat) : Quiet faults m m := fun _ h h' => absurd h' (by omega)

theorem quiet_succ {m n : Nat} (h : m < n) :
    Quiet faults m n ↔ faults m = none ∧ Quiet faults (m + 1) n := by
  constructor
  · intro hq
    exact ⟨hq m (Nat.le_refl _) h, fun i hi hin => hq i (by omega) hin⟩
  · rintro ⟨hm, hq⟩ i hi hin
    rcases Nat.eq_or_lt_of_le hi with rfl | hlt
    · exact hm
    · exact hq i hlt hin

theorem quiet_trans {k m n : Nat} (hkm : k ≤ m) (hmn : m ≤ n) :
    Quiet faults k n ↔ Quiet faults k m ∧ Quiet faults m n := by
  constructor
  · intro hq
    exact ⟨fun i hi hin => hq i hi (by omega), fun i hi hin => hq i (by omega) hin⟩
  · rintro ⟨h₁, h₂⟩ i hi hin
    rcases Nat.lt_or_ge i m with hlt | hge
    · exact h₁ i hi hlt
    · exact h₂ i hge hin

end TempFile

/-- A sink that counts as the buffered one does and keeps no data. `writes` is
the number of writes to the output. -/
structure BufferUse where
  size : Nat
  offset : Nat
  bufPut : Nat
  writes : Nat
  deriving Repr, DecidableEq

namespace BufferUse

def create (size : Nat) : BufferUse := { size, offset := 0, bufPut := 0, writes := 0 }

def write_ (u : BufferUse) (len : Nat) : BufferUse :=
  if memChunk ≤ len then
    { u with offset := u.offset + memChunk + len, bufPut := 0, writes := u.writes + 2 }
  else { u with offset := u.offset + memChunk, bufPut := len, writes := u.writes + 1 }

/-- A long pad of `len` bytes writes one chunk less than it covers. -/
def pad_ (u : BufferUse) (len : Nat) : BufferUse :=
  if memChunk ≤ len then
    { u with
      offset := u.offset + memChunk + (len - 1) / memChunk * memChunk
      bufPut := len % memChunk
      writes := u.writes + 1 + (len - 1) / memChunk }
  else
    { u with offset := u.offset + memChunk, bufPut := len % memChunk, writes := u.writes + 1 }

def flush (u : BufferUse) : BufferUse :=
  if u.bufPut ≠ 0 then
    { u with offset := u.offset + u.bufPut, bufPut := 0, writes := u.writes + 1 }
  else u

instance : Sink BufferUse where
  offset := offset
  size := size
  bufPut := bufPut
  bufSize _ := memChunk
  store u xs := .ok { u with bufPut := u.bufPut + xs.length }
  write_ u data := .ok (u.write_ data.length)
  pad_ u len := .ok (u.pad_ len)
  flush u := .ok u.flush

theorem write_of_fits {u : BufferUse} {data : Bytes}
    (h : u.offset + u.bufPut + data.length ≤ u.size) : ∃ u', Sink.write u data = .ok u' := by
  change ∃ u', (require (u.offset + u.bufPut + data.length ≤ u.size) _ >>= fun _ =>
    if data.drop (min data.length (memChunk - u.bufPut)) ≠ [] then .ok _ else .ok _) = .ok u'
  rw [require_of h, ok_bind]
  by_cases hrest : data.drop (min data.length (memChunk - u.bufPut)) ≠ []
  · exact ⟨_, if_pos hrest⟩
  · exact ⟨_, if_neg hrest⟩

theorem pad_of_fits {u : BufferUse} {len : Nat} (h : u.offset + u.bufPut + len ≤ u.size) :
    ∃ u', Sink.pad u len = .ok u' := by
  change ∃ u', (require (u.offset + u.bufPut + len ≤ u.size) _ >>= fun _ =>
    if len - min len (memChunk - u.bufPut) ≠ 0 then .ok _ else .ok _) = .ok u'
  rw [require_of h, ok_bind]
  by_cases hrest : len - min len (memChunk - u.bufPut) ≠ 0
  · exact ⟨_, if_pos hrest⟩
  · exact ⟨_, if_neg hrest⟩

theorem le_write_ (u : BufferUse) (len : Nat) : u.writes ≤ (u.write_ len).writes := by
  rw [write_]
  split <;> simp

theorem le_pad_ (u : BufferUse) (len : Nat) : u.writes ≤ (u.pad_ len).writes := by
  rw [pad_]
  split
  · exact Nat.le_trans (Nat.le_succ _) (Nat.le_add_right _ _)
  · simp

theorem le_flush (u : BufferUse) : u.writes ≤ u.flush.writes := by
  rw [flush]
  split <;> simp

theorem writes_le_of_step {u u' : BufferUse} {c : Sink.Call} (h : Sink.step u c = .ok u') :
    u.writes ≤ u'.writes := by
  cases c with
  | write data =>
      obtain ⟨_, -, h⟩ := bind_eq_ok.mp h
      change (if data.drop (min data.length (memChunk - u.bufPut)) ≠ [] then .ok _ else .ok _) =
        Except.ok u' at h
      split at h
      · cases h
        exact le_write_ { u with bufPut := _ } _
      · cases h
        exact Nat.le_refl _
  | pad len =>
      obtain ⟨_, -, h⟩ := bind_eq_ok.mp h
      change (if len - min len (memChunk - u.bufPut) ≠ 0 then .ok _ else .ok _) =
        Except.ok u' at h
      split at h
      · cases h
        exact le_pad_ { u with bufPut := _ } _
      · cases h
        exact Nat.le_refl _
  | flush =>
      cases h
      exact le_flush u

theorem writes_le_of_run {u u' : BufferUse} {calls : List Sink.Call}
    (h : run Sink.step u calls = .ok u') : u.writes ≤ u'.writes :=
  run_preserves Sink.step (I := fun v => u.writes ≤ v.writes)
    (fun _ _ _ hv hstep => Nat.le_trans hv (writes_le_of_step hstep)) (Nat.le_refl _) h

/-- The pad is written in full: what does not fit the buffer is not a whole
number of chunks. -/
def LeavesPartChunk (u : BufferUse) : Sink.Call → Prop
  | .pad len => memChunk ∣ len - (memChunk - u.bufPut) → len ≤ memChunk - u.bufPut
  | _ => True

/-- A pad that is not written in full has nothing but zeros behind it. -/
def LosesZerosOnly : BufferUse → List Sink.Call → Prop
  | _, [] => True
  | u, c :: calls =>
      (u.LeavesPartChunk c ∨ ∀ b ∈ Sink.bytesOf calls, b = 0) ∧
        ∀ u', Sink.step u c = .ok u' → LosesZerosOnly u' calls

theorem losesZerosOnly_of_everyStep {u : BufferUse} {calls : List Sink.Call}
    (h : EveryStep Sink.step LeavesPartChunk u calls) : u.LosesZerosOnly calls := by
  induction calls generalizing u with
  | nil => trivial
  | cons c calls ih => exact ⟨Or.inl h.1, fun u' hu' => ih (h.2 u' hu')⟩

/-- How much is written when the destructor is done, which writes what is left
in the buffer. -/
def reach (u : BufferUse) (faults : Nat → Option Nat) : Nat :=
  if u.bufPut = 0 then u.offset
  else
    match faults u.writes with
    | none => u.offset + u.bufPut
    | some k => u.offset + min k (u.bufPut - 1)

theorem le_reach_iff (u : BufferUse) (faults : Nat → Option Nat) :
    u.offset + u.bufPut ≤ u.reach faults ↔ (u.bufPut ≠ 0 → faults u.writes = none) := by
  rw [reach]
  by_cases hput : u.bufPut = 0
  · rw [if_pos hput, hput]
    exact iff_of_true (Nat.le_refl _) fun h => absurd rfl h
  · rw [if_neg hput]
    cases faults u.writes with
    | none => exact iff_of_true (Nat.le_refl _) fun _ => rfl
    | some k => exact iff_of_false (by simp only; omega) fun h => by cases h hput

end BufferUse

/-- An object to be written: the size it announces, and what its `Dump_` does
with a sink, the calls it makes and the exception it may then throw. -/
structure Dumpable where
  getSize : Nat
  calls : List Sink.Call
  throws : Option Error

def Dumpable.dump_ {σ : Type} [Sink σ] (d : Dumpable) (s : σ) : Except Error σ := do
  let s ← run Sink.step s d.calls
  match d.throws with
  | none => pure s
  | some e => throw e

variable {faults : Nat → Option Nat} {fill : Nat}

namespace SimpleSink

/-- What calls that stand for `bytes` have added: no more than these, and all of
them exactly when `p` holds. -/
structure Adds (bytes : Bytes) (p : Prop) (added : Bytes) : Prop where
  length_le : added.length ≤ bytes.length
  eq_of : p → added = bytes
  of_length : added.length = bytes.length → p

namespace Adds

variable {bytes added : Bytes} {p : Prop}

theorem all (hp : p) : Adds bytes p bytes := ⟨Nat.le_refl _, fun _ => rfl, fun _ => hp⟩

theorem append_left (h : Adds bytes p added) (first : Bytes) :
    Adds (first ++ bytes) p (first ++ added) := by
  have hle := h.length_le
  refine ⟨?_, fun hp => congrArg (first ++ ·) (h.eq_of hp), fun hlength => h.of_length ?_⟩
  · rw [List.length_append, List.length_append]
    omega
  · rw [List.length_append, List.length_append] at hlength
    omega

theorem short (h : Adds bytes p added) {first first' : Bytes} (hlt : first'.length < first.length) :
    Adds (first ++ bytes) False (first' ++ added) := by
  have hle := h.length_le
  have hless : (first' ++ added).length < (first ++ bytes).length := by
    rw [List.length_append, List.length_append]
    omega
  exact ⟨Nat.le_of_lt hless, False.elim, fun hlength => absurd hlength (Nat.ne_of_lt hless)⟩

/-- All is there when all was added and nothing of it is cut off. -/
theorem take_eq_iff (h : Adds bytes p added) {n : Nat} :
    added.take n = bytes ↔ p ∧ added.length ≤ n := by
  have hle := h.length_le
  constructor
  · intro heq
    have hlength := congrArg List.length heq
    rw [List.length_take] at hlength
    exact ⟨h.of_length (by omega), by omega⟩
  · rintro ⟨hp, hn⟩
    rw [List.take_of_length_le hn, h.eq_of hp]

end Adds

/-- What the counting sink knows of a buffered one. -/
def use (s : SimpleSink (TempFile faults fill)) : BufferUse :=
  { size := s.size, offset := s.offset, bufPut := s.bufPut, writes := s.io.writes }

/-- The same sink over an output that never fails. -/
def kept (s : SimpleSink (TempFile faults fill)) : SimpleSink Bytes :=
  { s with io := s.io.written }

/-- A computation on a sink whose output has seen `w` writes returns exactly
when none of its writes fails, and does then what it does over an output that
never fails, with the counts of `u`. -/
structure Follows (w : Nat) (x : Except Error (SimpleSink (TempFile faults fill)))
    (x₀ : Except Error (SimpleSink Bytes)) (u : BufferUse) : Prop where
  le : w ≤ u.writes
  of_ok : ∀ t, x = .ok t → t.use = u ∧ x₀ = .ok t.kept
  ok_iff : (∃ t, x = .ok t) ↔ TempFile.Quiet faults w u.writes

theorem follows_pure {t : SimpleSink (TempFile faults fill)} {w : Nat} {u : BufferUse}
    (hu : t.use = u) (hw : t.io.writes = w) : Follows w (.ok t) (.ok t.kept) u := by
  subst hu hw
  refine ⟨Nat.le_refl _, fun t' ht' => ?_, iff_of_true ⟨t, rfl⟩ (TempFile.Quiet.refl _)⟩
  cases ht'
  exact ⟨rfl, rfl⟩

/-- A write to the output, and what comes after it. -/
theorem follows_write {f : TempFile faults fill} {data : Bytes} {u : BufferUse}
    {k : TempFile faults fill → Except Error (SimpleSink (TempFile faults fill))}
    {k₀ : Bytes → Except Error (SimpleSink Bytes)} (hlt : f.writes < u.writes)
    (hk : Follows (f.writes + 1) (k ⟨f.written ++ data, f.writes + 1⟩)
      (k₀ (f.written ++ data)) u) :
    Follows f.writes (LowIo.write f data >>= k) (LowIo.write f.written data >>= k₀) u := by
  by_cases h : faults f.writes = none
  · rw [TempFile.write_ok h, ok_bind]
    refine ⟨Nat.le_of_lt hlt, hk.of_ok, ?_⟩
    rw [TempFile.quiet_succ hlt, hk.ok_iff]
    exact (and_iff_right h).symm
  · rw [TempFile.write_error h, error_bind]
    refine ⟨Nat.le_of_lt hlt, fun t ht => (nomatch ht),
      iff_of_false (fun ⟨_, ht⟩ => nomatch ht) fun hq => ?_⟩
    exact h (hq _ (Nat.le_refl _) hlt)

theorem follows_write_ {s : SimpleSink (TempFile faults fill)} (hput : s.bufPut = memChunk)
    (data : Bytes) :
    Follows s.io.writes (write_ s data) (write_ s.kept data) (s.use.write_ data.length) := by
  have hput₀ : s.kept.bufPut = memChunk := hput
  simp only [write_, require_of hput, require_of hput₀, ok_bind, BufferUse.write_]
  by_cases hd : memChunk ≤ data.length
  · simp only [dif_pos hd, if_pos hd]
    have huse : s.use.writes = s.io.writes := rfl
    refine follows_write (by simp only [huse]; omega) ?_
    refine follows_write (f := ⟨_, s.io.writes + 1⟩) (by simp only [huse]; omega) ?_
    exact follows_pure rfl rfl
  · simp only [dif_neg hd, if_neg hd]
    refine follows_write (by simp [use]) ?_
    exact follows_pure rfl rfl

/-- The writes that the loop of a pad still has to make. -/
def padCount (len i : Nat) : Nat := (len - i + (memChunk - 1)) / memChunk

theorem padCount_of_ge {len i : Nat} (h : ¬ i < len) : padCount len i = 0 := by
  have := memChunk_pos
  rw [padCount, Nat.sub_eq_zero_of_le (by omega)]
  exact Nat.div_eq_of_lt (by omega)

theorem padCount_of_lt {len i : Nat} (h : i < len) :
    padCount len i = padCount len (i + memChunk) + 1 := by
  have hpos := memChunk_pos
  rw [padCount, padCount]
  rcases Nat.lt_or_ge (i + memChunk) len with hlt | hge
  · have hstep : len - i + (memChunk - 1) =
        len - (i + memChunk) + (memChunk - 1) + memChunk := by omega
    rw [hstep, Nat.add_div_right _ hpos]
  · have hlast : len - i + (memChunk - 1) = len - i - 1 + memChunk := by omega
    rw [hlast, Nat.add_div_right _ hpos, Nat.div_eq_of_lt (by omega),
      Nat.sub_eq_zero_of_le hge, Nat.div_eq_of_lt (by omega)]

/-- The loop of a pad, and what comes after it. -/
theorem follows_padLoop {u : BufferUse} {buf : Bytes} (len i : Nat) (f : TempFile faults fill)
    {k : Nat × TempFile faults fill → Except Error (SimpleSink (TempFile faults fill))}
    {k₀ : Nat × Bytes → Except Error (SimpleSink Bytes)}
    (hu : f.writes + padCount len i ≤ u.writes)
    (hk : ∀ f' : TempFile faults fill, f'.writes = f.writes + padCount len i →
      Follows f'.writes (k (i + padCount len i * memChunk, f'))
        (k₀ (i + padCount len i * memChunk, f'.written)) u) :
    Follows f.writes (padLoop buf len i f >>= k) (padLoop buf len i f.written >>= k₀) u := by
  fun_induction padLoop buf len i f with
  | case1 i f hlt ih =>
      have hcount := padCount_of_lt hlt
      rw [padLoop, if_pos hlt, bind_assoc, bind_assoc]
      refine follows_write (by omega) ?_
      refine ih ⟨f.written ++ buf, f.writes + 1⟩ ?_ fun f' hf' => ?_
      · change f.writes + 1 + _ ≤ _
        omega
      · have hi : i + memChunk + padCount len (i + memChunk) * memChunk =
            i + padCount len i * memChunk := by
          rw [hcount, Nat.add_mul, Nat.one_mul]
          omega
        have hw : f'.writes = f.writes + padCount len i := by
          rw [hf', hcount]
          change f.writes + 1 + _ = _
          omega
        rw [hi]
        exact hk f' hw
  | case2 i f hge =>
      have hzero := padCount_of_ge hge
      rw [padLoop, if_neg hge]
      rw [hzero] at hk
      have := hk f (by omega)
      rwa [Nat.zero_mul, Nat.add_zero] at this

theorem follows_pad_ {s : SimpleSink (TempFile faults fill)} (hput : s.bufPut = memChunk)
    (len : Nat) :
    Follows s.io.writes (pad_ s len) (pad_ s.kept len) (s.use.pad_ len) := by
  have hput₀ : s.kept.bufPut = memChunk := hput
  simp only [pad_, require_of hput, require_of hput₀, ok_bind, BufferUse.pad_]
  by_cases hd : memChunk ≤ len
  · have hcount : padCount len memChunk = (len - 1) / memChunk := by
      have := memChunk_pos
      rw [padCount]
      congr 1
      omega
    have huse : s.use.writes = s.io.writes := rfl
    simp only [dif_pos hd, if_pos hd, ← hcount]
    refine follows_write (by simp only [huse]; omega) ?_
    refine follows_padLoop _ _ ⟨_, s.io.writes + 1⟩ (Nat.le_refl _) fun f hf => ?_
    simp only [Nat.add_sub_cancel_left]
    refine follows_pure ?_ rfl
    simp only [use, hf]
  · simp only [dif_neg hd, if_neg hd]
    refine follows_write (by simp [use]) ?_
    exact follows_pure rfl rfl

theorem follows_flush (s : SimpleSink (TempFile faults fill)) :
    Follows s.io.writes (flush s) (flush s.kept) s.use.flush := by
  have hput₀ : s.kept.bufPut = s.bufPut := rfl
  have huse : s.use.bufPut = s.bufPut := rfl
  simp only [flush, BufferUse.flush, hput₀, huse]
  by_cases hput : s.bufPut ≠ 0
  · simp only [if_pos hput]
    refine follows_write (by simp [use]) ?_
    exact follows_pure rfl rfl
  · simp only [if_neg hput]
    exact follows_pure rfl rfl

/-- The shape of `Write` and `Pad` behind their size check: what fits goes into
the buffer, and if something is left the buffer is full. -/
theorem follows_fill {s : SimpleSink (TempFile faults fill)} {xs : Bytes} {u : BufferUse}
    {rest : Prop} [Decidable rest]
    {k : SimpleSink (TempFile faults fill) → Except Error (SimpleSink (TempFile faults fill))}
    {k₀ : SimpleSink Bytes → Except Error (SimpleSink Bytes)} {ku : BufferUse → BufferUse}
    (hxs : s.bufPut + xs.length ≤ memChunk) (hrest : rest → s.bufPut + xs.length = memChunk)
    (hk : ∀ s₁ : SimpleSink (TempFile faults fill), s₁.bufPut = memChunk →
      Follows s₁.io.writes (k s₁) (k₀ s₁.kept) (ku s₁.use))
    (hu : (Sink.store s.use xs >>= fun u => if rest then .ok (ku u) else pure u) = .ok u) :
    Follows s.io.writes (store s xs >>= fun s => if rest then k s else pure s)
      (store s.kept xs >>= fun s => if rest then k₀ s else pure s) u := by
  have hxs₀ : s.kept.bufPut + xs.length ≤ memChunk := hxs
  have hstore : ∃ s₁, store s xs = .ok s₁ ∧ store s.kept xs = .ok s₁.kept ∧
      s₁.io.writes = s.io.writes ∧ s₁.bufPut = s.bufPut + xs.length ∧
      Sink.store s.use xs = .ok s₁.use :=
    ⟨_, dif_pos hxs, dif_pos hxs₀, rfl, rfl, rfl⟩
  obtain ⟨s₁, hs₁, hs₀, hw, hput, huse⟩ := hstore
  rw [huse, ok_bind] at hu
  rw [hs₁, hs₀, ok_bind, ok_bind, ← hw]
  by_cases hr : rest
  · rw [if_pos hr] at hu
    cases hu
    rw [if_pos hr, if_pos hr]
    exact hk s₁ (hput.trans (hrest hr))
  · rw [if_neg hr] at hu
    cases hu
    rw [if_neg hr, if_neg hr]
    exact follows_pure rfl rfl

theorem follows_sink_write {s : SimpleSink (TempFile faults fill)} {data : Bytes} {u : BufferUse}
    (h : Sink.write s.use data = .ok u) :
    Follows s.io.writes (Sink.write s data) (Sink.write s.kept data) u := by
  obtain ⟨_, hreq, h⟩ := bind_eq_ok.mp h
  have hcheck : s.offset + s.bufPut + data.length ≤ s.size := require_eq_ok.mp hreq
  have hput := s.bufPut_le
  change Follows _ (require (s.offset + s.bufPut + data.length ≤ s.size) _ >>= _)
    (require (s.offset + s.bufPut + data.length ≤ s.size) _ >>= _) u
  rw [require_of hcheck, ok_bind, ok_bind]
  have hcp : (data.take (min data.length (memChunk - s.bufPut))).length =
      min data.length (memChunk - s.bufPut) := by
    rw [List.length_take]
    omega
  refine follows_fill ?_ (fun hrest => ?_) (fun s₁ hs₁ => follows_write_ hs₁ _) h
  · change s.bufPut + (data.take (min data.length (memChunk - s.bufPut))).length ≤ _
    omega
  · change data.drop (min data.length (memChunk - s.bufPut)) ≠ [] at hrest
    change s.bufPut + (data.take (min data.length (memChunk - s.bufPut))).length = _
    by_contra hne
    exact hrest (List.drop_eq_nil_of_le (by omega))

theorem follows_sink_pad {s : SimpleSink (TempFile faults fill)} {len : Nat} {u : BufferUse}
    (h : Sink.pad s.use len = .ok u) :
    Follows s.io.writes (Sink.pad s len) (Sink.pad s.kept len) u := by
  obtain ⟨_, hreq, h⟩ := bind_eq_ok.mp h
  have hcheck : s.offset + s.bufPut + len ≤ s.size := require_eq_ok.mp hreq
  have hput := s.bufPut_le
  change Follows _ (require (s.offset + s.bufPut + len ≤ s.size) _ >>= _)
    (require (s.offset + s.bufPut + len ≤ s.size) _ >>= _) u
  rw [require_of hcheck, ok_bind, ok_bind]
  refine follows_fill ?_ (fun hrest => ?_) (fun s₁ hs₁ => follows_pad_ hs₁ _) h
  · rw [length_zeros]
    change s.bufPut + min len (memChunk - s.bufPut) ≤ _
    omega
  · rw [length_zeros]
    change len - min len (memChunk - s.bufPut) ≠ 0 at hrest
    change s.bufPut + min len (memChunk - s.bufPut) = _
    omega

theorem follows_step {s : SimpleSink (TempFile faults fill)} {c : Sink.Call} {u : BufferUse}
    (h : Sink.step s.use c = .ok u) :
    Follows s.io.writes (Sink.step s c) (Sink.step s.kept c) u := by
  cases c with
  | write data => exact follows_sink_write h
  | pad len => exact follows_sink_pad h
  | flush =>
      cases h
      exact follows_flush s

/-- What the counting sink refuses, the buffered one refuses. -/
theorem use_step_ok {s t : SimpleSink (TempFile faults fill)} {c : Sink.Call}
    (h : Sink.step s c = .ok t) : ∃ u, Sink.step s.use c = .ok u := by
  cases c with
  | write data =>
      obtain ⟨_, hreq, -⟩ := bind_eq_ok.mp h
      exact BufferUse.write_of_fits (u := s.use) (require_eq_ok.mp hreq)
  | pad len =>
      obtain ⟨_, hreq, -⟩ := bind_eq_ok.mp h
      exact BufferUse.pad_of_fits (u := s.use) (require_eq_ok.mp hreq)
  | flush => exact ⟨_, rfl⟩

theorem Follows.bind {w : Nat} {x : Except Error (SimpleSink (TempFile faults fill))}
    {x₀ : Except Error (SimpleSink Bytes)} {u u' : BufferUse}
    {f : SimpleSink (TempFile faults fill) → Except Error (SimpleSink (TempFile faults fill))}
    {f₀ : SimpleSink Bytes → Except Error (SimpleSink Bytes)} (h : Follows w x x₀ u)
    (hle : u.writes ≤ u'.writes)
    (hf : ∀ t, t.use = u → Follows u.writes (f t) (f₀ t.kept) u') :
    Follows w (x >>= f) (x₀ >>= f₀) u' := by
  refine ⟨Nat.le_trans h.le hle, fun t ht => ?_, ?_⟩
  · obtain ⟨s, hs, ht⟩ := bind_eq_ok.mp ht
    obtain ⟨huse, hx₀⟩ := h.of_ok s hs
    rw [hx₀, ok_bind]
    exact (hf s huse).of_ok t ht
  · rw [TempFile.quiet_trans h.le hle, ← h.ok_iff]
    constructor
    · rintro ⟨t, ht⟩
      obtain ⟨s, hs, ht⟩ := bind_eq_ok.mp ht
      exact ⟨⟨s, hs⟩, (hf s (h.of_ok s hs).1).ok_iff.mp ⟨t, ht⟩⟩
    · rintro ⟨⟨s, hs⟩, hq⟩
      rw [hs, ok_bind]
      exact (hf s (h.of_ok s hs).1).ok_iff.mpr hq

theorem follows_run {s : SimpleSink (TempFile faults fill)} {calls : List Sink.Call}
    {u : BufferUse} (h : run Sink.step s.use calls = .ok u) :
    Follows s.io.writes (run Sink.step s calls) (run Sink.step s.kept calls) u := by
  induction calls generalizing s with
  | nil =>
      cases h
      exact follows_pure rfl rfl
  | cons c calls ih =>
      obtain ⟨u₁, h₁, h⟩ := exists_of_run_cons Sink.step h
      refine (follows_step h₁).bind (BufferUse.writes_le_of_run h) fun t ht => ?_
      subst ht
      exact ih h

theorem use_run_ok {s t : SimpleSink (TempFile faults fill)} {calls : List Sink.Call}
    (h : run Sink.step s calls = .ok t) : ∃ u, run Sink.step s.use calls = .ok u := by
  induction calls generalizing s with
  | nil => exact ⟨_, rfl⟩
  | cons c calls ih =>
      obtain ⟨s', h₁, h⟩ := exists_of_run_cons Sink.step h
      obtain ⟨u, hu⟩ := use_step_ok h₁
      rw [run_cons_ok Sink.step hu, ← ((follows_step hu).of_ok s' h₁).1]
      exact ih h

/-- What a run that returns has put into the output and its buffer: all bytes
exactly when no pad is short, and all but zeros at the end exactly when the pads
that are short have nothing else behind them. -/
theorem appends_run {s t : SimpleSink (TempFile faults fill)} {calls : List Sink.Call}
    {size : Nat} {out : Bytes} (h : s.kept.Appended size out)
    (hrun : run Sink.step s calls = .ok t) :
    ∃ added, t.kept.Appended size (out ++ added) ∧
      (out.length ≤ size → (out ++ added).length ≤ size) ∧
      Adds (Sink.bytesOf calls) (EveryStep Sink.step BufferUse.LeavesPartChunk s.use calls)
        added ∧
      Trails 0 (Sink.bytesOf calls) added (s.use.LosesZerosOnly calls) := by
  induction calls generalizing s out with
  | nil =>
      cases hrun
      rw [← List.append_nil out] at h
      exact ⟨[], h, fun hle => by rwa [List.append_nil], Adds.all trivial, Trails.all _ trivial⟩
  | cons c calls ih =>
      obtain ⟨s', h₁, hrun⟩ := exists_of_run_cons Sink.step hrun
      obtain ⟨u, hu⟩ := use_step_ok h₁
      obtain ⟨rfl, hkept⟩ := (follows_step hu).of_ok s' h₁
      have hnext {P : BufferUse → Prop} :
          (∀ u', Sink.step s.use c = .ok u' → P u') ↔ P s'.use := by
        refine ⟨fun hall => hall _ hu, fun hP u' hu' => ?_⟩
        cases hu.symm.trans hu'
        exact hP
      obtain ⟨first, happ, hle, hfirst⟩ := appends_step h hkept
      obtain ⟨rest, happ', hle', hadds, htrails⟩ := ih happ hrun
      rw [List.append_assoc] at happ' hle'
      refine ⟨first ++ rest, happ', fun h => hle' (hle h), ?_⟩
      rw [EveryStep, BufferUse.LosesZerosOnly, hnext, hnext, Sink.bytesOf_cons]
      have hsame : s.kept.LeavesPartChunk c ↔ s.use.LeavesPartChunk c := by cases c <;> rfl
      rw [hsame] at hfirst
      rcases hfirst with ⟨hpart, rfl⟩ | ⟨hpart, n, len, rfl, hn, rfl⟩
      · simp only [hpart, true_and, true_or]
        exact ⟨hadds.append_left _, htrails.append_left _⟩
      · simp only [hpart, false_and, false_or]
        exact ⟨hadds.short (by simpa using hn), htrails.lose_blanks hn⟩

/-- The destructor: an exception of the last flush is logged and forgotten. -/
def destroy (s : SimpleSink (TempFile faults fill)) : TempFile faults fill :=
  match flush s with
  | .ok t => t.io
  | .error _ => s.io.put (s.buf.take s.bufPut)

theorem destroy_written {s : SimpleSink (TempFile faults fill)} {size : Nat} {out : Bytes}
    (h : s.kept.Appended size out) : s.destroy.written = out.take (s.use.reach faults) := by
  have hout : s.io.written ++ s.buf.take s.bufPut = out := h.2.1
  have hoffset : s.io.written.length = s.offset := h.offset_eq
  have hput : s.use.bufPut = s.bufPut := rfl
  have hwrites : s.use.writes = s.io.writes := rfl
  have htake (n : Nat) : out.take (s.use.offset + n) = s.io.written ++ (s.buf.take s.bufPut).take n := by
    change out.take (s.offset + n) = _
    rw [← hout, ← hoffset, List.take_length_add_append]
  rw [BufferUse.reach, hput, hwrites]
  by_cases hzero : s.bufPut = 0
  · have hflush : flush s = .ok s := if_neg (not_not.mpr hzero)
    rw [if_pos hzero, ← Nat.add_zero s.use.offset, htake, destroy, hflush, List.take_zero,
      List.append_nil]
  · rw [if_neg hzero, destroy, flush, if_pos hzero]
    cases hfail : faults s.io.writes with
    | none =>
        rw [TempFile.write_ok hfail]
        dsimp only
        rw [htake, List.take_take, Nat.min_self]
        rfl
    | some k =>
        rw [TempFile.write_error (by simp [hfail]), error_bind]
        simp only [TempFile.put, hfail, htake]
        rw [List.dropLast_eq_take, length_take_buf, List.take_take]

end SimpleSink

/-- `Dump(path)`: what the call returns, and what `path` holds then. The file
cannot be mapped; `truncated` says whether it had got its size before. `buf` is
the uninitialised buffer of the sink, `renamed` what the rename does. -/
def Dumpable.dump (d : Dumpable) (faults : Nat → Option Nat) (truncated : Bool)
    (renamed : Except Error Unit) (buf : Bytes) (hbuf : buf.length = memChunk) (old : Bytes) :
    Except Error Unit × Bytes :=
  let fill := if truncated then d.getSize else 0
  let sink := SimpleSink.create (⟨[], 0⟩ : TempFile faults fill) buf hbuf d.getSize
  match d.dump_ sink with
  | .error e => (.error e, old)
  | .ok s =>
      let path2 := s.destroy
      match renamed with
      | .error e => (.error e, old)
      | .ok () => (.ok (), path2.content)

/-- The call returns and `path` holds the whole dump, or it throws and `path`
holds what it held. -/
def Dumpable.Safe (d : Dumpable) (old : Bytes) (result : Except Error Unit × Bytes) : Prop :=
  result = (.ok (), Sink.bytesOf d.calls) ∨ ∃ e, result = (.error e, old)

theorem Dumpable.safe_error (d : Dumpable) (old : Bytes) (e : Error) :
    d.Safe old (.error e, old) := Or.inr ⟨e, rfl⟩

theorem Dumpable.safe_ok_iff (d : Dumpable) (old content : Bytes) :
    d.Safe old (.ok (), content) ↔ content = Sink.bytesOf d.calls := by
  constructor
  · rintro (h | ⟨e, h⟩)
    · exact congrArg Prod.snd h
    · exact nomatch congrArg Prod.fst h
  · rintro rfl
    exact Or.inl rfl

/-- The file is the whole dump when the destructor is done. Without its size, it
ends where the output does; a pad must not have lost a chunk, and the write of the
destructor, if there is one, must not fail. With it, only zeros may be lost. -/
def Dumpable.Complete (d : Dumpable) (faults : Nat → Option Nat) (u : BufferUse) : Bool → Prop
  | false =>
      EveryStep Sink.step BufferUse.LeavesPartChunk (BufferUse.create d.getSize) d.calls ∧
        (u.bufPut ≠ 0 → faults u.writes = none)
  | true =>
      Sink.totalLength d.calls = d.getSize ∧
        (BufferUse.create d.getSize).LosesZerosOnly d.calls ∧
        ∀ b ∈ (Sink.bytesOf d.calls).drop (u.reach faults), b = 0

/-- What the file holds behind the destructor, after a run that returns. -/
theorem Dumpable.content_eq_iff (d : Dumpable) (truncated : Bool) {buf : Bytes}
    (hbuf : buf.length = memChunk)
    {t : SimpleSink (TempFile faults (if truncated then d.getSize else 0))}
    (hrun : run Sink.step (SimpleSink.create ⟨[], 0⟩ buf hbuf d.getSize) d.calls = .ok t) :
    t.destroy.content = Sink.bytesOf d.calls ↔ d.Complete faults t.use truncated := by
  have hstart : (SimpleSink.create (ω := TempFile faults (if truncated then d.getSize else 0))
      ⟨[], 0⟩ buf hbuf d.getSize).kept.Appended d.getSize [] := ⟨rfl, rfl, rfl⟩
  obtain ⟨out, happ, hsize, hadds, htrails⟩ := SimpleSink.appends_run hstart hrun
  rw [List.nil_append] at happ hsize
  have hwritten := SimpleSink.destroy_written happ
  have hle := hsize (Nat.zero_le _)
  rw [TempFile.content_eq, hwritten]
  cases truncated with
  | false =>
      have hlength : out.length = t.use.offset + t.use.bufPut := happ.2.2.symm
      change out.take (t.use.reach faults) ++ zeros (0 - _) = _ ↔ _
      rw [Nat.zero_sub, zeros_zero, List.append_nil, hadds.take_eq_iff, hlength,
        BufferUse.le_reach_iff]
      rfl
  | true =>
      have hfill : (out.take (t.use.reach faults)).length +
          (d.getSize - (out.take (t.use.reach faults)).length) = d.getSize := by
        rw [List.length_take]
        omega
      change out.take (t.use.reach faults) ++ List.replicate (d.getSize - _) 0 = _ ↔ _
      rw [append_replicate_eq_iff, hfill, htrails.trim_take_iff]
      exact and_congr_left' eq_comm

/-- A call that throws leaves `path` alone. One that nothing stops, neither the
object nor a write nor the rename, leaves a whole dump exactly when the file is
complete. -/
theorem Dumpable.dump_safe_iff (d : Dumpable) (faults : Nat → Option Nat) (truncated : Bool)
    (renamed : Except Error Unit) (buf : Bytes) (hbuf : buf.length = memChunk)
    (old : Bytes) :
    d.Safe old (d.dump faults truncated renamed buf hbuf old) ↔
      ∀ u, run Sink.step (BufferUse.create d.getSize) d.calls = .ok u →
        d.throws = none → renamed = .ok () → TempFile.Quiet faults 0 u.writes →
        d.Complete faults u truncated := by
  let fill := if truncated then d.getSize else 0
  let s₀ := SimpleSink.create (⟨[], 0⟩ : TempFile faults fill) buf hbuf d.getSize
  cases hrun : run Sink.step s₀ d.calls with
  | error e =>
      have hdump : d.dump faults truncated renamed buf hbuf old = (.error e, old) := by
        simp only [dump, dump_]
        rw [hrun]
        rfl
      rw [hdump]
      refine iff_of_true (d.safe_error old e) fun u hu _ _ hq => ?_
      obtain ⟨t, ht⟩ := (SimpleSink.follows_run (s := s₀) hu).ok_iff.mpr hq
      cases hrun.symm.trans ht
  | ok t =>
      obtain ⟨u, hu⟩ := SimpleSink.use_run_ok hrun
      have hfollows := SimpleSink.follows_run hu
      have huse := (hfollows.of_ok t hrun).1
      have hq := hfollows.ok_iff.mp ⟨t, hrun⟩
      have hcontent := d.content_eq_iff truncated hbuf hrun
      cases huse
      cases hthrows : d.throws with
      | some e =>
          have hdump : d.dump faults truncated renamed buf hbuf old = (.error e, old) := by
            simp only [dump, dump_]
            rw [hrun, ok_bind, hthrows]
            rfl
          rw [hdump]
          exact iff_of_true (d.safe_error old e) fun _ _ hnone => by cases hnone
      | none =>
          cases hrename : renamed with
          | error e =>
              have hdump : d.dump faults truncated (.error e) buf hbuf old = (.error e, old) := by
                simp only [dump, dump_]
                rw [hrun, ok_bind, hthrows]
                rfl
              rw [hdump]
              exact iff_of_true (d.safe_error old e) fun _ _ _ hok => by cases hok
          | ok _ =>
              have hdump : d.dump faults truncated (.ok ()) buf hbuf old =
                  (.ok (), t.destroy.content) := by
                simp only [dump, dump_]
                rw [hrun, ok_bind, hthrows]
                rfl
              rw [hdump, d.safe_ok_iff, hcontent]
              constructor
              · intro hall u' hu' _ _ _
                cases hu.symm.trans hu'
                exact hall
              · exact fun hall => hall _ hu rfl rfl hq

/-- A byte and three zeros, which are in the buffer to the end. -/
def zerosBehind : Dumpable := { getSize := 4, calls := [.write [1], .pad 3], throws := none }

/-- The write of the destructor may fail behind the byte when the file has its
size already. -/
theorem zerosBehind_dump_safe :
    zerosBehind.Safe [2] (zerosBehind.dump (fun _ => none) false (.ok ()) (zeros memChunk)
      (length_zeros _) [2]) ∧
    zerosBehind.Safe [2] (zerosBehind.dump (fun _ => some 1) true (.ok ()) (zeros memChunk)
      (length_zeros _) [2]) := by
  have hrun : run Sink.step (BufferUse.create zerosBehind.getSize) zerosBehind.calls =
      .ok { size := 4, offset := 0, bufPut := 4, writes := 0 } := rfl
  have hfirst : Sink.step (BufferUse.create zerosBehind.getSize) (.write [1]) =
      .ok { size := 4, offset := 0, bufPut := 1, writes := 0 } := rfl
  have hparts : EveryStep Sink.step BufferUse.LeavesPartChunk
      (BufferUse.create zerosBehind.getSize) zerosBehind.calls := by
    refine ⟨trivial, fun u hu => ⟨fun _ => ?_, fun _ _ => trivial⟩⟩
    cases hfirst.symm.trans hu
    decide
  constructor
  · refine (Dumpable.dump_safe_iff _ _ _ _ _ (length_zeros _) _).mpr fun u hu _ _ _ => ?_
    exact ⟨hparts, fun _ => rfl⟩
  · refine (Dumpable.dump_safe_iff _ _ _ _ _ (length_zeros _) _).mpr fun u hu _ _ _ => ?_
    cases hrun.symm.trans hu
    have hbehind : (Sink.bytesOf zerosBehind.calls).drop 1 = List.replicate 3 0 := rfl
    refine ⟨rfl, BufferUse.losesZerosOnly_of_everyStep hparts, fun b hb => ?_⟩
    exact (List.mem_replicate.mp (hbehind ▸ hb)).2

/-- One byte in the buffer when the object is done, and its only write fails:
the call returns and the path holds nothing, or a zero in its place. -/
theorem dump_one_byte_lost :
    ¬ (Dumpable.mk 1 [.write [1]] none).Safe [2]
      ((Dumpable.mk 1 [.write [1]] none).dump (fun n => if n = 0 then some 0 else none) false
        (.ok ()) (zeros memChunk) (length_zeros _) [2]) ∧
    ¬ (Dumpable.mk 1 [.write [1]] none).Safe [2]
      ((Dumpable.mk 1 [.write [1]] none).dump (fun n => if n = 0 then some 0 else none) true
        (.ok ()) (zeros memChunk) (length_zeros _) [2]) := by
  have hdump (truncated : Bool) : (Dumpable.mk 1 [.write [1]] none).dump
      (fun n => if n = 0 then some 0 else none) truncated (.ok ()) (zeros memChunk)
      (length_zeros _) [2] = (.ok (), if truncated then [0] else []) := by
    cases truncated <;> rfl
  rw [hdump, hdump, Dumpable.safe_ok_iff, Dumpable.safe_ok_iff]
  decide

end Neptools

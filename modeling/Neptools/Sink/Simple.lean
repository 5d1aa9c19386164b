import Neptools.Lib.Buffer
import Neptools.Lib.Run
import Neptools.Sink.Basic

/-!
The buffered sink for outputs that cannot be mapped. Short writes gather in a
chunk, long writes and long pads go through `Write_` and `Pad_`. What the sink
has passed on, followed by the filled part of its buffer, is compared with the
concatenation of all calls. The output itself is a parameter: all that is used
of it is that a write appends the bytes it is given.
-/

namespace Neptools

open Lib

/-- The output below a sink. `written` is what it has been given so far. -/
class LowIo (ω : Type) where
  write : ω → Bytes → Except Error ω
  written : ω → Bytes

class LawfulLowIo (ω : Type) [LowIo ω] : Prop where
  write_appends : ∀ (io : ω) (data : Bytes),
    ∃ io', LowIo.write io data = .ok io' ∧
      LowIo.written io' = LowIo.written io ++ data

/-- An output that keeps everything it is given. -/
instance : LowIo Bytes where
  write io data := .ok (io ++ data)
  written io := io

instance : LawfulLowIo Bytes where
  write_appends _ _ := ⟨_, rfl, rfl⟩

structure SimpleSink (ω : Type) where
  io : ω
  buf : Bytes
  offset : Nat
  size : Nat
  bufPut : Nat
  buf_length : buf.length = memChunk
  bufPut_le : bufPut ≤ memChunk

namespace SimpleSink

variable {ω : Type}

/-- A new sink. The buffer is a member array with whatever it held before. -/
def create (io : ω) (buf : Bytes) (h : buf.length = memChunk) (size : Nat) :
    SimpleSink ω :=
  { io, buf, offset := 0, size, bufPut := 0, buf_length := h,
    bufPut_le := Nat.zero_le _ }

def store (s : SimpleSink ω) (xs : Bytes) : Except Error (SimpleSink ω) :=
  if h : s.bufPut + xs.length ≤ memChunk then
    .ok { s with
      buf := overwrite s.buf s.bufPut xs
      bufPut := s.bufPut + xs.length
      buf_length := by rw [length_overwrite (by rwa [s.buf_length]), s.buf_length]
      bufPut_le := h }
  else .error (.assertionFailed "memcpy past the buffer")

variable [LowIo ω]

def write_ (s : SimpleSink ω) (data : Bytes) : Except Error (SimpleSink ω) := do
  require (s.bufPut = memChunk) (Error.assertionFailed "buf_put == MEM_CHUNK")
  let io ← LowIo.write s.io s.buf
  let offset := s.offset + memChunk
  if h : memChunk ≤ data.length then
    let io ← LowIo.write io data
    pure { s with
      io, offset := offset + data.length, bufPut := 0, bufPut_le := Nat.zero_le _ }
  else
    have hl : 0 + data.length ≤ s.buf.length := by rw [s.buf_length]; omega
    pure { s with
      io, offset
      buf := overwrite s.buf 0 data
      bufPut := data.length
      buf_length := by rw [length_overwrite hl, s.buf_length]
      bufPut_le := by omega }

/-- `for (i = …; i < len; i += MEM_CHUNK) io.Write(buf, MEM_CHUNK)`, with the
last value of `i`. -/
def padLoop (buf : Bytes) (len i : Nat) (io : ω) : Except Error (Nat × ω) :=
  if i < len then do
    let io ← LowIo.write io buf
    padLoop buf len (i + memChunk) io
  else pure (i, io)
termination_by len - i
decreasing_by
  have := memChunk_pos
  omega

def pad_ (s : SimpleSink ω) (len : Nat) : Except Error (SimpleSink ω) := do
  require (s.bufPut = memChunk) (Error.assertionFailed "buf_put == MEM_CHUNK")
  let io ← LowIo.write s.io s.buf
  let offset := s.offset + memChunk
  have hmod : len % memChunk ≤ memChunk := Nat.le_of_lt (Nat.mod_lt _ memChunk_pos)
  if h : memChunk ≤ len then
    let (i, io) ← padLoop (zeros memChunk) len memChunk io
    pure { s with
      io, offset := offset + (i - memChunk)
      buf := zeros memChunk
      bufPut := len % memChunk
      buf_length := length_zeros _
      bufPut_le := hmod }
  else
    have hl : 0 + (zeros len).length ≤ s.buf.length := by
      rw [s.buf_length, length_zeros]
      omega
    pure { s with
      io, offset
      buf := overwrite s.buf 0 (zeros len)
      bufPut := len % memChunk
      buf_length := by rw [length_overwrite hl, s.buf_length]
      bufPut_le := hmod }

def flush (s : SimpleSink ω) : Except Error (SimpleSink ω) :=
  if s.bufPut ≠ 0 then do
    let io ← LowIo.write s.io (s.buf.take s.bufPut)
    pure { s with
      io, offset := s.offset + s.bufPut, bufPut := 0, bufPut_le := Nat.zero_le _ }
  else pure s

instance : Sink (SimpleSink ω) where
  offset := offset
  size := size
  bufPut := bufPut
  bufSize _ := memChunk
  store := store
  write_ := write_
  pad_ := pad_
  flush := flush

/-- The output followed by the filled part of the buffer is `out`, and the
sink's own position says so. -/
def Appended (s : SimpleSink ω) (size : Nat) (out : Bytes) : Prop :=
  s.size = size ∧ LowIo.written s.io ++ s.buf.take s.bufPut = out ∧
    Sink.tell s = out.length

theorem tell_eq (s : SimpleSink ω) : Sink.tell s = s.offset + s.bufPut := rfl

omit [LowIo ω] in
theorem length_take_buf (s : SimpleSink ω) : (s.buf.take s.bufPut).length = s.bufPut := by
  rw [List.length_take, s.buf_length]
  exact Nat.min_eq_left s.bufPut_le

theorem Appended.offset_eq {s : SimpleSink ω} {size : Nat} {out : Bytes}
    (h : s.Appended size out) : (LowIo.written s.io).length = s.offset := by
  obtain ⟨_, hout, htell⟩ := h
  rw [← hout, List.length_append, length_take_buf, tell_eq] at htell
  omega

/-- A full buffer has been filled to its last byte. -/
theorem Appended.of_full {s : SimpleSink ω} {size : Nat} {out : Bytes}
    (h : s.Appended size out) (hput : s.bufPut = memChunk) :
    LowIo.written s.io ++ s.buf = out := by
  have hbuf : s.buf.take s.bufPut = s.buf := by
    rw [hput, ← s.buf_length, List.take_length]
  rw [← h.2.1, hbuf]

theorem appends_store {s : SimpleSink ω} {size : Nat} {out : Bytes}
    (h : s.Appended size out) (xs : Bytes) (hxs : s.bufPut + xs.length ≤ memChunk) :
    ∃ s', store s xs = .ok s' ∧ s'.bufPut = s.bufPut + xs.length ∧
      s'.Appended size (out ++ xs) := by
  obtain ⟨hsize, hout, htell⟩ := h
  refine ⟨_, dif_pos hxs, rfl, hsize, ?_, ?_⟩
  · have hput : s.bufPut ≤ s.buf.length := by rw [s.buf_length]; exact s.bufPut_le
    simp only [take_overwrite xs hput, ← hout, List.append_assoc]
  · rw [List.length_append, ← htell]
    exact (Nat.add_assoc s.offset s.bufPut xs.length).symm

variable [LawfulLowIo ω]

theorem appends_write_ {s : SimpleSink ω} {size : Nat} {out : Bytes}
    (h : s.Appended size out) (hput : s.bufPut = memChunk) (data : Bytes) :
    ∃ s', write_ s data = .ok s' ∧ s'.Appended size (out ++ data) := by
  have hfull := h.of_full hput
  obtain ⟨hsize, -, htell⟩ := h
  rw [tell_eq, hput] at htell
  obtain ⟨io₁, hio₁, hw₁⟩ := LawfulLowIo.write_appends s.io s.buf
  by_cases hd : memChunk ≤ data.length
  · obtain ⟨io₂, hio₂, hw₂⟩ := LawfulLowIo.write_appends io₁ data
    simp only [write_, require_of hput, ok_bind, hio₁, dif_pos hd, hio₂]
    refine ⟨_, rfl, hsize, ?_, ?_⟩
    · simp [hw₂, hw₁, ← hfull]
    · simp [tell_eq, ← htell]
  · simp only [write_, require_of hput, ok_bind, hio₁, dif_neg hd]
    refine ⟨_, rfl, hsize, ?_, ?_⟩
    · have htake := take_overwrite data (Nat.zero_le s.buf.length)
      rw [Nat.zero_add, List.take_zero, List.nil_append] at htake
      simp only [hw₁, htake, ← hfull]
    · simp [tell_eq, ← htell]

theorem padLoop_appends (len i : Nat) (io : ω) :
    ∃ k io', padLoop (zeros memChunk) len i io = .ok (i + k * memChunk, io') ∧
      LowIo.written io' = LowIo.written io ++ zeros (k * memChunk) ∧
      len ≤ i + k * memChunk ∧ (k = 0 ∨ i + k * memChunk < len + memChunk) := by
  fun_induction padLoop (zeros memChunk) len i io with
  | case1 i io hlt ih =>
      obtain ⟨io₁, hio₁, hw₁⟩ := LawfulLowIo.write_appends io (zeros memChunk)
      obtain ⟨k, io', hloop, hw, hle, hlast⟩ := ih io₁
      have hk : i + memChunk + k * memChunk = i + (k + 1) * memChunk := by
        rw [Nat.add_mul, Nat.one_mul]
        omega
      refine ⟨k + 1, io', ?_, ?_, ?_, Or.inr ?_⟩
      · rw [hio₁, ok_bind, hloop, hk]
      · rw [hw, hw₁, List.append_assoc, zeros_append, Nat.add_mul, Nat.one_mul,
          Nat.add_comm memChunk]
      · omega
      · rcases hlast with rfl | hlast <;> omega
  | case2 i io hge => exact ⟨0, io, by simp, by simp, by omega, Or.inl rfl⟩

/-- The least number of chunks of size `c` that, after a first one, reach
`len` leaves its rest unless `len` is a whole number of chunks. -/
theorem chunks_add_rest_eq_iff {c k len : Nat} (hc : 0 < c) (hd : c ≤ len)
    (hle : len ≤ c + k * c) (hlast : k = 0 ∨ c + k * c < len + c) :
    k * c + len % c = len ↔ ¬ c ∣ len := by
  have hlen := Nat.div_add_mod' len c
  have hmod := Nat.mod_lt len hc
  constructor
  · rintro hsum ⟨q, rfl⟩
    rw [Nat.mul_mod_right, Nat.add_zero] at hsum
    rcases hlast with rfl | hlast
    · omega
    · omega
  · intro hnd
    have hpos : 0 < len % c := Nat.pos_of_ne_zero fun h => hnd (Nat.dvd_of_mod_eq_zero h)
    have hq : len / c ≤ k := by
      have : len / c * c < (k + 1) * c := by rw [Nat.add_mul, Nat.one_mul]; omega
      exact Nat.lt_succ_iff.mp (Nat.lt_of_mul_lt_mul_right this)
    have hk : k ≤ len / c := by
      rcases hlast with rfl | hlast
      · exact Nat.zero_le _
      · have : k * c < (len / c + 1) * c := by rw [Nat.add_mul, Nat.one_mul]; omega
        exact Nat.lt_succ_iff.mp (Nat.lt_of_mul_lt_mul_right this)
    rw [Nat.le_antisymm hk hq]
    exact hlen

theorem chunks_add_rest_le {c k len : Nat} (hlast : k = 0 ∨ c + k * c < len + c) :
    k * c + len % c ≤ len := by
  have hlen := Nat.div_add_mod' len c
  have hk : k * c ≤ len / c * c := by
    rcases hlast with rfl | hlast
    · rw [Nat.zero_mul]
      exact Nat.zero_le _
    · rcases Nat.eq_zero_or_pos c with rfl | hc
      · exact Nat.le_refl _
      · exact Nat.mul_le_mul_right c ((Nat.le_div_iff_mul_le hc).mpr (by omega))
  omega

/-- A pad that overflows the buffer is right unless what is left of it is a
whole number of chunks: the loop then stops one chunk short, and nothing of
the last chunk is left for the buffer. -/
theorem appends_pad_ {s : SimpleSink ω} {size : Nat} {out : Bytes}
    (h : s.Appended size out) (hput : s.bufPut = memChunk) {len : Nat} (hlen : 0 < len) :
    ∃ s' n, pad_ s len = .ok s' ∧ s'.Appended size (out ++ zeros n) ∧ n ≤ len ∧
      (n = len ↔ ¬ memChunk ∣ len) := by
  have hfull := h.of_full hput
  obtain ⟨hsize, -, htell⟩ := h
  rw [tell_eq, hput] at htell
  obtain ⟨io₁, hio₁, hw₁⟩ := LawfulLowIo.write_appends s.io s.buf
  by_cases hd : memChunk ≤ len
  · obtain ⟨k, io₂, hloop, hw₂, hle, hlast⟩ := padLoop_appends len memChunk io₁
    have hk := chunks_add_rest_eq_iff memChunk_pos hd hle hlast
    rw [pad_, require_of hput, ok_bind, hio₁, ok_bind, dif_pos hd, hloop, ok_bind]
    simp only [Nat.add_sub_cancel_left]
    refine ⟨_, k * memChunk + len % memChunk, rfl, ⟨hsize, ?_, ?_⟩,
      chunks_add_rest_le hlast, hk⟩
    · have hmod : len % memChunk ≤ memChunk := Nat.le_of_lt (Nat.mod_lt _ memChunk_pos)
      simp only [hw₂, hw₁, hfull, take_zeros hmod, List.append_assoc, zeros_append]
    · simp only [tell_eq, List.length_append, length_zeros, ← htell]
      omega
  · have hmod : len % memChunk = len := Nat.mod_eq_of_lt (by omega)
    have hnd : ¬ memChunk ∣ len := fun hdvd => hd (Nat.le_of_dvd hlen hdvd)
    rw [pad_, require_of hput, ok_bind, hio₁, ok_bind, dif_neg hd]
    refine ⟨_, len, rfl, ⟨hsize, ?_, ?_⟩, Nat.le_refl _, iff_of_true rfl hnd⟩
    · have htake := take_overwrite (zeros len) (Nat.zero_le s.buf.length)
      rw [Nat.zero_add, List.take_zero, List.nil_append, length_zeros] at htake
      simp only [hmod, hw₁, htake, ← hfull]
    · simp [hmod, tell_eq, ← htell]

theorem appends_flush {s : SimpleSink ω} {size : Nat} {out : Bytes}
    (h : s.Appended size out) :
    ∃ s', flush s = .ok s' ∧ s'.Appended size out ∧ LowIo.written s'.io = out := by
  obtain ⟨hsize, hout, htell⟩ := h
  by_cases hput : s.bufPut = 0
  · refine ⟨s, by simp [flush, hput], ⟨hsize, hout, htell⟩, ?_⟩
    simpa [hput] using hout
  · obtain ⟨io₁, hio₁, hw₁⟩ := LawfulLowIo.write_appends s.io (s.buf.take s.bufPut)
    rw [hout] at hw₁
    simp only [flush, ne_eq, hput, not_false_eq_true, if_true, hio₁, ok_bind]
    exact ⟨_, rfl, ⟨hsize, by simpa using hw₁, htell⟩, hw₁⟩

theorem appends_write {s : SimpleSink ω} {size : Nat} {out : Bytes}
    (h : s.Appended size out) (data : Bytes) (hfit : out.length + data.length ≤ size) :
    ∃ s', Sink.write s data = .ok s' ∧ s'.Appended size (out ++ data) := by
  have hcheck : s.offset + s.bufPut + data.length ≤ s.size := by
    rw [h.1, ← tell_eq, h.2.2]
    exact hfit
  have hput := s.bufPut_le
  let cp := min data.length (memChunk - s.bufPut)
  have hcp : (data.take cp).length = cp := by
    rw [List.length_take]
    omega
  obtain ⟨s₁, hs₁, hput₁, h₁⟩ := appends_store h (data.take cp) (by omega)
  have hw : Sink.write s data =
      if data.drop cp ≠ [] then write_ s₁ (data.drop cp) else pure s₁ := by
    change (require (s.offset + s.bufPut + data.length ≤ s.size) _ >>= fun _ =>
      store s (data.take cp) >>= fun s => _) = _
    rw [require_of hcheck, ok_bind, hs₁, ok_bind]
    rfl
  have hz : out ++ data = out ++ data.take cp ++ data.drop cp := by
    rw [List.append_assoc, List.take_append_drop]
  rw [hw, hz]
  by_cases hrest : data.drop cp = []
  · rw [if_neg (not_not.mpr hrest), hrest, List.append_nil]
    exact ⟨s₁, rfl, h₁⟩
  · have hlt : cp < data.length := by
      by_contra hge
      exact hrest (List.drop_eq_nil_of_le (by omega))
    rw [if_pos hrest]
    exact appends_write_ h₁ (by omega) _

/-- The pad leaves the sink right: what does not fit the buffer is not a whole
number of chunks. -/
def LeavesPartChunk (s : SimpleSink ω) : Sink.Call → Prop
  | .pad len => memChunk ∣ len - (memChunk - s.bufPut) → len ≤ memChunk - s.bufPut
  | _ => True

theorem appends_pad {s : SimpleSink ω} {size : Nat} {out : Bytes}
    (h : s.Appended size out) {len : Nat} (hfit : out.length + len ≤ size) :
    ∃ s' n, Sink.pad s len = .ok s' ∧ s'.Appended size (out ++ zeros n) ∧ n ≤ len ∧
      (n = len ↔ s.LeavesPartChunk (.pad len)) := by
  have hcheck : s.offset + s.bufPut + len ≤ s.size := by
    rw [h.1, ← tell_eq, h.2.2]
    exact hfit
  have hput := s.bufPut_le
  let cp := min len (memChunk - s.bufPut)
  obtain ⟨s₁, hs₁, hput₁, h₁⟩ := appends_store h (zeros cp) (by rw [length_zeros]; omega)
  rw [length_zeros] at hput₁
  have hp : Sink.pad s len = if len - cp ≠ 0 then pad_ s₁ (len - cp) else pure s₁ := by
    change (require (s.offset + s.bufPut + len ≤ s.size) _ >>= fun _ =>
      store s (zeros cp) >>= fun s => _) = _
    rw [require_of hcheck, ok_bind, hs₁, ok_bind]
    rfl
  rw [hp]
  by_cases hrest : len - cp = 0
  · have hle : len ≤ memChunk - s.bufPut := by omega
    rw [if_neg (not_not.mpr hrest)]
    refine ⟨s₁, cp, rfl, h₁, by omega, iff_of_true (by omega) fun _ => hle⟩
  · have hcp : cp = memChunk - s.bufPut := by omega
    obtain ⟨s', n, hs', h', hn, hiff⟩ := appends_pad_ h₁ (by omega) (by omega : 0 < len - cp)
    rw [List.append_assoc, zeros_append] at h'
    rw [if_pos hrest]
    refine ⟨s', cp + n, hs', h', by omega, ?_⟩
    rw [LeavesPartChunk, ← hcp]
    constructor
    · exact fun heq hdvd => absurd hdvd (hiff.mp (by omega))
    · intro hp
      have := hiff.mpr fun hdvd => by have := hp hdvd; omega
      omega

omit [LawfulLowIo ω] in
/-- The sink has written or holds one thing only. -/
theorem Appended.unique {s : SimpleSink ω} {size : Nat} {out out' : Bytes}
    (h : s.Appended size out) (h' : s.Appended size out') : out = out' :=
  h.2.1.symm.trans h'.2.1

theorem appends_pad_iff {s : SimpleSink ω} {size : Nat} {out : Bytes}
    (h : s.Appended size out) {len : Nat} (hfit : out.length + len ≤ size) :
    (∃ s', Sink.pad s len = .ok s' ∧ s'.Appended size (out ++ zeros len)) ↔
      s.LeavesPartChunk (.pad len) := by
  obtain ⟨s₁, n, hs₁, h₁, -, hiff⟩ := appends_pad h hfit
  rw [← hiff]
  constructor
  · rintro ⟨s', hs', h'⟩
    cases hs₁.symm.trans hs'
    have hlength := congrArg List.length (h₁.unique h')
    rw [List.length_append, List.length_append, length_zeros, length_zeros] at hlength
    omega
  · rintro rfl
    exact ⟨s₁, hs₁, h₁⟩

theorem appends_step_iff {s : SimpleSink ω} {size : Nat} {out : Bytes} {c : Sink.Call}
    {calls : List Sink.Call} (h : s.Appended size out)
    (hfit : Sink.Fits size out (c :: calls)) :
    (∃ s', Sink.step s c = .ok s' ∧ s'.Appended size (out ++ c.bytes)) ↔
      s.LeavesPartChunk c := by
  have hhead := hfit.head
  cases c with
  | write data => exact iff_of_true (appends_write h data hhead) trivial
  | pad len =>
      rw [Sink.Call.length, Sink.Call.bytes, length_zeros] at hhead
      exact appends_pad_iff h hhead
  | flush =>
      obtain ⟨s', hs', hs, -⟩ := appends_flush h
      rw [Sink.Call.bytes, List.append_nil]
      exact iff_of_true ⟨s', hs', hs⟩ trivial

/-- A call adds its bytes, or less of a pad that leaves no part of a chunk. -/
theorem appends_step {s t : SimpleSink ω} {size : Nat} {out : Bytes} {c : Sink.Call}
    (h : s.Appended size out) (hstep : Sink.step s c = .ok t) :
    ∃ added, t.Appended size (out ++ added) ∧
      (out.length ≤ size → (out ++ added).length ≤ size) ∧
      (s.LeavesPartChunk c ∧ added = c.bytes ∨
        ¬ s.LeavesPartChunk c ∧ ∃ n len, c = .pad len ∧ n < len ∧ added = zeros n) := by
  cases c with
  | write data =>
      obtain ⟨_, hreq, -⟩ := bind_eq_ok.mp hstep
      have hcheck : s.offset + s.bufPut + data.length ≤ s.size := require_eq_ok.mp hreq
      rw [← tell_eq, h.2.2, h.1] at hcheck
      obtain ⟨s', hs', hs⟩ := appends_write h data hcheck
      cases hstep.symm.trans hs'
      exact ⟨_, hs, fun _ => by rwa [List.length_append], Or.inl ⟨trivial, rfl⟩⟩
  | pad len =>
      obtain ⟨_, hreq, -⟩ := bind_eq_ok.mp hstep
      have hcheck : s.offset + s.bufPut + len ≤ s.size := require_eq_ok.mp hreq
      rw [← tell_eq, h.2.2, h.1] at hcheck
      obtain ⟨s', n, hs', hs, hn, hiff⟩ := appends_pad h hcheck
      cases hstep.symm.trans hs'
      refine ⟨_, hs, fun _ => ?_, ?_⟩
      · rw [List.length_append, length_zeros]
        omega
      by_cases hp : s.LeavesPartChunk (.pad len)
      · exact Or.inl ⟨hp, congrArg zeros (hiff.mpr hp)⟩
      · exact Or.inr ⟨hp, n, len, rfl, Nat.lt_of_le_of_ne hn fun heq => hp (hiff.mp heq), rfl⟩
  | flush =>
      obtain ⟨s', hs', hs, -⟩ := appends_flush h
      cases hstep.symm.trans hs'
      rw [← List.append_nil out] at hs
      exact ⟨[], hs, fun hle => by rwa [List.append_nil], Or.inl ⟨trivial, rfl⟩⟩

/-- Throughout a run the sink has passed on or holds exactly the concatenation
of the calls, and ends with all of it passed on, as long as no pad leaves a
whole number of chunks for `Pad_`; the first such pad breaks it. -/
theorem calls_appended_iff (io : ω) (hio : LowIo.written io = []) (buf : Bytes)
    (hbuf : buf.length = memChunk) (size : Nat) (calls : List Sink.Call)
    (hfit : Sink.totalLength calls ≤ size) :
    (∀ p, p <+: calls → ∃ s, run Sink.step (create io buf hbuf size) p = .ok s ∧
      s.Appended size (Sink.bytesOf p) ∧
      ∃ t, flush s = .ok t ∧ LowIo.written t.io = Sink.bytesOf p) ↔
      EveryStep Sink.step LeavesPartChunk (create io buf hbuf size) calls := by
  have h₀ : (create io buf hbuf size).Appended size [] := ⟨rfl, by simp [create, hio], rfl⟩
  have hall : Sink.Fits size [] calls := by simpa [Sink.Fits] using hfit
  rw [← every_prefix_iff Sink.step (fun s out => s.Appended size out)
    (fun s out => s.Appended size out) (fun out c => out ++ c.bytes) (Sink.Fits size)
    (fun _ _ h => h) (fun _ _ _ => Sink.Fits.tail)
    (fun _ _ _ _ h hfit => (appends_step_iff h hfit).mpr)
    (fun _ _ _ _ s' h hfit hs' hs => (appends_step_iff h hfit).mp ⟨s', hs', hs⟩)
    _ [] calls h₀ hall]
  simp only [Sink.foldl_append_bytes, List.nil_append]
  refine forall₂_congr fun p _ => exists_congr fun s => and_congr_right fun _ => ?_
  refine and_iff_left_of_imp fun h => ?_
  obtain ⟨t, ht, -, hw⟩ := appends_flush h
  exact ⟨t, ht, hw⟩

/-- Both calls go past the buffer, through `Pad_` with its loop and through `Write_`. -/
def padThenWrite : List Sink.Call :=
  [.pad (2 * memChunk + 5), .write (List.replicate memChunk 7)]

theorem padThenWrite_appended :
    Sink.totalLength padThenWrite = 3 * memChunk + 5 ∧
      ∀ p, p <+: padThenWrite →
        ∃ s, run Sink.step (create ([] : Bytes) (zeros memChunk) (length_zeros _)
            (3 * memChunk + 5)) p = .ok s ∧
          s.Appended (3 * memChunk + 5) (Sink.bytesOf p) ∧
          ∃ t, flush s = .ok t ∧ LowIo.written t.io = Sink.bytesOf p := by
  have hlength : Sink.totalLength padThenWrite = 3 * memChunk + 5 := by
    simp [padThenWrite, Sink.totalLength, Sink.bytesOf]
    omega
  refine ⟨hlength, ?_⟩
  refine (calls_appended_iff [] rfl _ _ _ padThenWrite (Nat.le_of_eq hlength)).mpr
    ⟨fun hdvd => ?_, fun _ _ => ⟨trivial, fun _ _ => trivial⟩⟩
  exact absurd hdvd (by decide)

/-- Two chunks of padding on an empty sink: one of them is lost. -/
theorem pad_two_chunks_loses_one :
    ¬ ∀ p, p <+: [Sink.Call.pad (2 * memChunk)] →
      ∃ s, run Sink.step (create ([] : Bytes) (zeros memChunk) (length_zeros _)
          (2 * memChunk)) p = .ok s ∧
        s.Appended (2 * memChunk) (Sink.bytesOf p) ∧
        ∃ t, flush s = .ok t ∧ LowIo.written t.io = Sink.bytesOf p := by
  intro h
  obtain ⟨s, hrun, hs, -⟩ := h _ List.prefix_rfl
  obtain ⟨s', hstep, hnil⟩ := exists_of_run_cons Sink.step hrun
  cases hnil
  have h₀ : (create ([] : Bytes) (zeros memChunk) (length_zeros _)
      (2 * memChunk)).Appended (2 * memChunk) [] := ⟨rfl, rfl, rfl⟩
  have hbytes : Sink.bytesOf [Sink.Call.pad (2 * memChunk)] = [] ++ zeros (2 * memChunk) := by
    simp [Sink.bytesOf, Sink.Call.bytes]
  rw [hbytes] at hs
  have hpart := (appends_pad_iff h₀ (by simp)).mp ⟨s, hstep, hs⟩
  have hdvd : memChunk ∣ 2 * memChunk - (memChunk - 0) := ⟨1, by omega⟩
  have hle : 2 * memChunk ≤ memChunk - 0 := hpart hdvd
  have := memChunk_pos
  omega

end SimpleSink

end Neptools

import Mathlib.Data.Nat.Find
import Neptools.Lib.Buffer
import Neptools.Lib.Except
import Neptools.Utils

/-!
Byte patterns with masks, and the search for the only place where one matches.
The search looks for the longest part of the pattern that has to be there as it
is, and compares the rest around each find. Addresses are offsets in the data,
and a read outside of the data is an error.
-/

namespace Neptools

open Lib

/-- The pattern is at `pos`, between `first` and `last`. -/
structure OccursAt (pattern corpus : Bytes) (first last pos : Int) : Prop where
  first_le : first ≤ pos
  le_last : pos + pattern.length ≤ last
  nonneg : 0 ≤ pos
  bytes : slice corpus pos.toNat pattern.length = pattern

/-- `boost::algorithm::boyer_moore`, where the searched bytes and the range are in
`corpus`. -/
class BoyerMoore where
  search (pattern corpus : Bytes) (first last : Int) : Int
  search_first (pattern corpus : Bytes) (first last pos : Int) :
    pattern ≠ [] → OccursAt pattern corpus first last pos →
      (∀ p, p < pos → ¬ OccursAt pattern corpus first last p) →
        search pattern corpus first last = pos
  search_last (pattern corpus : Bytes) (first last : Int) :
    pattern ≠ [] → (∀ p, ¬ OccursAt pattern corpus first last p) →
      search pattern corpus first last = last
  search_nil (corpus : Bytes) (first last : Int) : search [] corpus first last = first

/-- A search that looks at every place. -/
instance : BoyerMoore where
  search pattern corpus first last :=
    if pattern = [] then first
    else
      (((List.range corpus.length).find? fun pos : Nat =>
          first ≤ pos ∧ (pos : Int) + pattern.length ≤ last ∧
            slice corpus pos pattern.length = pattern).map Nat.cast).getD last
  search_first pattern corpus first last pos hpattern hpos hmin := by
    obtain ⟨hfirst, hlast, hnonneg, hbytes⟩ := hpos
    obtain ⟨k, rfl⟩ := Int.eq_ofNat_of_zero_le hnonneg
    rw [Int.toNat_natCast] at hbytes
    have hlt : k < corpus.length := by
      have hlength := congrArg List.length hbytes
      rw [length_slice] at hlength
      have := List.length_pos_iff.mpr hpattern
      omega
    rw [if_neg hpattern, List.find?_range_eq_some.mpr ⟨decide_eq_true ⟨hfirst, hlast, hbytes⟩,
      List.mem_range.mpr hlt, fun j hj => ?_⟩]
    · rfl
    · rw [Bool.not_eq_true']
      refine Bool.eq_false_iff.mpr fun h => hmin j (by omega) ?_
      obtain ⟨hfirst', hlast', hbytes'⟩ := of_decide_eq_true h
      exact ⟨hfirst', hlast', by omega, by rwa [Int.toNat_natCast]⟩
  search_last pattern corpus first last hpattern hnone := by
    rw [if_neg hpattern, List.find?_eq_none.mpr]
    · rfl
    · intro k _ h
      obtain ⟨hfirst, hlast, hbytes⟩ := of_decide_eq_true h
      exact hnone k ⟨hfirst, hlast, by omega, by rwa [Int.toNat_natCast]⟩
  search_nil _ first last := if_pos rfl

structure Pattern where
  pattern : Bytes
  mask : Bytes
  length_mask : mask.length = pattern.length

namespace Pattern

def size (p : Pattern) : Nat := p.pattern.length

/-- Where the longest run of full masks is that was seen, and where the current
one starts. -/
structure Run where
  maxLen : Nat
  maxI : Nat
  startI : Nat

def scanMask (i : Nat) (r : Run) : Bytes → Run
  | [] => r
  | m :: mask =>
      let r :=
        if m = 0xff then
          if i - r.startI + 1 > r.maxLen then
            { r with maxLen := i - r.startI + 1, maxI := r.startI }
          else r
        else { r with startI := i + 1 }
      scanMask (i + 1) r mask

def longestRun (p : Pattern) : Run := scanMask 0 { maxLen := 0, maxI := 0, startI := 0 } p.mask

def read (data : Bytes) (ptr : Int) : Except Error UInt8 :=
  if ptr < 0 then throw .undefinedBehaviour
  else match data[ptr.toNat]? with
    | some b => pure b
    | none => throw .undefinedBehaviour

def checkPattern (data : Bytes) (ptr : Int) : Bytes → Bytes → Except Error Bool
  | b :: pattern, m :: mask => do
      let x ← read data ptr
      if x &&& m ≠ b then pure false else checkPattern data (ptr + 1) pattern mask
  | _, _ => pure true

section

variable [BoyerMoore]

/-- The loop of `MaybeFind`, which may go on for ever. -/
def findLoop (p : Pattern) (data : Bytes) (maxI maxLen : Nat) (ptrEnd : Int) :
    (fuel : Nat) → (ptr : Int) → (res : Option Int) → Option (Except Error (Option Int))
  | 0, _, _ => none
  | fuel + 1, ptr, res =>
      if ptr < ptrEnd ∧ (ptr < 0 ∨ data.length < ptrEnd) then
        some (.error .undefinedBehaviour)
      else
        let found := BoyerMoore.search (slice p.pattern maxI maxLen) data ptr ptrEnd
        if found = ptrEnd then some (.ok res)
        else match checkPattern data (found - maxI) p.pattern p.mask with
          | .error e => some (.error e)
          | .ok false => findLoop p data maxI maxLen ptrEnd fuel (found + 1) res
          | .ok true =>
              match res with
              | some _ => some (.ok none)
              | none => findLoop p data maxI maxLen ptrEnd fuel (found + 1) (some (found - maxI))

/-- `none` when there was not enough fuel. -/
def maybeFind (p : Pattern) (data : Bytes) (fuel : Nat) : Option (Except Error (Option Int)) :=
  let r := p.longestRun
  let ptrEnd : Int := data.length - (p.size - r.maxLen - r.maxI : Nat)
  findLoop p data r.maxI r.maxLen ptrEnd fuel r.maxI none

end

/-! What is to be found. -/

def matchesAt (p : Pattern) (data : Bytes) (pos : Nat) : Bool :=
  List.zipWith (· &&& ·) (slice data pos p.size) p.mask = p.pattern

/-- All places where the pattern matches. -/
def places (p : Pattern) (data : Bytes) : List Nat :=
  (List.range (data.length + 1 - p.size)).filter (p.matchesAt data)

/-- What is found when `res` was found before, and `places` are left. -/
def conclude : (res : Option Int) → (places : List Nat) → Option Int
  | none, [pos] => some pos
  | none, _ => none
  | some pos, [] => some pos
  | some _, _ :: _ => none

def uniquePlace (p : Pattern) (data : Bytes) : Option Int := conclude none (p.places data)

/-! The longest run of full masks. -/

/-- What is known of a run after the masks `seen`. -/
structure Run.Seen (r : Run) (seen : Bytes) : Prop where
  start_le : r.startI ≤ seen.length
  current : ∀ m ∈ seen.drop r.startI, m = 0xff
  end_le : r.maxI + r.maxLen ≤ seen.length
  full : ∀ m ∈ slice seen r.maxI r.maxLen, m = 0xff
  none : r.maxLen = 0 → r.maxI = 0 ∧ 0xff ∉ seen
  some : 0 < r.maxLen → 0xff ∈ seen

theorem scanMask_seen {mask seen : Bytes} {i : Nat} {r : Run} (hi : i = seen.length)
    (h : r.Seen seen) : (scanMask i r mask).Seen (seen ++ mask) := by
  induction mask generalizing seen i r with
  | nil => rwa [List.append_nil]
  | cons m mask ih =>
      have hslice : slice (seen ++ [m]) r.maxI r.maxLen = slice seen r.maxI r.maxLen := by
        have := h.end_le
        rw [slice, List.drop_append_of_le_length (by omega), List.take_append_of_le_length]
        · rfl
        · rw [List.length_drop]
          omega
      have hdrop : (seen ++ [m]).drop r.startI = seen.drop r.startI ++ [m] :=
        List.drop_append_of_le_length h.start_le
      have hstart := h.start_le
      have hend := h.end_le
      have hlength : (seen ++ [m]).length = i + 1 := by simp [hi]
      have happ : seen ++ m :: mask = seen ++ [m] ++ mask := List.append_cons seen m mask
      rw [scanMask, happ]
      refine ih hlength.symm ?_
      by_cases hm : m = 0xff
      · subst hm
        rw [if_pos rfl]
        have hcurrent : ∀ m ∈ (seen ++ [0xff]).drop r.startI, m = 0xff := by
          rw [hdrop]
          intro m hm
          rcases List.mem_append.mp hm with hm | hm
          · exact h.current m hm
          · exact List.mem_singleton.mp hm
        have hin : (0xff : UInt8) ∈ seen ++ [0xff] := List.mem_append_right _ List.mem_cons_self
        split
        · refine ⟨by simp only []; omega, hcurrent, by simp only []; omega, ?_, fun hzero => ?_,
            fun _ => hin⟩
          · exact fun m hm => hcurrent m (List.mem_of_mem_take hm)
          · exact absurd hzero (Nat.succ_ne_zero _)
        · rename_i hgt
          refine ⟨by omega, hcurrent, by omega, hslice ▸ h.full, fun hzero => ?_, fun _ => hin⟩
          omega
      · rw [if_neg hm]
        refine ⟨by simp only []; omega, ?_, by simp only []; omega, hslice ▸ h.full, ?_, ?_⟩
        · rw [List.drop_of_length_le (by simp only []; omega)]
          exact List.forall_mem_nil _
        · intro hzero
          obtain ⟨hmax, hnot⟩ := h.none hzero
          refine ⟨hmax, fun hmem => ?_⟩
          rcases List.mem_append.mp hmem with hmem | hmem
          · exact hnot hmem
          · exact hm (List.mem_singleton.mp hmem).symm
        · exact fun hpos => List.mem_append_left _ (h.some hpos)

theorem longestRun_seen (p : Pattern) : p.longestRun.Seen p.mask := by
  have hstart : ({ maxLen := 0, maxI := 0, startI := 0 } : Run).Seen [] :=
    { start_le := Nat.le_refl _
      current := fun m hm => nomatch hm
      end_le := Nat.le_refl _
      full := fun m hm => nomatch hm
      none := fun _ => ⟨rfl, fun hmem => nomatch hmem⟩
      some := fun hpos => absurd hpos (Nat.lt_irrefl _) }
  exact scanMask_seen rfl hstart

/-! Single reads. -/

theorem read_of_lt {data : Bytes} {pos : Nat} {b : UInt8} (h : data[pos]? = some b) :
    read data pos = .ok b := by
  have hpos : ¬ ((pos : Int) < 0) := by omega
  rw [read, if_neg hpos, Int.toNat_natCast, h]
  rfl

theorem read_of_ge {data : Bytes} {pos : Nat} (h : data.length ≤ pos) :
    read data pos = .error .undefinedBehaviour := by
  have hpos : ¬ ((pos : Int) < 0) := by omega
  rw [read, if_neg hpos, Int.toNat_natCast, List.getElem?_eq_none h]
  rfl

theorem checkPattern_eq {data : Bytes} {pattern mask : Bytes} (hmask : mask.length = pattern.length)
    {pos : Nat} (h : pos + pattern.length ≤ data.length) :
    checkPattern data pos pattern mask =
      .ok (decide (List.zipWith (· &&& ·) (slice data pos pattern.length) mask = pattern)) := by
  induction pattern generalizing mask pos with
  | nil =>
      rw [List.length_eq_zero_iff.mp hmask]
      rfl
  | cons b pattern ih =>
      cases mask with
      | nil => cases hmask
      | cons m mask =>
          rw [List.length_cons] at h
          have hlt : pos < data.length := by omega
          have hdrop : slice data pos (pattern.length + 1) =
              data[pos] :: slice data (pos + 1) pattern.length := by
            rw [slice, List.drop_eq_getElem_cons hlt, List.take_succ_cons]
            rfl
          have hnext : (pos : Int) + 1 = (pos + 1 : Nat) := rfl
          rw [checkPattern, read_of_lt (List.getElem?_eq_getElem hlt), ok_bind, hnext,
            ih (Nat.succ.inj hmask) (by omega), List.length_cons, hdrop, List.zipWith_cons_cons]
          by_cases hb : data[pos] &&& m = b
          · rw [if_neg (not_not_intro hb)]
            simp [hb]
          · rw [if_pos hb]
            simp [hb]

/-- A pattern that goes past the end is not found, or is read past the end. -/
theorem checkPattern_short {data : Bytes} {pattern mask : Bytes}
    (hmask : mask.length = pattern.length) {pos : Nat} (hle : pos ≤ data.length)
    (h : data.length < pos + pattern.length) :
    checkPattern data pos pattern mask = .error .undefinedBehaviour ∨
      pos < data.length ∧ checkPattern data pos pattern mask = .ok false := by
  induction pattern generalizing mask pos with
  | nil =>
      rw [List.length_nil] at h
      omega
  | cons b pattern ih =>
      cases mask with
      | nil => cases hmask
      | cons m mask =>
          rw [List.length_cons] at h
          rcases Nat.lt_or_eq_of_le hle with hlt | rfl
          · have hnext : (pos : Int) + 1 = (pos + 1 : Nat) := rfl
            rw [checkPattern, read_of_lt (List.getElem?_eq_getElem hlt), ok_bind, hnext]
            by_cases hb : data[pos] &&& m = b
            · rw [if_neg (not_not_intro hb)]
              rcases ih (Nat.succ.inj hmask) hlt (by omega) with herror | ⟨-, hfalse⟩
              · exact .inl herror
              · exact .inr ⟨hlt, hfalse⟩
            · rw [if_pos hb]
              exact .inr ⟨hlt, rfl⟩
          · refine .inl ?_
            rw [checkPattern, read_of_ge (Nat.le_refl _)]
            rfl

theorem checkPattern_place (p : Pattern) (data : Bytes) {pos : Nat}
    (h : pos + p.size ≤ data.length) :
    checkPattern data pos p.pattern p.mask = .ok (p.matchesAt data pos) :=
  checkPattern_eq p.length_mask h

theorem zipWith_full (bytes : Bytes) :
    List.zipWith (· &&& ·) bytes (List.replicate bytes.length 0xff) = bytes := by
  induction bytes with
  | nil => rfl
  | cons b bytes ih =>
      have hb : b &&& 0xff = b := by
        rw [← UInt8.toNat_inj, UInt8.toNat_and]
        exact (Nat.and_two_pow_sub_one_eq_mod b.toNat 8).trans (Nat.mod_eq_of_lt b.toNat_lt)
      rw [List.length_cons, List.replicate_succ, List.zipWith_cons_cons, ih, hb]

/-- Where the pattern matches, a run of full masks is as it is in the pattern. -/
theorem slice_of_matches {p : Pattern} {data : Bytes} {pos i len : Nat}
    (h : pos + p.size ≤ data.length) (hrun : i + len ≤ p.size)
    (hfull : ∀ m ∈ slice p.mask i len, m = 0xff) (hmatch : p.matchesAt data pos = true) :
    slice data (pos + i) len = slice p.pattern i len := by
  have heq : List.zipWith (· &&& ·) (slice data pos p.size) p.mask = p.pattern :=
    of_decide_eq_true hmatch
  have hmask : slice p.mask i len = List.replicate len 0xff := by
    refine List.eq_replicate_iff.mpr ⟨length_slice_of_le ?_, hfull⟩
    rw [p.length_mask]
    exact hrun
  have hlength : (slice data (pos + i) len).length = len := length_slice_of_le (by omega)
  calc slice data (pos + i) len
      = List.zipWith (· &&& ·) (slice data (pos + i) len) (List.replicate len 0xff) := by
        have hself := zipWith_full (slice data (pos + i) len)
        rw [hlength] at hself
        exact hself.symm
    _ = List.zipWith (· &&& ·) (slice (slice data pos p.size) i len) (slice p.mask i len) := by
        rw [slice_slice data hrun, hmask]
    _ = slice (List.zipWith (· &&& ·) (slice data pos p.size) p.mask) i len := by
        simp only [slice, List.drop_zipWith, List.take_zipWith]
    _ = slice p.pattern i len := by rw [heq]

/-! The loop over the finds. -/

section

variable [BoyerMoore] {p : Pattern} {data : Bytes} {maxI maxLen : Nat} {ptrEnd : Int}

theorem findLoop_mono {fuel : Nat} {ptr : Int} {res : Option Int}
    {x : Except Error (Option Int)} (h : p.findLoop data maxI maxLen ptrEnd fuel ptr res = some x) :
    p.findLoop data maxI maxLen ptrEnd (fuel + 1) ptr res = some x := by
  induction fuel generalizing ptr res with
  | zero => cases h
  | succ fuel ih =>
      rw [findLoop] at h ⊢
      split at h
      · rename_i hout
        rwa [if_pos hout]
      · rename_i hin
        rw [if_neg hin]
        simp only [] at h ⊢
        split at h
        · rename_i hend
          rwa [if_pos hend]
        · rename_i hend
          rw [if_neg hend]
          split at h
          · exact h
          · exact ih h
          · cases res with
            | none => exact ih h
            | some pos => exact h

theorem findLoop_add {fuel k : Nat} {ptr : Int} {res : Option Int}
    {x : Except Error (Option Int)} (h : p.findLoop data maxI maxLen ptrEnd fuel ptr res = some x) :
    p.findLoop data maxI maxLen ptrEnd (fuel + k) ptr res = some x := by
  induction k with
  | zero => exact h
  | succ k ih => exact findLoop_mono ih

/-- What the search ends with does not depend on the fuel. -/
theorem findLoop_unique {fuel fuel' : Nat} {ptr : Int} {res : Option Int}
    {x x' : Except Error (Option Int)}
    (h : p.findLoop data maxI maxLen ptrEnd fuel ptr res = some x)
    (h' : p.findLoop data maxI maxLen ptrEnd fuel' ptr res = some x') : x = x' := by
  have hsum := findLoop_add (k := fuel') h
  rw [Nat.add_comm, findLoop_add h'] at hsum
  exact (Option.some.inj hsum).symm

omit [BoyerMoore] in
/-- Places where the pattern does not match are passed over. -/
theorem filter_skip {P : Nat → Bool} {q j n : Nat} (hq : q ≤ j) (hj : j ≤ n)
    (hskip : ∀ k, q ≤ k → k < j → P k = false) :
    (List.range' q (n - q)).filter P = (List.range' j (n - j)).filter P := by
  have hsplit : List.range' q (n - q) = List.range' q (j - q) ++ List.range' j (n - j) := by
    have happend := List.range'_append_1 (s := q) (m := j - q) (n := n - j)
    rw [show q + (j - q) = j by omega, show j - q + (n - j) = n - q by omega] at happend
    exact happend.symm
  rw [hsplit, List.filter_append, List.filter_eq_nil_iff.mpr, List.nil_append]
  intro k hk
  rw [List.mem_range'_1] at hk
  rw [hskip k hk.1 (by omega)]
  exact Bool.false_ne_true

/-- The loop, when every search ends at the next place that is worth a look. -/
theorem exists_findLoop {n : Nat} {P : Nat → Bool} (hend : ptrEnd ≤ data.length)
    (hcheck : ∀ j < n, checkPattern data j p.pattern p.mask = .ok (P j))
    (hnext : ∀ q ≤ n,
      (BoyerMoore.search (slice p.pattern maxI maxLen) data (maxI + q : Nat) ptrEnd = ptrEnd ∧
          ∀ k, q ≤ k → k < n → P k = false) ∨
        ∃ j, q ≤ j ∧ j < n ∧ (∀ k, q ≤ k → k < j → P k = false) ∧
          BoyerMoore.search (slice p.pattern maxI maxLen) data (maxI + q : Nat) ptrEnd =
              (maxI + j : Nat) ∧
            ((maxI + j : Nat) : Int) ≠ ptrEnd)
    {q : Nat} (hq : q ≤ n) (res : Option Int) :
    ∃ fuel, p.findLoop data maxI maxLen ptrEnd fuel (maxI + q : Nat) res =
      some (.ok (conclude res ((List.range' q (n - q)).filter P))) := by
  induction hm : n - q using Nat.strongRecOn generalizing q res with
  | ind m ih =>
      have hin : ¬ (((maxI + q : Nat) : Int) < ptrEnd ∧
          (((maxI + q : Nat) : Int) < 0 ∨ data.length < ptrEnd)) := by omega
      rcases hnext q hq with ⟨hlast, hnone⟩ | ⟨j, hqj, hjn, hskip, hfound, hne⟩
      · refine ⟨1, ?_⟩
        have hfilter := filter_skip (P := P) hq (Nat.le_refl n) hnone
        rw [Nat.sub_self, List.range'_zero, List.filter_nil] at hfilter
        rw [findLoop, if_neg hin]
        simp only [hlast, if_true]
        rw [← hm, hfilter]
        cases res <;> rfl
      · have hfilter := filter_skip (P := P) hqj (Nat.le_of_lt hjn) hskip
        have hcons : List.range' j (n - j) = j :: List.range' (j + 1) (n - (j + 1)) := by
          rw [show n - j = n - (j + 1) + 1 by omega, List.range'_succ]
        have hptr : ((maxI + j : Nat) : Int) + 1 = (maxI + (j + 1) : Nat) := by omega
        have hplace : ((maxI + j : Nat) : Int) - maxI = (j : Nat) := by omega
        have hstep : ∀ fuel, p.findLoop data maxI maxLen ptrEnd (fuel + 1) (maxI + q : Nat) res =
            match P j, res with
            | false, res => p.findLoop data maxI maxLen ptrEnd fuel (maxI + (j + 1) : Nat) res
            | true, none => p.findLoop data maxI maxLen ptrEnd fuel (maxI + (j + 1) : Nat) (some j)
            | true, some _ => some (.ok none) := by
          intro fuel
          rw [findLoop, if_neg hin]
          simp only [hfound, if_neg hne, hptr, hplace, hcheck j hjn]
          cases P j <;> cases res <;> rfl
        have hlt : n - (j + 1) < m := by omega
        rw [← hm, hfilter, hcons]
        cases hj : P j with
        | false =>
            obtain ⟨fuel, hfuel⟩ := ih _ hlt (q := j + 1) hjn res rfl
            rw [List.filter_cons_of_neg (by rw [hj]; exact Bool.false_ne_true)]
            refine ⟨fuel + 1, (hstep fuel).trans ?_⟩
            simpa only [hj] using hfuel
        | true =>
            rw [List.filter_cons_of_pos hj]
            cases res with
            | none =>
                obtain ⟨fuel, hfuel⟩ := ih _ hlt (q := j + 1) hjn (some j) rfl
                refine ⟨fuel + 1, (hstep fuel).trans ?_⟩
                simp only [hj, hfuel]
                cases (List.range' (j + 1) (n - (j + 1))).filter P <;> rfl
            | some pos =>
                refine ⟨1, (hstep 0).trans ?_⟩
                simp only [hj]
                rfl

end

section

variable [BoyerMoore] {p : Pattern} {data : Bytes}

omit [BoyerMoore] in
theorem ptrEnd_le (n : Nat) : (data.length : Int) - n ≤ data.length := by omega

/-- Each search for a run of full masks ends at the next place where the pattern
can match, or at the end when there is none. -/
theorem search_next (hpos : 0 < p.longestRun.maxLen) {q : Nat}
    (hq : q ≤ data.length + 1 - p.size) :
    (BoyerMoore.search (slice p.pattern p.longestRun.maxI p.longestRun.maxLen) data
          (p.longestRun.maxI + q : Nat)
          (data.length - (p.size - p.longestRun.maxLen - p.longestRun.maxI : Nat)) =
        data.length - (p.size - p.longestRun.maxLen - p.longestRun.maxI : Nat) ∧
      ∀ k, q ≤ k → k < data.length + 1 - p.size → p.matchesAt data k = false) ∨
    ∃ j, q ≤ j ∧ j < data.length + 1 - p.size ∧
      (∀ k, q ≤ k → k < j → p.matchesAt data k = false) ∧
      BoyerMoore.search (slice p.pattern p.longestRun.maxI p.longestRun.maxLen) data
          (p.longestRun.maxI + q : Nat)
          (data.length - (p.size - p.longestRun.maxLen - p.longestRun.maxI : Nat)) =
        (p.longestRun.maxI + j : Nat) ∧
      ((p.longestRun.maxI + j : Nat) : Int) ≠
        data.length - (p.size - p.longestRun.maxLen - p.longestRun.maxI : Nat) := by
  have hrun := p.longestRun_seen
  generalize p.longestRun = r at *
  have hend := hrun.end_le
  rw [p.length_mask] at hend
  change r.maxI + r.maxLen ≤ p.size at hend
  generalize hbytes : slice p.pattern r.maxI r.maxLen = run
  have hlength : run.length = r.maxLen := by
    rw [← hbytes]
    exact length_slice_of_le hend
  have hnonempty : run ≠ [] := fun hnil => by
    rw [hnil, List.length_nil] at hlength
    omega
  -- Where the run is, the pattern can match.
  have hoccurs : ∀ pos : Int, OccursAt run data (r.maxI + q : Nat)
      (data.length - (p.size - r.maxLen - r.maxI : Nat)) pos ↔
        ∃ j, (q ≤ j ∧ j < data.length + 1 - p.size ∧ slice data (r.maxI + j) r.maxLen = run) ∧
          pos = (r.maxI + j : Nat) := by
    intro pos
    constructor
    · intro h
      have hfirst := h.first_le
      have hlast := h.le_last
      rw [hlength] at hlast
      refine ⟨pos.toNat - r.maxI, ⟨by omega, by omega, ?_⟩, by omega⟩
      rw [show r.maxI + (pos.toNat - r.maxI) = pos.toNat by omega, ← hlength]
      exact h.bytes
    · rintro ⟨j, ⟨hqj, hjn, hslice⟩, rfl⟩
      refine ⟨by omega, by omega, by omega, ?_⟩
      rw [Int.toNat_natCast, hlength, hslice]
  have hmiss : ∀ k, k < data.length + 1 - p.size → slice data (r.maxI + k) r.maxLen ≠ run →
      p.matchesAt data k = false := by
    intro k hk hne
    refine Bool.eq_false_iff.mpr fun hmatch => hne ?_
    rw [← hbytes, Nat.add_comm]
    exact slice_of_matches (by omega) hend hrun.full hmatch
  by_cases hexists : ∃ j, q ≤ j ∧ j < data.length + 1 - p.size ∧
      slice data (r.maxI + j) r.maxLen = run
  · obtain ⟨hqj, hjn, hslice⟩ := Nat.find_spec hexists
    have hmin : ∀ k, k < Nat.find hexists → ¬ (q ≤ k ∧ k < data.length + 1 - p.size ∧
        slice data (r.maxI + k) r.maxLen = run) := fun k hk => Nat.find_min hexists hk
    generalize Nat.find hexists = j at *
    refine .inr ⟨j, hqj, hjn, fun k hqk hkj => ?_, ?_, by omega⟩
    · exact hmiss k (by omega) fun heq => hmin k hkj ⟨hqk, by omega, heq⟩
    · refine BoyerMoore.search_first _ _ _ _ _ hnonempty ((hoccurs _).mpr
        ⟨j, ⟨hqj, hjn, hslice⟩, rfl⟩) fun pos hlt hocc => ?_
      obtain ⟨k, hk, rfl⟩ := (hoccurs pos).mp hocc
      exact hmin k (by omega) hk
  · refine .inl ⟨BoyerMoore.search_last _ _ _ _ hnonempty fun pos hocc => ?_, fun k hqk hkn => ?_⟩
    · obtain ⟨k, hk, -⟩ := (hoccurs pos).mp hocc
      exact hexists ⟨k, hk⟩
    · exact hmiss k hkn fun heq => hexists ⟨k, hqk, hkn, heq⟩

/-- With a full mask byte the search finds the only place, if there is one. -/
theorem maybeFind_full (hpos : 0 < p.longestRun.maxLen) :
    ∃ fuel, p.maybeFind data fuel = some (.ok (p.uniquePlace data)) := by
  obtain ⟨fuel, hfuel⟩ := exists_findLoop (ptrEnd_le _)
    (fun j hj => checkPattern_place p data (by omega))
    (fun q hq => search_next hpos hq) (Nat.zero_le _) none
  refine ⟨fuel, ?_⟩
  rw [maybeFind, uniquePlace, places, List.range_eq_range']
  exact hfuel

/-- Without a full mask byte the empty run is found at once wherever the search
starts, but not where it ends, and that is the last place. -/
theorem maybeFind_none (hnone : p.longestRun.maxLen = 0) (hsize : p.size ≤ data.length) :
    ∃ fuel, p.maybeFind data fuel =
      some (.ok (conclude none ((List.range (data.length - p.size)).filter (p.matchesAt data)))) := by
  have hmaxI := (p.longestRun_seen.none hnone).1
  have hend : (data.length : Int) - (p.size - p.longestRun.maxLen - p.longestRun.maxI : Nat) =
      (data.length - p.size : Nat) := by omega
  have hnil : slice p.pattern p.longestRun.maxI p.longestRun.maxLen = [] := by
    rw [hnone]
    exact List.take_zero
  obtain ⟨fuel, hfuel⟩ := exists_findLoop (n := data.length - p.size) (ptrEnd_le _)
    (fun j hj => checkPattern_place p data (by omega))
    (fun q hq => by
      rw [hnil, BoyerMoore.search_nil, hend]
      rcases Nat.lt_or_eq_of_le hq with hlt | rfl
      · exact .inr ⟨q, Nat.le_refl q, hlt, fun k hqk hkq => by omega, rfl, by omega⟩
      · exact .inl ⟨by omega, fun k hqk hkn => by omega⟩)
    (Nat.zero_le _) none
  refine ⟨fuel, ?_⟩
  rw [maybeFind, List.range_eq_range']
  exact hfuel

/-- When there is no full mask byte, and the data is too short, the search leaves
the data. -/
theorem maybeFind_short (hnone : p.longestRun.maxLen = 0) (hsize : data.length < p.size)
    (fuel : Nat) (res : Option Int) : p.maybeFind data fuel ≠ some (.ok res) := by
  have hmaxI := (p.longestRun_seen.none hnone).1
  have hend : (data.length : Int) - (p.size - p.longestRun.maxLen - p.longestRun.maxI : Nat) =
      data.length - p.size := by omega
  have hnil : slice p.pattern p.longestRun.maxI p.longestRun.maxLen = [] := by
    rw [hnone]
    exact List.take_zero
  rw [maybeFind]
  simp only [hend]
  have hloop : ∀ q : Nat, q ≤ data.length →
      p.findLoop data p.longestRun.maxI p.longestRun.maxLen (data.length - p.size) fuel q none ≠
        some (.ok res) := by
    induction fuel with
    | zero => exact fun q _ h => nomatch h
    | succ fuel ih =>
        intro q hq
        have hin : ¬ ((q : Int) < data.length - p.size ∧
            ((q : Int) < 0 ∨ (data.length : Int) < data.length - p.size)) := by omega
        have hne : ¬ (q : Int) = data.length - p.size := by omega
        have hplace : (q : Int) - p.longestRun.maxI = q := by omega
        have hnext : (q : Int) + 1 = (q + 1 : Nat) := rfl
        rw [findLoop, if_neg hin]
        simp only [hnil, BoyerMoore.search_nil, if_neg hne, hplace]
        have hshort : data.length < q + p.pattern.length := Nat.lt_add_left q hsize
        rcases checkPattern_short p.length_mask hq hshort with herror | ⟨hlt, hfalse⟩
        · rw [herror]
          exact fun h => nomatch h
        · rw [hfalse]
          exact ih (q + 1) hlt
  rw [hmaxI]
  exact hmaxI ▸ hloop 0 (Nat.zero_le _)

/-- Exactly when the search ends, inside the data, with the only place where the
pattern matches, or with nothing when there are none or several. -/
theorem maybeFind_iff (p : Pattern) (data : Bytes) :
    (∃ fuel, p.maybeFind data fuel = some (.ok (p.uniquePlace data))) ↔
      0xff ∈ p.mask ∨ p.size ≤ data.length ∧
        (p.matchesAt data (data.length - p.size) = true → 2 < (p.places data).length) := by
  rcases Nat.eq_zero_or_pos p.longestRun.maxLen with hzero | hpos
  · obtain ⟨-, hnot⟩ := p.longestRun_seen.none hzero
    rw [or_iff_right hnot]
    rcases Nat.lt_or_ge data.length p.size with hshort | hsize
    · refine ⟨fun ⟨fuel, h⟩ => absurd h (maybeFind_short hzero hshort fuel _), fun h => ?_⟩
      omega
    · obtain ⟨fuel, hfuel⟩ := maybeFind_none hzero hsize
      have hplaces : p.places data =
          (List.range (data.length - p.size)).filter (p.matchesAt data) ++
            [data.length - p.size].filter (p.matchesAt data) := by
        rw [places, show data.length + 1 - p.size = data.length - p.size + 1 by omega,
          List.range_succ, List.filter_append]
      have hfound : (∃ fuel, p.maybeFind data fuel = some (.ok (p.uniquePlace data))) ↔
          conclude none ((List.range (data.length - p.size)).filter (p.matchesAt data)) =
            p.uniquePlace data := by
        constructor
        · rintro ⟨fuel', h⟩
          exact Except.ok.inj (findLoop_unique hfuel h)
        · exact fun h => ⟨fuel, h ▸ hfuel⟩
      rw [hfound, and_iff_right hsize, uniquePlace, hplaces]
      generalize (List.range (data.length - p.size)).filter (p.matchesAt data) = before
      cases hlast : p.matchesAt data (data.length - p.size) with
      | false =>
          rw [List.filter_cons_of_neg (by rw [hlast]; exact Bool.false_ne_true), List.filter_nil,
            List.append_nil]
          exact ⟨(fun _ h => nomatch h), fun _ => rfl⟩
      | true =>
          rw [List.filter_cons_of_pos hlast, List.filter_nil]
          match before with
          | [] => exact ⟨(fun h => nomatch h), fun h => absurd (h rfl) (by decide : ¬ 2 < 1)⟩
          | [pos] => exact ⟨(fun h => nomatch h), fun h => absurd (h rfl) (by decide : ¬ 2 < 2)⟩
          | pos :: pos' :: before =>
              refine ⟨fun _ _ => ?_, fun _ => rfl⟩
              simp only [List.length_append, List.length_cons, List.length_nil]
              omega
  · exact ⟨fun _ => .inl (p.longestRun_seen.some hpos), fun _ => maybeFind_full hpos⟩

end

/-- One byte, of which one bit is left open. -/
def oneByte : Pattern := { pattern := [0x41], mask := [0x7f], length_mask := rfl }

theorem oneByte_not_found :
    oneByte.uniquePlace [0x41] = some 0 ∧ oneByte.maybeFind [0x41] 1 = some (.ok none) ∧
      ¬ ∃ fuel, oneByte.maybeFind [0x41] fuel = some (.ok (oneByte.uniquePlace [0x41])) := by
  have hplace : oneByte.uniquePlace [0x41] = some 0 := by decide
  have hfind : oneByte.maybeFind [0x41] 1 = some (.ok none) := by decide
  refine ⟨hplace, hfind, fun ⟨fuel, h⟩ => ?_⟩
  rw [hplace] at h
  exact nomatch (findLoop_unique hfind h)

end Pattern

end Neptools

import Neptools.Format.Relabel

/-!
Reads and splits that stay in bounds. The guards of the parsers compare with the
size of the whole file, while what follows them reads from the window on a raw
item.
-/

namespace Neptools

open Lib

/-- A read behind the end of its window, or a split behind the end of its item. -/
def Error.Outside : Error → Prop
  | .sourceOverflow _ => True
  | .assertionFailed cond =>
      cond = "pos <= GetSize() && pos+len <= GetSize()" ∨ cond = "spos+slen <= GetSize()"
  | _ => False

instance : DecidablePred Error.Outside
  | .sourceOverflow _ => .isTrue trivial
  | .assertionFailed _ => inferInstanceAs (Decidable (_ ∨ _))
  | .decodeError _ | .sinkOverflow _ | .systemError | .runtimeError _ | .outOfRange _
  | .badCast | .undefinedBehaviour => .isFalse not_false

/-- The computation does not end with such a read or split. -/
def Contained {α : Type} (x : Except Error α) : Prop := ¬ Overran (fun e => ¬ e.Outside) x

instance {α : Type} : DecidablePred (Contained : Except Error α → Prop)
  | .ok a => .isTrue (not_overran_ok a)
  | .error e => decidable_of_iff (¬ e.Outside) (by rw [Contained, overran_error, not_not])

namespace Contained

variable {α β : Type}

theorem ok (a : α) : Contained (.ok a : Except Error α) := not_overran_ok a

theorem error {e : Error} (h : ¬ e.Outside) : Contained (.error e : Except Error α) :=
  fun hover => overran_error.mp hover h

theorem bind {x : Except Error α} {f : α → Except Error β} (hx : Contained x)
    (hf : ∀ a, x = .ok a → Contained (f a)) : Contained (x >>= f) := not_overran_bind hx hf

theorem require {p : Prop} [Decidable p] {e : Error} (h : ¬ e.Outside) :
    Contained (Lib.require p e) := by
  rw [Lib.require]
  split
  · exact ok ()
  · exact error h

theorem validateField (what cond : String) (p : Prop) [Decidable p] :
    Contained (Neptools.validateField what cond p) := require id

end Contained

namespace Source

/-- `n` bytes are in the window, or not even in the file. -/
def Spans (s : Source) (n : Nat) : Prop := n ≤ s.size ∨ s.getOrigSize < n

/-- A value of the window, in the byte order of the machine. -/
def valueAt (α : Type) [Pod α] (w : Source) (pos : Nat) : α :=
  Pod.ofBytes (Lib.slice w.bytes pos (Pod.size α))

theorem valueAt_of_standsAt {α : Type} [Pod α] {w : Source} {a : α} {pos : Nat}
    (h : StandsAt (toBytes a) pos w.bytes) : w.valueAt α pos = a := by
  have hslice := h.slice_eq
  rw [Pod.length_toBytes] at hslice
  rw [valueAt, hslice, Pod.ofBytes_toBytes]

instance (s : Source) (n : Nat) : Decidable (s.Spans n) := inferInstanceAs (Decidable (_ ∨ _))

theorem contained_checkSize (s : Source) (n : Nat) : Contained (s.checkSize n) :=
  Contained.require id

theorem checkSize_eq_ok {s : Source} {n : Nat} {u : Unit} :
    s.checkSize n = .ok u ↔ n ≤ s.getOrigSize := require_eq_ok

theorem Spans.le {s : Source} {n : Nat} (h : s.Spans n) {u : Unit} (hcheck : s.checkSize n = .ok u) :
    n ≤ s.size := h.resolve_right (Nat.not_lt.mpr (checkSize_eq_ok.mp hcheck))

/-- A guard is right about the window exactly where it is asked for a number
of bytes that is in the window or not even in the file. -/
theorem checkSize_guards_iff (s : Source) (n : Nat) :
    (s.checkSize n = .ok () → n ≤ s.size) ↔ s.Spans n := by
  rw [checkSize_eq_ok, Spans, imp_iff_not_or, Nat.not_le, or_comm]

theorem checkRemainingSize_guards_iff (s : Source) (n : Nat) :
    (s.checkRemainingSize n = .ok () → s.get + n ≤ s.size) ↔
      s.get + n ≤ s.size ∨ s.getOrigSize < (s.get + n) % 2 ^ 64 := by
  rw [checkRemainingSize, checkSize_eq_ok, imp_iff_not_or, Nat.not_le, or_comm]

end Source

namespace Context

theorem contained_get (ctx : Context) (id : Nat) : Contained (ctx.get id) := by
  rw [get]
  split
  · exact Contained.ok _
  · exact Contained.error not_false

theorem contained_getPointer (ctx : Context) (pos : Nat) : Contained (ctx.getPointer pos) := by
  rw [getPointer]
  split
  · exact Contained.error (by simp [Error.Outside])
  · split
    · exact Contained.error not_false
    · refine (contained_get _ _).bind fun _ _ => ?_
      exact (Contained.require (by simp [Error.Outside])).bind fun _ _ => Contained.ok _

theorem contained_getLabelToPtr (ctx : Context) (ptr : ItemPointer) :
    Contained (ctx.getLabelToPtr ptr) := by
  rw [getLabelToPtr]
  refine (contained_get _ _).bind fun _ _ => ?_
  dsimp only
  split
  · exact Contained.ok _
  · exact Contained.ok _

theorem contained_getLabelTo (ctx : Context) (pos : Nat) : Contained (ctx.getLabelTo pos) :=
  (contained_getPointer _ _).bind fun _ _ => contained_getLabelToPtr _ _

theorem contained_getLabelToNamed (ctx : Context) (pos : Nat) (name : LabelPtr) :
    Contained (ctx.getLabelToNamed pos name) := by
  rw [getLabelToNamed]
  refine (contained_getPointer _ _).bind fun _ _ => (contained_get _ _).bind fun _ _ => ?_
  dsimp only
  split
  · exact Contained.ok _
  · exact Contained.ok _

theorem contained_getRaw (ctx : Context) (id : Nat) : Contained (ctx.getRaw id) := by
  rw [getRaw]
  refine (contained_get _ _).bind fun _ _ => ?_
  dsimp only
  split
  · exact Contained.ok _
  · exact Contained.error not_false

theorem contained_replace (ctx : Context) (id : Nat) (n : Item) (nchildren : ItemList) :
    Contained (ctx.replace id n nchildren) := by
  rw [replace]
  refine (contained_get _ _).bind fun _ _ => ?_
  refine (Contained.require (by simp [Error.Outside])).bind fun _ _ => ?_
  refine (Contained.require (by simp [Error.Outside])).bind fun _ _ => ?_
  exact (Contained.require (by simp [Error.Outside])).bind fun _ _ => Contained.ok _

theorem contained_slicePieces (emptyMap : Bool) (basePos offset : Nat) (seq : List Piece)
    (labels : LabelsMap) (pmap : PointerMap) (rest : List LabelPtr) :
    Contained (slicePieces emptyMap basePos offset seq labels pmap rest) := by
  induction seq generalizing offset labels pmap rest with
  | nil => exact Contained.ok _
  | cons el seq ih =>
      rw [slicePieces]
      refine (Contained.require (by simp [Error.Outside])).bind fun _ _ => ?_
      exact (ih _ _ _ _).bind fun _ _ => Contained.ok _

theorem contained_slice (ctx : Context) (id : Nat) (seq : List Piece) :
    Contained (ctx.slice id seq) := by
  rw [slice]
  refine (Contained.require (by simp [Error.Outside])).bind fun _ _ => ?_
  refine (contained_get _ _).bind fun _ _ => ?_
  refine (contained_slicePieces _ _ _ _ _ _ _).bind fun _ _ => ?_
  exact (Contained.require (by simp [Error.Outside])).bind fun _ _ => Contained.ok _

end Context

theorem Source.contained_slice {s : Source} {offset size : Nat} (h : offset + size ≤ s.size) :
    Contained (s.slice offset size) := by
  obtain ⟨s', hs', -⟩ := Source.slice_of_le h
  rw [hs']
  exact Contained.ok _

theorem Source.contained_sub {s : Source} {offset size : Nat} (h : offset + size ≤ s.size) :
    Contained (s.sub offset size) := by
  obtain ⟨s', hs', -⟩ := Source.sub_of_le h
  rw [hs']
  exact Contained.ok _

namespace Context

theorem contained_internalSlice (ctx : Context) (it : Item) {src : Source} {spos slen : Nat}
    (h : spos + slen ≤ src.size) : Contained (ctx.internalSlice it src spos slen) := by
  rw [internalSlice, require_of h, ok_bind]
  exact (Source.contained_sub h).bind fun _ _ => Contained.ok _

theorem bodyOf_of_getRaw {ctx : Context} {id : Nat} {it : Item} {children : ItemList} {src : Source}
    (h : ctx.getRaw id = .ok (it, children, src)) : ctx.bodyOf id = some (.raw src) := by
  obtain ⟨⟨it', children'⟩, hget, h⟩ := bind_eq_ok.mp h
  simp only [] at h
  split at h
  · rename_i hbody
    cases h
    rw [bodyOf, plain?, get_eq_ok hget, Option.map_some, Option.map_some, ← hbody]
    rfl
  · cases h

theorem Consistent.bodyOf_of_mem {ctx : Context} (h : ctx.Consistent) {it : Item}
    {children : ItemList} (hmem : (it, children) ∈ ctx.children.subtrees) :
    ctx.bodyOf it.id = some it.body := by
  rw [bodyOf, plain?, h.find?_of_mem hmem]
  rfl

/-- What is split off fits, so the split stays in its item. -/
theorem contained_split2 {ctx : Context} {id pos : Nat} {n : Item} {nchildren : ItemList}
    (h : ∀ src, ctx.bodyOf id = some (.raw src) → pos + n.getSize nchildren ≤ src.size) :
    Contained (ctx.split2 id pos n nchildren) := by
  rw [split2]
  refine (contained_getRaw _ _).bind fun x hraw => ?_
  obtain ⟨it, children, src⟩ := x
  have hle := h src (bodyOf_of_getRaw hraw)
  have hin : pos ≤ src.size ∧ pos + n.getSize nchildren ≤ src.size := ⟨by omega, hle⟩
  dsimp only
  rw [require_of hin, ok_bind]
  split
  · exact contained_replace _ _ _ _
  · split
    · rw [pure_eq_ok, ok_bind]
      refine (contained_slice _ _ _).bind fun _ _ => ?_
      split
      · exact (Source.contained_slice (by omega)).bind fun _ _ => Contained.ok _
      · exact (Source.contained_slice (by omega)).bind fun _ _ => Contained.ok _
    · split
      · rw [pure_eq_ok, ok_bind]
        refine (contained_slice _ _ _).bind fun _ _ => ?_
        exact (Source.contained_slice (by omega)).bind fun _ _ => Contained.ok _
      · refine (contained_internalSlice _ _ (by omega)).bind fun _ _ => ?_
        rw [pure_eq_ok, ok_bind]
        refine (contained_slice _ _ _).bind fun _ _ => ?_
        exact (Source.contained_slice (by omega)).bind fun _ _ => Contained.ok _

theorem contained_splitRaw {ctx : Context} {id offset size : Nat}
    (h : ∀ src, ctx.bodyOf id = some (.raw src) → offset + size ≤ src.size) :
    Contained (ctx.splitRaw id offset size) := by
  refine (contained_getRaw _ _).bind fun ⟨it, children, src⟩ hraw => ?_
  have hbody := bodyOf_of_getRaw hraw
  have hle := h src hbody
  refine (contained_internalSlice _ _ hle).bind fun ⟨nitem, ctx'⟩ hslice => ?_
  obtain ⟨_, -, hslice⟩ := bind_eq_ok.mp hslice
  obtain ⟨sub, hsub, hslice⟩ := bind_eq_ok.mp hslice
  cases hslice
  refine Contained.bind (contained_split2 fun src' hsrc' => ?_) fun _ _ => Contained.ok _
  have hsrc' : ctx.bodyOf id = some (.raw src') := hsrc'
  rw [hbody] at hsrc'
  cases hsrc'
  change offset + (sub.size + 0) ≤ src.size
  rwa [Source.size_of_sub hsub]

/-- There are enough bytes in the raw item that follows. -/
theorem contained_moveNextToChild {ctx : Context} {id size : Nat} {next : Item}
    {children : ItemList} {src : Source} (hnext : ctx.children.next? (isItem id) = some (next, children))
    (hbody : ctx.bodyOf next.id = some (.raw src)) (hle : size ≤ src.size) :
    Contained (ctx.moveNextToChild id size) := by
  rw [moveNextToChild, hnext]
  refine (Contained.require (by simp [Error.Outside])).bind fun _ _ => ?_
  refine Contained.bind (contained_splitRaw fun src' hsrc' => ?_) fun _ _ => ?_
  · rw [hbody] at hsrc'
    cases hsrc'
    rwa [Nat.zero_add]
  · exact (contained_get _ _).bind fun _ _ => Contained.ok _

/-- What is left behind a new item follows it. -/
theorem SplitAt.next? {ctx ctx' : Context} {k : Hole Item} {r n : Item} {src : Source} {pos : Nat}
    {p : Parts} (h : ctx.SplitAt ctx' k r src pos n .nil p)
    (hbefore : ∀ it ∈ k.before, isItem n.id it = false) (hne : r.id ≠ n.id)
    (hrest : src.size - n.getSize .nil - pos ≠ 0) :
    ∃ next, ctx'.children.next? (isItem n.id) = some (next, .nil) ∧
      (next, .nil) ∈ ctx'.children.subtrees ∧ next.body = .raw p.back := by
  rw [h.children]
  have hself : isItem n.id (p.newItem r pos n) = true := isItem_self n
  have hother (labels : List LabelPtr) (body : Body) :
      isItem n.id { r with labels, body } = false := decide_eq_false hne
  refine ⟨{ id := if pos = 0 then r.id else ctx.nextId
            position := r.position + (pos + n.getSize .nil), labels := p.backLabels
            body := .raw p.back },
    Hole.next?_plug hbefore ?_, Hole.mem_subtrees_plug.mpr (.inl ?_), rfl⟩
  · rw [Parts.items, Parts.backItems, if_neg hrest, Parts.frontItems]
    split
    · rw [Forest.nil_append, Forest.next?, if_pos hself]
      rfl
    · rw [Forest.single_append, Forest.next?, hother, Forest.next?, Forest.next?, if_pos hself]
      rfl
  · rw [Parts.items, Parts.backItems, if_neg hrest, Forest.subtrees_append]
    exact List.mem_append_right _ (List.mem_cons_of_mem _ List.mem_cons_self)

end Context

/-- The computation stays in bounds; if it returns, `Good` holds of the value. -/
structure Reads {α : Type} (Good : α → Prop) (x : Except Error (Context × α)) : Prop where
  contained : Contained x
  good : ∀ ctx a, x = .ok (ctx, a) → Good a

namespace Reads

variable {α β γ : Type} {ctx : Context} {Good : α → Prop} {Good' : β → Prop}

theorem ok {a : α} (h : Good a) : Reads Good (.ok (ctx, a)) :=
  ⟨Contained.ok _, fun _ _ heq => by cases heq; exact h⟩

theorem error {e : Error} (h : ¬ e.Outside) : Reads Good (.error e) :=
  ⟨Contained.error h, fun _ _ heq => nomatch heq⟩

theorem bind {x : Except Error (Context × α)} {f : Context × α → Except Error (Context × β)}
    (hx : Reads Good x) (hf : ∀ ctx' a, Good a → Reads Good' (f (ctx', a))) :
    Reads Good' (x >>= f) where
  contained := hx.contained.bind fun ⟨ctx', a⟩ h => (hf ctx' a (hx.good ctx' a h)).contained
  good ctx'' b h := by
    obtain ⟨⟨ctx', a⟩, hxa, hb⟩ := bind_eq_ok.mp h
    exact (hf ctx' a (hx.good ctx' a hxa)).good ctx'' b hb

/-- Something is asked first that gives no context. -/
theorem after {x : Except Error γ} {f : γ → Except Error (Context × β)}
    (hx : Contained x) (hf : ∀ c, x = .ok c → Reads Good' (f c)) : Reads Good' (x >>= f) where
  contained := hx.bind fun c h => (hf c h).contained
  good ctx' b h := by
    obtain ⟨c, hc, hb⟩ := bind_eq_ok.mp h
    exact (hf c hc).good ctx' b hb

end Reads

namespace Context

theorem reads_getLabelTo (ctx : Context) (pos : Nat) : Reads (fun _ => True) (ctx.getLabelTo pos) :=
  ⟨contained_getLabelTo ctx pos, fun _ _ _ => trivial⟩

theorem reads_getLabelToNamed (ctx : Context) (pos : Nat) (name : LabelPtr) :
    Reads (fun _ => True) (ctx.getLabelToNamed pos name) :=
  ⟨contained_getLabelToNamed ctx pos name, fun _ _ _ => trivial⟩

end Context

namespace Source

theorem contained_preadCString (s : Source) (offs : Nat) : Contained (s.preadCString offs) := by
  rw [preadCString]
  split
  · exact Contained.ok _
  · exact Contained.error (by simp [Error.Outside])

theorem contained_checkRemainingSize (s : Source) (n : Nat) : Contained (s.checkRemainingSize n) :=
  contained_checkSize s _

theorem Spans.le_remaining {s : Source} {pos n : Nat} (h : s.Spans (pos + n))
    (hsmall : pos + n < 2 ^ 64) {u : Unit}
    (hcheck : (s.at_ pos).checkRemainingSize n = .ok u) : pos + n ≤ s.size := by
  have hsum : ((s.at_ pos).get + n) % 2 ^ 64 = pos + n := Nat.mod_eq_of_lt hsmall
  rw [checkRemainingSize, hsum] at hcheck
  exact h.le hcheck

end Source

namespace Context

theorem contained_getSource (ctx : Context) (ptr : ItemPointer) :
    Contained (ctx.getSource ptr) := by
  refine (contained_getRaw _ _).bind fun ⟨it, children, src⟩ _ => ?_
  refine (Contained.require (by simp [Error.Outside])).bind fun _ hle => ?_
  have hle := require_eq_ok.mp hle
  exact Source.contained_sub (by omega)

theorem getSource_bytes {ctx : Context} {ptr : ItemPointer} {w src : Source}
    (h : ctx.getSource ptr = .ok w) (hbody : ctx.bodyOf ptr.item = some (.raw src)) :
    w.bytes = Lib.slice src.bytes ptr.offset w.size := by
  obtain ⟨⟨it, children, src'⟩, hraw, h⟩ := bind_eq_ok.mp h
  cases hbody.symm.trans (bodyOf_of_getRaw hraw)
  obtain ⟨_, hle, h⟩ := bind_eq_ok.mp h
  have hle := require_eq_ok.mp hle
  have hfit : ptr.offset + (src.size - ptr.offset) ≤ src.size := by omega
  obtain ⟨w', hw', hbytes⟩ := Source.sub_of_le hfit
  cases hw'.symm.trans h
  rw [hbytes, Source.size_of_sub hw']

/-- The window on a raw item from a pointer on. -/
theorem getSource_spec {ctx : Context} {ptr : ItemPointer} {w : Source}
    (h : ctx.getSource ptr = .ok w) :
    ∃ src, ctx.bodyOf ptr.item = some (.raw src) ∧ ptr.offset + w.size = src.size ∧
      w = w.at_ 0 := by
  obtain ⟨⟨it, children, src⟩, hraw, h⟩ := bind_eq_ok.mp h
  obtain ⟨_, hle, h⟩ := bind_eq_ok.mp h
  have hle := require_eq_ok.mp hle
  obtain ⟨w', hslice, h⟩ := bind_eq_ok.mp h
  cases h
  rw [Source.slice, dif_pos (by omega)] at hslice
  cases hslice
  exact ⟨src, bodyOf_of_getRaw hraw, by dsimp only; omega, rfl⟩

end Context

end Neptools

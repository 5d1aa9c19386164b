import Neptools.Format.Contained

/-!
What can be in the way when items are split where they are raw, and long enough:
nothing but a label, which leads to no item or is behind the end of what is split.
-/

namespace Neptools

open Lib

/-- A label has no item, or its item has no place for it. -/
def Error.AtLabel : Error → Prop
  | .undefinedBehaviour => True
  | .assertionFailed cond =>
      cond = "it != pmap.begin()" ∨ cond = "it->first == it->second->GetPosition()" ∨
        cond = "would invalidate labels" ∨ cond = "label == nullptr"
  | _ => False

/-- A label has no place in what takes the place of its item. -/
def Error.Unplaced (e : Error) : Prop :=
  e = .assertionFailed "would invalidate labels" ∨ e = .assertionFailed "label == nullptr"

instance : DecidablePred Error.AtLabel
  | .undefinedBehaviour => .isTrue trivial
  | .assertionFailed _ => inferInstanceAs (Decidable (_ ∨ _))
  | .decodeError _ | .sourceOverflow _ | .sinkOverflow _ | .systemError | .runtimeError _
  | .outOfRange _ | .badCast => .isFalse not_false

/-- If the computation ends with an error, this is at a label. -/
def FailsAtLabels {α : Type} (x : Except Error α) : Prop := ∀ e, x = .error e → e.AtLabel

namespace FailsAtLabels

variable {α β : Type}

theorem ok (a : α) : FailsAtLabels (.ok a : Except Error α) := fun _ h => nomatch h

theorem error {e : Error} (h : e.AtLabel) : FailsAtLabels (.error e : Except Error α) :=
  fun _ heq => by cases heq; exact h

theorem bind {x : Except Error α} {f : α → Except Error β} (hx : FailsAtLabels x)
    (hf : ∀ a, x = .ok a → FailsAtLabels (f a)) : FailsAtLabels (x >>= f) := by
  cases x with
  | error e => exact error (hx e rfl)
  | ok a => exact hf a rfl

theorem require {p : Prop} [Decidable p] {e : Error} (h : e.AtLabel) :
    FailsAtLabels (Lib.require p e) := by
  rw [Lib.require]
  split
  · exact ok ()
  · exact error h

end FailsAtLabels

namespace Context

variable {ctx : Context}

theorem failsAtLabels_get (ctx : Context) (id : Nat) : FailsAtLabels (ctx.get id) := by
  rw [get]
  split
  · exact .ok _
  · exact .error trivial

theorem failsAtLabels_getLabelTo (ctx : Context) (pos : Nat) :
    FailsAtLabels (ctx.getLabelTo pos) := by
  refine .bind ?_ fun ptr _ => ?_
  · rw [getPointer]
    split
    · exact .error (by simp [Error.AtLabel])
    · split
      · exact .error trivial
      · refine (failsAtLabels_get _ _).bind fun _ _ => ?_
        exact (FailsAtLabels.require (by simp [Error.AtLabel])).bind fun _ _ => .ok _
  · refine (failsAtLabels_get _ _).bind fun x _ => ?_
    dsimp only
    split
    · exact .ok _
    · exact .ok _

/-- A raw item that is long enough can be split, unless a label is in the way. -/
theorem Consistent.split2_fails (h : ctx.Consistent) {id pos : Nat} {r n : Item}
    {children nchildren : ItemList} {src : Source} (hraw : ctx.getRaw id = .ok (r, children, src))
    (hnone : n.labels = []) (hlen : pos + n.getSize nchildren ≤ src.size) :
    ¬ Overran Error.Unplaced (ctx.split2 id pos n nchildren) := by
  have hrequire (p : Prop) [Decidable p] {e : Error} (he : e.Unplaced) :
      ¬ Overran Error.Unplaced (require p e) := by
    rw [require]
    split
    · exact not_overran_ok ()
    · exact fun hover => overran_error.mp hover he
  obtain ⟨-, rfl, hbody, k, hk, hapart⟩ := h.registers.raw_hole hraw
  by_cases hwhole : pos = 0 ∧ src.size - n.getSize nchildren - pos = 0
  · rw [split2_whole hk hapart hbody hlen hwhole.1 hwhole.2, Context.replace, get_hole hk hapart, ok_bind]
    refine not_overran_bind (hrequire _ (.inl rfl)) fun _ _ => ?_
    dsimp only
    rw [require_of hnone, ok_bind, require_of (by simp [Forest.nodes]), ok_bind]
    exact not_overran_ok _
  · obtain ⟨front, back, -, -, hsplit⟩ := split2_sliced hk hapart hbody hlen hwhole
    have hk₁ : Context.children { ctx with
        nextId := splitNextId ctx.nextId src.size (n.getSize nchildren) pos } =
        k.plug (.single r .nil) := hk
    have hnone := splitSeq_labels ctx.nextId pos r src back nchildren hnone
    rw [hsplit]
    refine not_overran_bind ?_ fun _ _ => not_overran_ok _
    rw [slice, require_of (splitSeq_ends ctx.nextId r back hlen).1, ok_bind, get_hole hk₁ hapart,
      ok_bind]
    obtain ⟨s, hs⟩ := exists_slicePieces ctx.pmap.keys.isEmpty r.position hnone 0 ctx.labels
      (ctx.pmap.removedAll (.single r .nil)) r.labels
    dsimp only
    rw [hs, ok_bind]
    exact not_overran_bind (hrequire _ (.inr rfl)) fun _ _ => not_overran_ok _

theorem Consistent.failsAtLabels_split2 (h : ctx.Consistent) {id pos : Nat} {r n : Item}
    {children nchildren : ItemList} {src : Source} (hraw : ctx.getRaw id = .ok (r, children, src))
    (hnone : n.labels = []) (hlen : pos + n.getSize nchildren ≤ src.size) :
    FailsAtLabels (ctx.split2 id pos n nchildren) := fun e he => by
  by_contra hnot
  refine h.split2_fails hraw hnone hlen ⟨e, he, fun hunplaced => hnot ?_⟩
  rcases hunplaced with rfl | rfl
  · simp [Error.AtLabel]
  · simp [Error.AtLabel]

theorem exists_of_bodyOf {id : Nat} {body : Body} (h : ctx.bodyOf id = some body) :
    ∃ it children, ctx.find? id = some (it, children) ∧ it.body = body := by
  rw [bodyOf, plain?, Option.map_map, Option.map_eq_some_iff] at h
  obtain ⟨⟨it, children⟩, hfind, hbody⟩ := h
  exact ⟨it, children, hfind, hbody⟩

theorem getRaw_of_bodyOf {id : Nat} {src : Source} (h : ctx.bodyOf id = some (.raw src)) :
    ∃ it children, ctx.getRaw id = .ok (it, children, src) := by
  obtain ⟨it, children, hfind, hbody⟩ := exists_of_bodyOf h
  refine ⟨it, children, ?_⟩
  rw [getRaw, get_of_find? hfind, ok_bind]
  simp only [hbody, pure_eq_ok]

theorem isRaw_of_bodyOf {id : Nat} {src : Source} (h : ctx.bodyOf id = some (.raw src)) :
    ctx.isRaw id = true := by
  obtain ⟨it, children, hfind, hbody⟩ := exists_of_bodyOf h
  simp only [isRaw, hfind, hbody]

theorem exists_of_isRaw {id : Nat} (h : ctx.isRaw id = true) :
    ∃ src, ctx.bodyOf id = some (.raw src) := by
  rw [isRaw] at h
  split at h
  · rename_i it children hfind
    split at h
    · rename_i src hraw
      exact ⟨src, by simp [bodyOf, plain?, hfind, ← hraw, Item.plain]⟩
    · cases h
  · cases h

theorem getSource_of_bodyOf {ptr : ItemPointer} {src : Source}
    (hbody : ctx.bodyOf ptr.item = some (.raw src)) (hle : ptr.offset ≤ src.size) :
    ∃ w, ctx.getSource ptr = .ok w ∧ w.get = 0 ∧
      w.bytes = Lib.slice src.bytes ptr.offset (src.size - ptr.offset) := by
  obtain ⟨it, children, hraw⟩ := getRaw_of_bodyOf hbody
  have hfit : ptr.offset + (src.size - ptr.offset) ≤ src.size := by omega
  obtain ⟨w, hw, hbytes⟩ := Source.sub_of_le hfit
  refine ⟨w, ?_, ?_, hbytes⟩
  · rw [getSource, hraw, ok_bind]
    dsimp only
    rw [require_of hle, ok_bind, hw]
  · obtain ⟨_, -, hw⟩ := bind_eq_ok.mp hw
    cases hw
    rfl

theorem Consistent.failsAtLabels_splitRaw (h : ctx.Consistent) {id offset size : Nat} {src : Source}
    (hbody : ctx.bodyOf id = some (.raw src)) (hle : offset + size ≤ src.size) :
    FailsAtLabels (ctx.splitRaw id offset size) := by
  obtain ⟨it, children, hraw⟩ := getRaw_of_bodyOf hbody
  obtain ⟨sub, hsub, -⟩ := Source.sub_of_le hle
  rw [Context.splitRaw, hraw, ok_bind]
  dsimp only
  rw [internalSlice, require_of hle, ok_bind, hsub]
  simp only [ok_bind, pure_eq_ok]
  have hraw' : Context.getRaw { ctx with nextId := ctx.nextId + 1 } id =
      .ok (it, children, src) := hraw
  refine (h.create.failsAtLabels_split2 hraw' rfl ?_).bind fun _ _ => .ok _
  change offset + (sub.size + 0) ≤ src.size
  rwa [Source.size_of_sub hsub]

theorem Consistent.failsAtLabels_moveNextToChild (h : ctx.Consistent) {id size : Nat} {next : Item}
    {children : ItemList} {src : Source}
    (hnext : ctx.children.next? (isItem id) = some (next, children))
    (hbody : ctx.bodyOf next.id = some (.raw src)) (hle : size ≤ src.size) :
    FailsAtLabels (ctx.moveNextToChild id size) := by
  rw [moveNextToChild, hnext]
  dsimp only
  rw [require_of (isRaw_of_bodyOf hbody), ok_bind]
  refine (h.failsAtLabels_splitRaw hbody (by omega)).bind fun _ _ => ?_
  exact (failsAtLabels_get _ _).bind fun _ _ => .ok _

end Context

end Neptools

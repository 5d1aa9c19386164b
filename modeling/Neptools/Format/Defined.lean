import Neptools.Format.AtLabels
import Neptools.Format.CStringItem
import Neptools.Format.Labels
import Neptools.Format.Pointers
import Neptools.Source.Errors

/-!
Reading a file is refused, or goes well: it does not follow a pointer that leads nowhere.
A label leads to an item that is there, and so does every entry of the pointer map.
-/

namespace Neptools

open Lib

/-- The computation does not end where anything may happen. -/
def Defined {α : Type} (x : Except Error α) : Prop := ¬ Overran (· ≠ Error.undefinedBehaviour) x

namespace Defined

variable {α β : Type}

theorem ok (a : α) : Defined (.ok a : Except Error α) := not_overran_ok a

theorem error {e : Error} (h : e ≠ .undefinedBehaviour) : Defined (.error e : Except Error α) :=
  mt overran_error.mp (not_not_intro h)

theorem bind {x : Except Error α} {f : α → Except Error β} (hx : Defined x)
    (hf : ∀ a, x = .ok a → Defined (f a)) : Defined (x >>= f) := not_overran_bind hx hf

theorem require {p : Prop} [Decidable p] {e : Error} (h : e ≠ .undefinedBehaviour) :
    Defined (Lib.require p e) := by
  rw [Lib.require]
  split
  · exact ok ()
  · exact error h

theorem of_read {x : Except Error α} (h : FailsLikeReads x) : Defined x := by
  rintro ⟨e, he, hundefined⟩
  refine h ⟨e, he, ?_⟩
  rw [not_not.mp hundefined]
  exact id

theorem of_ok {x : Except Error α} (h : ∃ a, x = .ok a) : Defined x := by
  obtain ⟨a, rfl⟩ := h
  exact ok a

theorem ne {x : Except Error α} (h : Defined x) : x ≠ .error .undefinedBehaviour :=
  fun heq => h ⟨_, heq, not_not_intro rfl⟩

end Defined

namespace Context

variable {ctx ctx' : Context} {id : Nat}

theorem Relabels.ids (h : ctx.Relabels ctx') :
    ctx'.children.nodes.map Item.id = ctx.children.nodes.map Item.id := by
  have hnodes := congrArg (fun f => f.nodes.map Item.id) h.plain
  simp only [Forest.nodes_map, List.map_map] at hnodes
  exact hnodes

theorem mem_ids_of_find? {x : Item × ItemList} (h : ctx.find? id = some x) :
    id ∈ ctx.children.nodes.map Item.id := by
  obtain ⟨hmem, rfl⟩ := find?_some h
  exact List.mem_map_of_mem (Forest.mem_nodes.mpr ⟨_, hmem⟩)

theorem exists_get (hid : id ∈ ctx.children.nodes.map Item.id) : ∃ x, ctx.get id = .ok x := by
  obtain ⟨x, hfind⟩ := exists_find? hid
  exact ⟨x, get_of_find? hfind⟩

theorem defined_getRaw (hid : id ∈ ctx.children.nodes.map Item.id) : Defined (ctx.getRaw id) := by
  obtain ⟨x, hget⟩ := exists_get hid
  rw [getRaw, hget, ok_bind]
  dsimp only
  split
  · exact .ok _
  · exact .error Error.noConfusion

theorem defined_getSource {ptr : ItemPointer} (hid : ptr.item ∈ ctx.children.nodes.map Item.id) :
    Defined (ctx.getSource ptr) := by
  refine (defined_getRaw hid).bind fun x _ => ?_
  exact .bind (.require nofun) fun _ _ => .of_read (Source.failsLikeReads_sub _ _ _)

theorem Consistent.defined_splitCreate (h : ctx.Consistent) {pos : Nat} {body : Body}
    (hid : id ∈ ctx.children.nodes.map Item.id) : Defined (ctx.splitCreate id pos body) := by
  have hsplit : ctx.splitCreate id pos body =
      (ctx.create body).2.split2 id pos (ctx.create body).1 .nil := rfl
  rw [hsplit]
  cases hraw : (ctx.create body).2.getRaw id with
  | error e =>
      have hid : id ∈ (ctx.create body).2.children.nodes.map Item.id := hid
      have herror := defined_getRaw hid
      rw [hraw] at herror
      rw [Context.split2, hraw, error_bind]
      exact .error fun heq => herror.ne (congrArg Except.error heq)
  | ok x =>
      by_cases hlen : pos + (ctx.create body).1.getSize .nil ≤ x.2.2.size
      · rintro ⟨e, he, hundefined⟩
        refine h.create.split2_fails hraw rfl hlen ⟨e, he, fun hunplaced => ?_⟩
        rw [not_not.mp hundefined] at hunplaced
        simp [Error.Unplaced] at hunplaced
      · rw [Context.split2, hraw, ok_bind]
        dsimp only
        rw [require_not fun hle => hlen hle.2, error_bind]
        exact .error Error.noConfusion

/-- Every position and every label leads to an item. -/
structure Indexed (ctx : Context) : Prop where
  consistent : ctx.Consistent
  pointed : ctx.Pointed

theorem Relabels.indexed (h : ctx.Relabels ctx') (hctx : ctx.Indexed) : ctx'.Indexed :=
  ⟨h.consistent hctx.consistent, h.pointed hctx.pointed⟩

namespace Indexed

variable (h : ctx.Indexed)

include h

theorem exists_getPointer (pos : Nat) :
    ∃ ptr, ctx.getPointer pos = .ok ptr ∧ ptr.item ∈ ctx.children.nodes.map Item.id := by
  obtain ⟨ptr, hptr⟩ := h.pointed.getPointer h.consistent pos
  obtain ⟨it, children, hfind, -⟩ := getPointer_ok hptr
  exact ⟨ptr, hptr, mem_ids_of_find? hfind⟩

theorem defined_getLabelTo (pos : Nat) : Defined (ctx.getLabelTo pos) := by
  obtain ⟨ctx', l, hl⟩ := h.pointed.getLabelTo h.consistent pos
  exact .of_ok ⟨_, hl⟩

theorem defined_getLabelToNamed (pos : Nat) (name : LabelPtr) :
    Defined (ctx.getLabelToNamed pos name) := by
  obtain ⟨ptr, hptr, hid⟩ := h.exists_getPointer pos
  obtain ⟨x, hget⟩ := exists_get hid
  rw [getLabelToNamed, hptr, ok_bind, hget, ok_bind]
  dsimp only
  split
  · exact .ok _
  · exact .ok _

/-- What makes labels only leaves the items for what comes next. -/
theorem bind_relabeling {α β : Type} {x : Except Error (Context × α)}
    {f : Context × α → Except Error β} (hx : Defined x) (hrelabeling : Relabeling ctx x)
    (hf : ∀ ctx' a, ctx.Relabels ctx' → ctx'.Indexed → Defined (f (ctx', a))) :
    Defined (x >>= f) :=
  hx.bind fun ⟨ctx', a⟩ hok =>
    have hrelabels := hrelabeling ctx' a hok
    hf ctx' a hrelabels (hrelabels.indexed h)

end Indexed

end Context

open Context

theorem CStringItem.defined_maybeCreate {ctx : Context} (h : ctx.Indexed) {ptr : ItemPointer}
    (hid : ptr.item ∈ ctx.children.nodes.map Item.id) : Defined (maybeCreate ctx ptr) := by
  rw [maybeCreate]
  split
  · refine (defined_getSource hid).bind fun src _ => ?_
    refine .bind (.of_read (src.failsLikeReads_preadCString 0)) fun string _ => ?_
    exact (h.consistent.defined_splitCreate hid).bind fun _ _ => .ok _
  · obtain ⟨x, hget⟩ := exists_get hid
    rw [hget, ok_bind]
    refine .bind (.require nofun) fun _ _ => ?_
    split
    · exact .ok _
    · exact .error nofun

end Neptools

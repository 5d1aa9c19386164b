import Neptools.Format.AtLabels
import Neptools.Format.Pieces
import Neptools.Source.Errors
import Neptools.Stcm.Edits

/-!
What looking for numbers, strings and message tables does to the labels. An item that is
put in the place of data takes over its labels, but not those of its child.
-/

namespace Neptools

open Lib

namespace Context

/-- The labels of the item itself stay where they are. -/
theorem Consistent.moveNextToChild_offset {ctx ctx' : Context} (h : ctx.Consistent) {id size : Nat}
    {it : Item} {children : ItemList} (hfind : ctx.find? id = some (it, children))
    (hmove : ctx.moveNextToChild id size = .ok ctx') :
    ∀ l ∈ it.labels, ctx'.labels.offset l = ctx.labels.offset l := by
  obtain ⟨ctx₁, k, x, cs, next, src, sub, p, rfl, -, -, -, -, -, hat⟩ := h.moveNextToChild_ok hmove
  have hx : (x, cs) ∈ ctx.children.subtrees := by
    rw [hat.children, Hole.mem_subtrees_plug]
    exact .inl List.mem_cons_self
  cases (h.find?_of_mem hx).symm.trans hfind
  have hitMem : it ∈ ctx.children.nodes := Forest.mem_nodes.mpr ⟨_, hx⟩
  have hnext : next ∈ ctx.children.nodes := by
    rw [hat.children, mem_plug]
    exact .inr (List.mem_cons_of_mem _ (List.mem_append_right _ List.mem_cons_self))
  intro l hl
  have hnot : l ∉ next.labels := fun hmem => by
    have heq := h.registers.registered.eq_of_label (by rwa [List.append_nil])
      (by rwa [List.append_nil]) hl hmem
    have hdistinct := h.distinct
    rw [hat.children, Hole.nodes_plug, List.map_append, List.map_append, heq, Forest.nodes,
      List.map_cons] at hdistinct
    have hpair := List.nodup_append.mp (List.nodup_append.mp hdistinct).1
    refine (List.nodup_cons.mp hpair.2.1).1 ?_
    rw [List.map_append, List.mem_append]
    exact .inr List.mem_cons_self
  rw [hat.nested, LabelsMap.offset, LabelsMap.offset, hat.split.moved.other l hnot]

end Context

/-- An item is destroyed that still has labels. -/
def Error.disposed : Error := .assertionFailed "labels.empty() && !GetParent()"

/-- The computation does not end with the destruction of labels. -/
def SparesLabels {α : Type} (x : Except Error α) : Prop := ¬ Overran (· ≠ Error.disposed) x

namespace SparesLabels

variable {α β : Type}

theorem ok (a : α) : SparesLabels (.ok a : Except Error α) := not_overran_ok a

theorem error {e : Error} (h : e ≠ .disposed) : SparesLabels (.error e : Except Error α) :=
  mt overran_error.mp (not_not_intro h)

theorem bind {x : Except Error α} {f : α → Except Error β} (hx : SparesLabels x)
    (hf : ∀ a, SparesLabels (f a)) : SparesLabels (x >>= f) :=
  not_overran_bind hx fun a _ => hf a

theorem require {p : Prop} [Decidable p] {e : Error} (h : e ≠ .disposed) :
    SparesLabels (Lib.require p e) := by
  rw [Lib.require]
  split
  · exact ok ()
  · exact error h

theorem validateField (what cond : String) (p : Prop) [Decidable p] :
    SparesLabels (Neptools.validateField what cond p) := by
  rw [Neptools.validateField]
  exact require (by simp [Error.disposed])

theorem ne {x : Except Error α} (h : SparesLabels x) : x ≠ .error .disposed :=
  fun heq => h ⟨_, heq, not_not_intro rfl⟩

theorem of_read {x : Except Error α} (h : FailsLikeReads x) : SparesLabels x := by
  rintro ⟨e, he, hdisposed⟩
  refine h ⟨e, he, ?_⟩
  rw [not_not.mp hdisposed]
  simp [Error.disposed, Error.OfSource]

theorem of_failsAtLabels {x : Except Error α} (h : FailsAtLabels x) : SparesLabels x := by
  rintro ⟨e, he, hdisposed⟩
  have hlabel := h e he
  rw [not_not.mp hdisposed] at hlabel
  simp [Error.disposed, Error.AtLabel] at hlabel

end SparesLabels

namespace Context

theorem sparesLabels_getRaw (ctx : Context) (id : Nat) : SparesLabels (ctx.getRaw id) := by
  refine (SparesLabels.of_failsAtLabels (failsAtLabels_get ctx id)).bind fun x => ?_
  dsimp only
  split
  · exact .ok _
  · exact .error (by simp [Error.disposed])

/-- A raw item has no children that could be destroyed. -/
theorem Consistent.sparesLabels_split2 {ctx : Context} (h : ctx.Consistent) {n : Item}
    (hnone : n.labels = []) (id pos : Nat) : SparesLabels (ctx.split2 id pos n .nil) := by
  cases hraw : ctx.getRaw id with
  | error e =>
      have herror := sparesLabels_getRaw ctx id
      rw [hraw] at herror
      rw [Context.split2, hraw, error_bind]
      exact .error fun heq => herror.ne (congrArg Except.error heq)
  | ok x =>
      by_cases hlen : pos + n.getSize .nil ≤ x.2.2.size
      · exact .of_failsAtLabels (h.failsAtLabels_split2 hraw hnone hlen)
      · rw [Context.split2, hraw, ok_bind]
        dsimp only
        rw [require_not fun hle => hlen hle.2, error_bind]
        exact .error (by simp [Error.disposed])

end Context

namespace Gbnl

theorem sparesLabels_validate (h : Header) (chunkSize : Nat) :
    SparesLabels (h.validate chunkSize) := by
  rw [Header.validate]
  iterate 6 refine .bind (.validateField _ _ _) fun _ => ?_
  split
  · exact .validateField _ _ _
  · split
    · exact .validateField _ _ _
    · exact .validateField _ _ _

theorem sparesLabels_getTypeSize (type : UInt16) : SparesLabels (getTypeSize type) := by
  rw [getTypeSize]
  repeat' split
  all_goals first | exact .ok _ | exact .error (by simp [Error.disposed])

theorem sparesLabels_addType (st : TypeState) (desc : TypeDescriptor) :
    SparesLabels (addType st desc) := by
  rw [addType]
  refine .bind (.validateField _ _ _) fun _ => ?_
  refine .bind (sparesLabels_getTypeSize _) fun _ => ?_
  dsimp only
  split
  · exact (SparesLabels.require (by simp [Error.disposed])).bind fun _ => .ok _
  · repeat' split
    all_goals first | exact .ok _ | exact .error (by simp [Error.disposed])

theorem sparesLabels_readTypes (e : Endian) (n : Nat) (st : TypeState) (src : Source) :
    SparesLabels (readTypes e n st src) := by
  induction n generalizing st src with
  | zero => exact .ok _
  | succ n ih =>
      refine (SparesLabels.of_read (src.failsLikeReads_readGen TypeDescriptor)).bind fun x => ?_
      exact (sparesLabels_addType st _).bind fun st' => ih st' x.2

theorem sparesLabels_readField (e : Endian) (offsetMsgs : UInt32) (src : Source) (t : FieldType) :
    SparesLabels (readField e offsetMsgs src t) := by
  cases t with
  | int8 => exact (SparesLabels.of_read (src.failsLikeReads_readUint UInt8 e)).bind fun _ => .ok _
  | int16 => exact (SparesLabels.of_read (src.failsLikeReads_readUint UInt16 e)).bind fun _ => .ok _
  | int32 => exact (SparesLabels.of_read (src.failsLikeReads_readUint UInt32 e)).bind fun _ => .ok _
  | int64 => exact (SparesLabels.of_read (src.failsLikeReads_readUint UInt64 e)).bind fun _ => .ok _
  | float => exact (SparesLabels.of_read (src.failsLikeReads_readUint UInt32 e)).bind fun _ => .ok _
  | offsetString =>
      refine (SparesLabels.of_read (src.failsLikeReads_readUint UInt32 e)).bind fun x => ?_
      dsimp only
      split
      · exact .ok _
      · refine .bind (.validateField _ _ _) fun _ => ?_
        exact (SparesLabels.of_read (Source.failsLikeReads_preadCString _ _)).bind fun _ => .ok _
  | fixString size | padding size =>
      exact (SparesLabels.of_read (src.failsLikeReads_read size)).bind fun _ => .ok _

theorem sparesLabels_readStruct (e : Endian) (offsetMsgs : UInt32) (type : List FieldType)
    (src : Source) : SparesLabels (readStruct e offsetMsgs type src) := by
  induction type generalizing src with
  | nil => exact .ok _
  | cons t ts ih =>
      refine (sparesLabels_readField e offsetMsgs src t).bind fun x => ?_
      exact (ih x.2).bind fun _ => .ok _

theorem sparesLabels_readMessages (e : Endian) (foot : Header) (type : List FieldType) (n : Nat)
    (msgs : UInt32) (src : Source) : SparesLabels (readMessages e foot type n msgs src) := by
  induction n generalizing msgs src with
  | zero => exact .ok _
  | succ n ih =>
      refine (SparesLabels.of_read (src.failsLikeReads_seek _)).bind fun src' => ?_
      refine (sparesLabels_readStruct e foot.offsetMsgs type src').bind fun x => ?_
      exact (ih _ x.2).bind fun _ => .ok _

theorem sparesLabels_parse (src : Source) : SparesLabels (parse src) := by
  have hheader : SparesLabels (readHeader src) := by
    refine .bind (.require (by simp [Error.disposed])) fun _ => ?_
    refine (SparesLabels.of_read (src.failsLikeReads_preadGen Header 0)).bind fun foot => ?_
    split
    · exact .ok _
    · exact (SparesLabels.of_read (src.failsLikeReads_preadGen Header _)).bind fun _ => .ok _
  refine hheader.bind fun x => ?_
  refine (sparesLabels_validate _ _).bind fun _ => ?_
  refine (SparesLabels.of_read (src.failsLikeReads_seek _)).bind fun src' => ?_
  refine (sparesLabels_readTypes _ _ _ src').bind fun st => ?_
  refine (sparesLabels_readMessages _ _ _ _ _ _).bind fun ms => ?_
  refine .bind (.validateField _ _ _) fun _ => ?_
  exact .bind (.validateField _ _ _) fun _ => .ok _

end Gbnl

namespace Stcm

open Context

/-- What a run of the heuristics does to the labels: none is destroyed with its
item, and each is where it was. -/
def KeepsLabels (ctx : Context) (x : Except Error Context) : Prop :=
  x ≠ .error .disposed ∧
    ∀ ctx', x = .ok ctx' → ∀ l pos, ctx.toFilePos l = .ok pos → ctx'.toFilePos l = .ok pos

theorem KeepsLabels.same (ctx : Context) : KeepsLabels ctx (.ok ctx) :=
  ⟨(fun h => nomatch h), fun _ h _ _ hl => by cases h; exact hl⟩

theorem KeepsLabels.error (ctx : Context) {e : Error} (h : e ≠ .disposed) :
    KeepsLabels ctx (.error e) :=
  ⟨fun heq => by cases heq; exact h rfl, fun _ heq => nomatch heq⟩

namespace DataItem

/-- Data with one child, the bytes `src`. Its labels are on its header. -/
structure Holds (ctx : Context) (id : Nat) (it : Item) (d : DataItem) (child : Item)
    (src : Source) : Prop where
  consistent : ctx.Consistent
  find : ctx.find? id = some (it, .single child .nil)
  data : it.body = .data d
  raw : child.body = .raw src
  offsets : ∀ l ∈ it.labels, ctx.labels.offset l ≤ Pod.size Header

variable {ctx : Context} {id : Nat} {it child : Item} {d : DataItem} {src : Source}

theorem Holds.replace_iff (h : Holds ctx id it d child src) (s : Bytes) :
    KeepsLabels ctx (do
      let (sit, ctx) := ctx.create (.stringData s)
      ctx.replace id sit .nil) ↔ child.labels = [] := by
  have hctx := h.consistent
  obtain ⟨rfl, k, hk, hapart⟩ := hctx.registers.exists_hole h.find
  have hk₁ : Context.children { ctx with nextId := ctx.nextId + 1 } =
      k.plug (.single it (.single child .nil)) := hk
  have hget := get_hole hk₁ hapart
  constructor
  · intro hkeeps
    by_contra hlabels
    refine hkeeps.1 ?_
    dsimp only [Context.create]
    rw [Context.replace, hget, ok_bind]
    dsimp only
    rw [require_of (fun l hl => ?_), ok_bind, require_of rfl, ok_bind, require_not ?_]
    · rfl
    · exact fun hnone => hlabels (hnone child List.mem_cons_self)
    · refine (h.offsets l hl).trans ?_
      exact Nat.le_add_right _ _
  · intro hnone
    refine ⟨SparesLabels.ne ?_, fun ctx' hreplace l pos hpos => ?_⟩
    · dsimp only [Context.create]
      rw [Context.replace, hget, ok_bind]
      dsimp only
      refine (SparesLabels.require (by simp [Error.disposed])).bind fun _ => ?_
      rw [require_of rfl, ok_bind, require_of (fun a ha => ?_), ok_bind]
      · exact .ok _
      · rw [List.mem_singleton.mp ha, hnone]
    · have hkeeps := hctx.create.replace_keeps (hctx.fresh_create _) rfl hget (by rw [h.data]; rfl)
        (by rw [h.data]; rfl) hreplace
      exact hkeeps.answers.toFilePos l pos hpos

/-- What `CreateAndInsert` makes before the heuristics look at it. -/
theorem insert_holds {ctx ctx' : Context} (hctx : ctx.Consistent) {ptr : ItemPointer} {id : Nat}
    (h : insert ctx ptr = .ok (ctx', id)) :
    (∃ it, ctx'.find? id = some (it, .nil)) ∨ ∃ it d child src, Holds ctx' id it d child src := by
  obtain ⟨raw, ctx₁, -, rfl, hsplit, hmove⟩ := insert_ok h
  have hctx₁ := hctx.splitCreate (fun hheader => by cases hheader) hsplit
  obtain ⟨n, hfind, hbody⟩ := hctx.splitCreate_find? rfl hsplit
  rcases hmove with ⟨-, rfl⟩ | ⟨-, hmove⟩
  · exact .inl ⟨n, hfind⟩
  · obtain ⟨next, src', sub, child, -, -, -, -, hchild, hctx', hfind', -⟩ :=
      hctx₁.moveNextToChild_spec hfind (by rw [hbody]; rfl) hmove
    refine .inr ⟨n, _, child, sub, hctx', hfind', hbody, hchild, fun l hl => ?_⟩
    rw [hctx₁.moveNextToChild_offset hfind hmove l hl]
    obtain ⟨x, hraw, -⟩ := bind_eq_ok.mp hsplit
    obtain ⟨o, ho⟩ := (hctx₁.labelled n (Forest.mem_nodes.mpr ⟨_, (find?_some hfind).1⟩)).attached
      l hl
    rw [(find?_some hfind).2] at ho
    rw [LabelsMap.offset, ho]
    exact (hctx.create.split2_labels hraw (hctx.fresh_create _) hsplit).2 l o ho

end DataItem

namespace StringDataItem

theorem sparesLabels_recognize (d : DataItem) (src : Source) :
    SparesLabels (recognize d src) := by
  rw [recognize]
  split
  · exact .ok _
  · split
    · exact .ok _
    · refine SparesLabels.bind ?_ fun x => ?_
      · refine (SparesLabels.of_read (src.failsLikeReads_preadCString _)).bind fun _ => ?_
        exact (SparesLabels.of_read (src.failsLikeReads_seek _)).bind fun _ => .ok _
      · dsimp only
        split
        · exact .ok _
        · refine (SparesLabels.of_read (x.2.failsLikeReads_read _)).bind fun y => ?_
          split
          · exact .ok _
          · exact .ok _

end StringDataItem

namespace DataFactory

theorem sparesLabels_isGbnl (src : Source) : SparesLabels (isGbnl src) := by
  rw [isGbnl]
  split
  · exact (SparesLabels.of_read (src.failsLikeReads_pread _ _)).bind fun _ => .ok _
  · exact .ok _

/-- Whether the data are taken for a string: that heuristic comes to them, and
recognizes them. -/
def takenForString (d : DataItem) (src : Source) : List DataFactory → Bool
  | [] => false
  | int32 :: fs => !isPrimitive 0 d src && takenForString d src fs
  | float :: fs => !isPrimitive 1 d src && takenForString d src fs
  | stringData :: fs =>
      match StringDataItem.recognize d src with
      | .ok (some _) => true
      | .ok none => takenForString d src fs
      | .error _ => false
  | gbnl :: fs =>
      match isGbnl src with
      | .ok false => takenForString d src fs
      | _ => false

variable {ctx : Context} {id : Nat} {it child : Item} {d : DataItem} {src : Source}

theorem apply_stringData (h : DataItem.Holds ctx id it d child src) :
    apply ctx id stringData = (do
      let found ← StringDataItem.recognize d src
      found.elim (pure (ctx, false)) fun s => do
        let (sit, ctx) := ctx.create (.stringData s)
        let ctx ← ctx.replace id sit .nil
        pure (ctx, true)) := by
  rw [apply, StringDataItem.maybeCreateAndReplace, get_of_find? h.find, ok_bind]
  have honly : StringDataItem.onlyRawChild (.single child .nil) = some src := by
    rw [Forest.single, StringDataItem.onlyRawChild, h.raw]
  simp only [h.data, honly]
  cases StringDataItem.recognize d src with
  | error e => rfl
  | ok found =>
      cases found with
      | none => rfl
      | some s => rfl

theorem frontRaw_of_holds (h : DataItem.Holds ctx id it d child src) :
    frontRaw (.single child .nil) = some (child.id, src) := by
  rw [Forest.single, frontRaw, h.raw]

theorem apply_gbnl (h : DataItem.Holds ctx id it d child src) :
    apply ctx id gbnl = (do
      if ← isGbnl src then do
        let ctx ← GbnlItem.insert ctx { item := child.id, offset := 0 }
        pure (ctx, true)
      else pure (ctx, false)) := by
  rw [apply, get_of_find? h.find, ok_bind]
  simp only [frontRaw_of_holds h]

theorem checkFun_eq (h : DataItem.Holds ctx id it d child src) (body : UInt32 → Body)
    (typeId : UInt32) :
    checkFun body typeId ctx id =
      if isPrimitive typeId d src then do
        let ctx ← PrimitiveItem.insert body ctx { item := child.id, offset := 0 }
        pure (ctx, true)
      else pure (ctx, false) := by
  rw [checkFun, get_of_find? h.find, ok_bind]
  simp only [h.data, frontRaw_of_holds h]

/-- An item that is read and put in front of the bytes it was read from takes no
labels away. -/
theorem keepsLabels_insert (hctx : ctx.Consistent) (ptr : ItemPointer) {α : Type}
    {read : Source → Except Error α} (hread : ∀ src, SparesLabels (read src)) (body : α → Body) :
    KeepsLabels ctx (do
      let src ← ctx.getSource ptr
      let a ← read src
      ctx.splitCreate ptr.item ptr.offset (body a)) := by
  constructor
  · refine SparesLabels.ne ?_
    refine SparesLabels.bind ?_ fun w => (hread w).bind fun a => ?_
    · refine (sparesLabels_getRaw ctx _).bind fun x => ?_
      refine (SparesLabels.require (by simp [Error.disposed])).bind fun _ => ?_
      exact .of_read (Source.failsLikeReads_sub _ _ _)
    · exact hctx.create.sparesLabels_split2 rfl _ _
  · intro ctx' h l pos hl
    obtain ⟨w, -, h⟩ := bind_eq_ok.mp h
    obtain ⟨a, -, h⟩ := bind_eq_ok.mp h
    obtain ⟨k, r, src, p, -, hbody, hk, -, -, -, hp⟩ := hctx.splitCreate_ok h
    exact (hp.extends hctx.create hk hbody (hctx.freshList_create (body a))).toFilePos l pos hl

theorem check_found (x : Except Error Context) (f : Context → Except Error Context) :
    ((x >>= fun ctx => pure (ctx, true)) >>= fun y => if y.2 = true then pure y.1 else f y.1) =
      x := by
  cases x with
  | error e => rfl
  | ok ctx => rfl

theorem keepsLabels_checkFun (h : DataItem.Holds ctx id it d child src) (body : UInt32 → Body)
    (typeId : UInt32) {fs : List DataFactory}
    (hrest : KeepsLabels ctx (check ctx id fs) ↔ (takenForString d src fs = true → child.labels = [])) :
    KeepsLabels ctx (do
        let (ctx, found) ← checkFun body typeId ctx id
        if found then pure ctx else check ctx id fs) ↔
      ((!isPrimitive typeId d src && takenForString d src fs) = true → child.labels = []) := by
  rw [checkFun_eq h]
  cases isPrimitive typeId d src with
  | false => exact hrest
  | true =>
      have hinsert := keepsLabels_insert h.consistent ⟨child.id, 0⟩
        (fun w => SparesLabels.of_read (w.failsLikeReads_preadGen UInt32 0)) body
      refine iff_of_true ?_ fun hfalse => nomatch hfalse
      rw [if_pos rfl]
      dsimp only
      rw [check_found _ fun ctx => check ctx id fs]
      exact hinsert

/-- Data that a string takes the place of lose the labels of their child; all
other labels are kept. -/
theorem keepsLabels_check (h : DataItem.Holds ctx id it d child src) (fs : List DataFactory) :
    KeepsLabels ctx (check ctx id fs) ↔ (takenForString d src fs = true → child.labels = []) := by
  induction fs with
  | nil => exact iff_of_true (.same ctx) fun hfalse => nomatch hfalse
  | cons f fs ih =>
      cases f with
      | int32 => exact keepsLabels_checkFun h .int32 0 ih
      | float => exact keepsLabels_checkFun h .float 1 ih
      | stringData =>
          have herror := StringDataItem.sparesLabels_recognize d src
          rw [check, apply_stringData h, takenForString]
          cases hfound : StringDataItem.recognize d src with
          | error e =>
              rw [hfound] at herror
              refine iff_of_true (.error ctx fun heq => ?_) fun hfalse => nomatch hfalse
              exact herror.ne (congrArg Except.error heq)
          | ok found =>
              cases found with
              | none => exact ih
              | some s =>
                  have hreplace := h.replace_iff s
                  rw [ok_bind, Option.elim_some]
                  dsimp only
                  rw [check_found _ fun ctx => check ctx id fs]
                  exact hreplace.trans ⟨fun hnone _ => hnone, fun hnone => hnone rfl⟩
      | gbnl =>
          have herror := sparesLabels_isGbnl src
          rw [check, apply_gbnl h, takenForString]
          cases hfound : isGbnl src with
          | error e =>
              rw [hfound] at herror
              refine iff_of_true (.error ctx fun heq => ?_) fun hfalse => nomatch hfalse
              exact herror.ne (congrArg Except.error heq)
          | ok found =>
              cases found with
              | false => exact ih
              | true =>
                  have hinsert :=
                    keepsLabels_insert h.consistent ⟨child.id, 0⟩ Gbnl.sparesLabels_parse .gbnl
                  refine iff_of_true ?_ fun hfalse => nomatch hfalse
                  rw [ok_bind, if_pos rfl]
                  dsimp only
                  rw [check_found _ fun ctx => check ctx id fs]
                  exact hinsert

end DataFactory

namespace DataItem

/-- The heuristics keep all labels, unless what they take for a string has a label
among its bytes. -/
theorem heuristics_keepsLabels_iff {ctx ctx' : Context} (hparse : ctx.UnderParse)
    {ptr : ItemPointer} {id : Nat} (h : insert ctx ptr = .ok (ctx', id))
    (factories : List DataFactory) :
    KeepsLabels ctx' (heuristics factories ctx' id) ↔
      ∀ it d child src, ctx'.get id = .ok (it, .single child .nil) → it.body = .data d →
        child.body = .raw src → DataFactory.takenForString d src factories = true →
          child.labels = [] := by
  rcases insert_holds hparse.consistent h with ⟨it, hfind⟩ | ⟨it, d, child, src, hholds⟩
  · have hget := get_of_find? hfind
    rw [heuristics, hget, ok_bind]
    refine iff_of_true (.same ctx') fun it' d child src hget' => ?_
    cases hget'
  · have hget := get_of_find? hholds.find
    rw [heuristics, hget, ok_bind]
    refine (DataFactory.keepsLabels_check hholds factories).trans ⟨?_, ?_⟩
    · intro hnone it' d' child' src' hget' hdata hraw htaken
      cases hget'
      cases hholds.data.symm.trans hdata
      cases hholds.raw.symm.trans hraw
      exact hnone htaken
    · exact fun hnone => hnone it d child src rfl hholds.data hholds.raw

/-- An instruction that does not return, with a pointer to data, and one into them; the
data are "abcdef". Zeros are behind them. -/
def pointedString : Source :=
  .fromMemory (
    toBytes ({ isCall := 0, opcode := 6, paramCount := 1, size := 28 } : InstructionItem.Header) ++
    toBytes ({ param0 := 28, param4 := 48, param8 := 0x40000000 } : InstructionItem.Parameter) ++
    toBytes ({ type := 0, offsetUnit := 2, field8 := 1, length := 8 } : Header) ++
    [0x61, 0x62, 0x63, 0x64, 0x65, 0x66, 0, 0] ++ zeros 16)

/-- The end of the file is split off, and the instruction. -/
def pointedOps : List ParseOp :=
  [.split 0 68 .eof, .getLabelTo 28, .getLabelTo 48,
    .split 0 0 (.instruction
      { params := [.memOffset (locName 28) (.memOffset (locName 48)) (.immediate 0)]
        opcodeTarget := .opcode 6 })]

def pointedContext : Context :=
  ((run Context.parseStep (.root pointedString) pointedOps).toOption).getD .empty

theorem underParse_pointedContext : pointedContext.UnderParse :=
  ⟨pointedString, pointedOps,
    ⟨(fun hheader => nomatch hheader), fun _ _ => ⟨trivial, fun _ _ => ⟨trivial, fun _ _ =>
      ⟨(fun hheader => nomatch hheader), fun _ _ => trivial⟩⟩⟩⟩, rfl⟩

def allFactories : List DataFactory := [.int32, .float, .stringData, .gbnl]

theorem pointedContext_keepsLabels_iff : ∃ ctx' id,
    insert pointedContext ⟨0, 0⟩ = .ok (ctx', id) ∧
      (KeepsLabels ctx' (heuristics allFactories ctx' id) ↔
        ∀ it d child src, ctx'.get id = .ok (it, .single child .nil) → it.body = .data d →
          child.body = .raw src →
            DataFactory.takenForString d src allFactories = true → child.labels = []) := by
  have hinsert : (insert pointedContext ⟨0, 0⟩).toOption.map Prod.snd = some 3 := by
    decide +kernel
  obtain ⟨⟨ctx', id⟩, hinsert, -⟩ := exists_ok_of_toOption hinsert
  exact ⟨ctx', id, hinsert,
    heuristics_keepsLabels_iff underParse_pointedContext hinsert allFactories⟩

/-- The string takes the place of the data, and the label in them is lost. -/
theorem pointedContext_not_keepsLabels :
    ¬ ∀ (ctx ctx' : Context) (ptr : ItemPointer) (id : Nat) (factories : List DataFactory),
      ctx.UnderParse → insert ctx ptr = .ok (ctx', id) →
        KeepsLabels ctx' (heuristics factories ctx' id) := by
  intro hall
  have hinsert : (insert pointedContext ⟨0, 0⟩).toOption.map (fun y =>
      match heuristics allFactories y.1 y.2 with
      | .ok _ => false
      | .error e => decide (e = .disposed)) = some true := by
    decide +kernel
  obtain ⟨⟨ctx', id⟩, hinsert, hdisposed⟩ := exists_ok_of_toOption hinsert
  obtain ⟨hkeeps, -⟩ :=
    hall _ ctx' _ id allFactories underParse_pointedContext hinsert
  dsimp only at hdisposed
  split at hdisposed
  · cases hdisposed
  · rename_i e he
    exact hkeeps (of_decide_eq_true hdisposed ▸ he)

end DataItem

end Stcm

end Neptools

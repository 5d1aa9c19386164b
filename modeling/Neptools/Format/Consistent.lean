import Neptools.Format.Asks
import Neptools.Format.Registry

/-!
What holds in every context under parse, whatever the parser asks for: items are
told apart by their numbers, a label and its item know each other, and only the
items that can have children have some.
-/

namespace Neptools

open Lib

namespace Context

structure Consistent (ctx : Context) : Prop where
  distinct : (ctx.children.nodes.map Item.id).Nodup
  numbered : ∀ it ∈ ctx.children.nodes, it.id < ctx.nextId
  labelled : ∀ it ∈ ctx.children.nodes, it.Labelled ctx.labels
  attached : ∀ l ptr, ctx.labels.lookup l = some (some ptr) →
    ∃ it ∈ ctx.children.nodes, it.id = ptr.item ∧ l ∈ it.labels
  childless : ∀ it children, (it, children) ∈ ctx.children.subtrees →
    it.body.hasChildren = false → children = .nil
  /-- The header of a file is in no other item. -/
  headers : ∀ it ∈ ctx.children.inner, it.body.isHeader = false

theorem Consistent.registers {ctx : Context} (h : ctx.Consistent) : ctx.Registers [] where
  registered := by
    rw [List.append_nil]
    exact ⟨h.distinct, h.labelled, h.attached⟩
  numbered := by
    rw [List.append_nil]
    exact h.numbered
  childless := h.childless

theorem Registers.consistent {ctx : Context} (h : ctx.Registers [])
    (hheaders : ∀ it ∈ ctx.children.inner, it.body.isHeader = false) : ctx.Consistent := by
  have hregistered := h.registered
  have hnumbered := h.numbered
  rw [List.append_nil] at hregistered hnumbered
  exact ⟨hregistered.distinct, hnumbered, hregistered.labelled, hregistered.attached, h.childless,
    hheaders⟩

/-- Two items with one number are the same. -/
theorem Consistent.eq_of_id {ctx : Context} (h : ctx.Consistent) {a b : Item}
    (ha : a ∈ ctx.children.nodes) (hb : b ∈ ctx.children.nodes) (hid : a.id = b.id) : a = b :=
  List.inj_on_of_nodup_map h.distinct ha hb hid

theorem Consistent.find?_of_mem {ctx : Context} (h : ctx.Consistent) {it : Item}
    {children : ItemList} (hmem : (it, children) ∈ ctx.children.subtrees) :
    ctx.find? it.id = some (it, children) := by
  obtain ⟨k, hk⟩ := Hole.exists_plug hmem
  exact find?_hole hk (h.registers.apart hk List.mem_cons_self)

/-- The headers of a file when a place is filled anew. -/
theorem Consistent.headers_plug {ctx : Context} {k : Hole Item} {old loc : ItemList}
    (h : ctx.Consistent) (hk : ctx.children = k.plug old)
    (hloc : ∀ it ∈ if k.top then loc.inner else loc.nodes, it.body.isHeader = false) :
    ∀ it ∈ (k.plug loc).inner, it.body.isHeader = false := by
  intro it hit
  rw [Hole.mem_inner_plug] at hit
  rcases hit with hit | hit
  · refine h.headers it ?_
    rw [hk, Hole.mem_inner_plug]
    exact .inl hit
  · exact hloc it hit

theorem Consistent.create {ctx : Context} (h : ctx.Consistent) :
    ({ ctx with nextId := ctx.nextId + 1 } : Context).Consistent :=
  { h with numbered := fun it hit => Nat.lt_succ_of_lt (h.numbered it hit) }

theorem Consistent.root (src : Source) : (root src).Consistent where
  distinct := List.nodup_singleton _
  numbered := fun it hit => by
    rw [List.mem_singleton.mp hit]
    exact Nat.zero_lt_one
  labelled := fun it hit => by
    rw [List.mem_singleton.mp hit]
    exact .of_nil rfl
  attached := fun l ptr h => nomatch h
  childless := fun it children hmem _ => by
    cases List.mem_singleton.mp hmem
    rfl
  headers := fun it hit => nomatch hit

theorem Consistent.insertNew {ctx : Context} (h : ctx.Consistent) {name : LabelPtr}
    {ptr : ItemPointer} {x : Item × ItemList} (hname : name ∉ ctx.labels)
    (hfind : ctx.find? ptr.item = some x) : (ctx.insertNew name ptr).Consistent := by
  have hunset : ∀ ptr, ctx.labels.lookup name ≠ some (some ptr) := fun ptr hl =>
    hname (AList.lookup_isSome.mp (Option.isSome_of_mem hl))
  refine (h.registers.insertNew hunset hfind).consistent ?_
  obtain ⟨it, children⟩ := x
  obtain ⟨hid, k, hk, hapart⟩ := h.registers.exists_hole hfind
  have hk₁ : Context.children { ctx with labels := ctx.labels.insert name (some ptr) } =
      k.plug (.single it children) := hk
  rw [Context.insertNew, updateItem, ← hid, update_hole hk₁ (hid ▸ hapart)]
  refine h.headers_plug hk fun it' hit' => ?_
  have hheader : ∀ a ∈ if k.top then (Forest.single it children).inner
      else (Forest.single it children).nodes, a.body.isHeader = false := fun a ha => by
    refine h.headers a ?_
    rw [hk, Hole.mem_inner_plug]
    exact .inr ha
  cases htop : k.top with
  | true =>
      rw [htop] at hit' hheader
      exact hheader it' hit'
  | false =>
      rw [htop] at hit' hheader
      rcases List.mem_cons.mp hit' with rfl | hit'
      · exact hheader it List.mem_cons_self
      · exact hheader it' (List.mem_cons_of_mem _ hit')

/-- An item that is in no other is in no other under any number of its own. -/
theorem Consistent.top_of_root {ctx : Context} (h : ctx.Consistent) {k : Hole Item} {r : Item}
    {children : ItemList} (hk : ctx.children = k.plug (.single r children))
    (hroot : r.id ∈ ctx.children.roots.map Item.id) : k.top = true := by
  cases htop : k.top with
  | true => rfl
  | false =>
      have hinner : r ∈ ctx.children.inner := by
        rw [hk, Hole.mem_inner_plug, htop]
        exact .inr List.mem_cons_self
      have hdistinct := ((Forest.nodes_perm ctx.children).map Item.id).nodup_iff.mp h.distinct
      rw [List.map_append] at hdistinct
      exact absurd rfl
        ((List.nodup_append.mp hdistinct).2.2 _ hroot _ (List.mem_map_of_mem hinner))

theorem Consistent.fresh_create {ctx : Context} (h : ctx.Consistent) (body : Body) :
    (ctx.create body).2.Fresh (ctx.create body).1 where
  numbered := Nat.lt_succ_self _
  new := fun it hit => Nat.ne_of_lt (h.numbered it hit)

/-- Only what stands alone may be the header of a file. -/
def HeaderAlone (ctx : Context) (id : Nat) (body : Body) : Prop :=
  body.isHeader = true → id ∈ ctx.children.roots.map Item.id

instance (ctx : Context) (id : Nat) (body : Body) : Decidable (ctx.HeaderAlone id body) :=
  inferInstanceAs (Decidable (_ → _))

theorem Consistent.not_header {ctx : Context} (h : ctx.Consistent) {k : Hole Item} {r : Item}
    {children : ItemList} (hk : ctx.children = k.plug (.single r children)) {body : Body}
    (halone : ctx.HeaderAlone r.id body) (htop : k.top = false) : body.isHeader = false := by
  cases hheader : body.isHeader with
  | false => rfl
  | true => exact absurd (htop.symm.trans (h.top_of_root hk (halone hheader))) Bool.false_ne_true

theorem Fresh.registers {ctx : Context} {n : Item} (h : ctx.Consistent) (hnew : ctx.Fresh n)
    (hnone : n.labels = []) : ctx.Registers ((Forest.single n Forest.nil).nodes ++ []) :=
  h.registers.cons hnone hnew.numbered (by
    rw [List.append_nil]
    exact hnew.new)

theorem Consistent.replace {ctx ctx' : Context} (h : ctx.Consistent) {id : Nat} {n : Item}
    (hnew : ctx.Fresh n) (halone : ctx.HeaderAlone id n.body)
    (hreplace : ctx.replace id n .nil = .ok ctx') : ctx'.Consistent := by
  obtain ⟨⟨r, children⟩, hget, -⟩ := bind_eq_ok.mp hreplace
  obtain ⟨rfl, k, hk, hapart⟩ := h.registers.exists_hole (get_eq_ok hget)
  obtain ⟨-, hnone, -, hctx'⟩ := (replace_eq_ok hk hapart).mp hreplace
  refine ((hnew.registers h hnone).replace (childless_single n) hreplace).consistent ?_
  rw [hctx']
  refine h.headers_plug hk fun it hit => ?_
  cases htop : k.top with
  | true =>
      rw [htop] at hit
      cases hit
  | false =>
      rw [htop] at hit
      rw [List.mem_singleton.mp hit]
      exact h.not_header hk halone htop

theorem Parts.inner_items (p : Parts) (nextId size pos : Nat) (r n : Item) :
    (p.items nextId r size pos n .nil).inner = [] := by
  obtain ⟨rest, hrest⟩ : ∃ rest, size - n.getSize .nil - pos = rest := ⟨_, rfl⟩
  simp only [Parts.items, Parts.frontItems, Parts.newItem, Parts.backItems, hrest]
  by_cases hpos : pos = 0 <;> by_cases hzero : rest = 0 <;>
    simp [hpos, hzero, Forest.inner, Forest.single, Forest.nodes]

theorem Consistent.split2 {ctx ctx' : Context} (h : ctx.Consistent) {id pos : Nat} {n : Item}
    (hnew : ctx.Fresh n) (halone : ctx.HeaderAlone id n.body)
    (hsplit : ctx.split2 id pos n .nil = .ok ctx') : ctx'.Consistent := by
  obtain ⟨⟨r, children, src⟩, hraw, -⟩ := bind_eq_ok.mp hsplit
  obtain ⟨rfl, rfl, hbody, k, hk, hapart⟩ := h.registers.raw_hole hraw
  have hnone := split2_unlabelled hk hapart hbody hsplit
  have hr : r ∈ ctx.children.nodes := by
    rw [hk, mem_plug]
    exact .inr List.mem_cons_self
  obtain ⟨p, hp⟩ := split2_ok hk hapart hbody (h.labelled r hr)
    (fun it hit => by
      rw [List.mem_singleton.mp hit]
      exact decide_eq_false (hnew.new r hr).symm) (h.numbered r hr) hsplit
  refine ((hnew.registers h hnone).split2 (childless_single n) hsplit).consistent ?_
  rw [hp.children]
  refine h.headers_plug hk fun it hit => ?_
  cases htop : k.top with
  | true =>
      rw [htop, if_pos rfl, Parts.inner_items] at hit
      cases hit
  | false =>
      rw [htop] at hit
      rcases Parts.mem_items hit with rfl | hit | ⟨-, src', hbody'⟩
      · exact h.not_header hk halone htop
      · cases hit
      · rw [hbody']
        rfl

/-- `MoveNextToChild` of `x`: the first bytes of `next` are split off as `n`, and
this becomes the last child of `x`. -/
structure NestedAt (ctx ctx₁ ctx' : Context) (k : Hole Item) (x : Item) (cs : ItemList)
    (next n : Item) (src : Source) (p : Parts) : Prop where
  children : ctx.children = k.plug (.cons x cs (.single next .nil))
  split : ({ ctx with nextId := ctx.nextId + 1 } : Context).SplitAt ctx₁ (k.behind x cs) next src 0
    n .nil p
  nested : ctx' = { ctx₁ with
    children := (k.followed (p.backItems (ctx.nextId + 1) next src.size 0 (n.getSize .nil))).plug
      (.single x (cs ++ .single (p.newItem next 0 n) .nil))
    pmap := ctx₁.pmap.removedAll (.single (p.newItem next 0 n) .nil) }

/-- The items before the last one is moved. -/
theorem NestedAt.split_children {ctx ctx₁ ctx' : Context} {k : Hole Item} {x next n : Item}
    {cs : ItemList} {src : Source} {p : Parts} (h : ctx.NestedAt ctx₁ ctx' k x cs next n src p) :
    ctx₁.children =
      (k.followed (p.backItems (ctx.nextId + 1) next src.size 0 (n.getSize .nil))).plug
        (.cons x cs (.single (p.newItem next 0 n) .nil)) := by
  rw [h.split.children, Hole.plug_behind, Hole.plug_followed]
  rfl

theorem Consistent.splitRaw {ctx ctx' : Context} (h : ctx.Consistent) {id offset size i : Nat}
    (hsplit : ctx.splitRaw id offset size = .ok (ctx', i)) : ctx'.Consistent := by
  obtain ⟨r, src, sub, -, -, -, -, -, hsplit⟩ := h.registers.splitRaw_ok hsplit
  exact h.create.split2 ⟨Nat.lt_succ_self _, fun it hit => Nat.ne_of_lt (h.numbered it hit)⟩
    (fun hheader => by cases hheader) hsplit

theorem Consistent.moveNextToChild_ok {ctx ctx' : Context} (h : ctx.Consistent) {id size : Nat}
    (hmove : ctx.moveNextToChild id size = .ok ctx') :
    ∃ ctx₁ k x cs next src sub p, x.id = id ∧
      ctx.children.next? (isItem id) = some (next, .nil) ∧ next.body = .raw src ∧ size ≤ src.size ∧
      sub.bytes = Lib.slice src.bytes 0 size ∧ ctx₁.Consistent ∧
      ctx.NestedAt ctx₁ ctx' k x cs next
        { id := ctx.nextId, position := next.position + 0, labels := [], body := .raw sub } src p := by
  rw [moveNextToChild] at hmove
  split at hmove
  · cases hmove
  · rename_i next ds hnext
    obtain ⟨_, -, hmove⟩ := bind_eq_ok.mp hmove
    obtain ⟨⟨ctx₁, nchild⟩, hsplit, hmove⟩ := bind_eq_ok.mp hmove
    have h₁ := h.splitRaw hsplit
    obtain ⟨k, x, cs, hx, hk⟩ := Hole.exists_plug_next hnext
    have hid : x.id = id := of_decide_eq_true hx
    obtain ⟨r, src, sub, hraw, hle, -, hbytes, rfl, hsplit⟩ := h.registers.splitRaw_ok hsplit
    obtain ⟨-, hrid, hbody, k', hk', -⟩ := h.registers.raw_hole hraw
    -- The item that follows is the raw one that is split.
    have hnextMem : next ∈ ctx.children.nodes := by
      rw [hk, mem_plug]
      exact .inr (List.mem_cons_of_mem _ (List.mem_append_right _ List.mem_cons_self))
    have hrMem : r ∈ ctx.children.nodes := by
      rw [hk', mem_plug]
      exact .inr List.mem_cons_self
    cases h.eq_of_id hrMem hnextMem hrid
    have hds : ds = .nil := by
      refine h.childless next ds ?_ (by rw [hbody]; rfl)
      rw [hk, Hole.mem_subtrees_plug]
      exact .inl (List.mem_cons_of_mem _ (List.mem_append_right _ List.mem_cons_self))
    subst hds
    have hbehind : ctx.children = (k.behind x cs).plug (.single next .nil) := by
      rw [Hole.plug_behind, hk]
    have hapart : Apart next.id (k.behind x cs) := h.registers.apart hbehind List.mem_cons_self
    have hlt := h.numbered next hrMem
    have hbehind₁ : Context.children { ctx with nextId := ctx.nextId + 1 } =
        (k.behind x cs).plug (.single next .nil) := hbehind
    obtain ⟨p, hp⟩ := split2_ok hbehind₁ hapart hbody
      (h.labelled next hrMem) (fun it hit => by
        rw [List.mem_singleton.mp hit]
        exact decide_eq_false (Nat.ne_of_gt hlt)) (Nat.lt_succ_of_lt hlt) hsplit
    refine ⟨ctx₁, k, x, cs, next, src, sub, p, hid, hnext, hbody, by omega, hbytes, h₁, hk, hp, ?_⟩
    generalize hn : ({ id := ctx.nextId, position := next.position + 0, labels := [], body := .raw sub }
      : Item) = n at hp
    have hnid : (p.newItem next 0 n).id = ctx.nextId := by
      rw [← hn]
      rfl
    generalize hback : p.backItems (ctx.nextId + 1) next src.size 0 (n.getSize .nil) = back
    have hchild : ctx₁.children =
        ((k.behind x cs).followed back).plug (.single (p.newItem next 0 n) .nil) := by
      rw [hp.children, Hole.plug_followed, ← hback]
      rfl
    have hpair : ctx₁.children =
        (k.followed back).plug (.cons x cs (.single (p.newItem next 0 n) .nil)) := by
      rw [hchild, Hole.plug_followed, Hole.plug_followed, Hole.plug_behind]
      rfl
    have hapartN := h₁.registers.apart hchild List.mem_cons_self
    have hapartX := h₁.registers.apart hpair List.mem_cons_self
    have hget := get_hole hchild hapartN
    have hupdate := update_hole hchild hapartN fun _ _ => .nil
    rw [hnid] at hget hupdate
    simp only [hget, ok_bind, hupdate] at hmove
    cases hmove
    have hrest : ((k.behind x cs).followed back).plug .nil = (k.followed back).plug (.single x cs) := by
      rw [Hole.plug_followed, Hole.plug_followed, Hole.plug_behind]
      rfl
    rw [hrest, ← hid, Hole.update_plug hapartX.before hapartX.after,
      Hole.update_single (isItem_self x)]

theorem Consistent.nest {ctx ctx' : Context} (h : ctx.Consistent) {id size : Nat}
    (hnest : ctx.nest id size = .ok ctx') : ctx'.Consistent := by
  obtain ⟨⟨it, its⟩, hget, hnest⟩ := bind_eq_ok.mp hnest
  obtain ⟨_, hkind, hnest⟩ := bind_eq_ok.mp hnest
  obtain ⟨ctx₁, k, x, cs, next, src, sub, p, hid, -, -, -, -, h₁, hat⟩ := h.moveNextToChild_ok hnest
  have hpair := hat.split_children
  obtain ⟨hmem, hid'⟩ := find?_some (get_eq_ok hget)
  have hx : x ∈ ctx.children.nodes := by
    rw [hat.children, mem_plug]
    exact .inr List.mem_cons_self
  have hxchildren : x.body.hasChildren = true := by
    rw [h.eq_of_id hx (Forest.mem_nodes.mpr ⟨its, hmem⟩) (hid.trans hid'.symm)]
    exact require_eq_ok.mp hkind
  rw [hat.nested]
  generalize hn : p.newItem next 0 _ = n at hpair ⊢
  have hnheader : n.body.isHeader = false := by
    rw [← hn]
    rfl
  generalize p.backItems (ctx.nextId + 1) next src.size 0 _ = back at hpair ⊢
  -- The items are the same ones, in the same order.
  have hnodes : (Forest.single x (cs ++ .single n .nil)).nodes =
      (Forest.cons x cs (.single n .nil)).nodes := by
    rw [Forest.single, Forest.nodes, Forest.nodes, Forest.nodes_append, Forest.nodes,
      List.append_nil]
  have hin : ∀ it' ∈ (Forest.single x (cs ++ .single n .nil)).nodes, it' ∈ ctx₁.children.nodes := by
    intro it' hit'
    rw [hpair, mem_plug, ← hnodes]
    exact .inr hit'
  obtain ⟨ctx₂, hctx₂⟩ : ∃ ctx₂ : Context, ctx₂ = { ctx₁ with
      children := (k.followed back).plug (.single x (cs ++ .single n .nil))
      pmap := ctx₁.pmap.removedAll (.single n .nil) } := ⟨_, rfl⟩
  rw [← hctx₂]
  have hk₂ : ctx₂.children = (k.followed back).plug (.single x (cs ++ .single n .nil)) := by
    rw [hctx₂]
  have hlabels₂ : ctx₂.labels = ctx₁.labels := by rw [hctx₂]
  have hnext₂ : ctx₂.nextId = ctx₁.nextId := by rw [hctx₂]
  refine (h₁.registers.refill hpair hk₂ (by simp [Forest.single]) ?_ (Nat.le_of_eq hnext₂.symm)
    (fun it' hit' => ?_) ?_).consistent
    (hk₂ ▸ h₁.headers_plug hpair ?_)
  · rw [hnodes, hlabels₂]
    exact h₁.registers.around hpair
  · rw [List.append_nil] at hit'
    exact hnext₂ ▸ h₁.numbered it' (hin it' hit')
  · intro it' children' hmem' hnone
    have hold : (it', children') ∈ (Forest.cons x cs (.single n .nil)).subtrees →
        children' = .nil := fun hmem'' => by
      refine h₁.childless it' children' ?_ hnone
      rw [hpair, Hole.mem_subtrees_plug]
      exact .inl hmem''
    rcases List.mem_cons.mp hmem' with heq | hmem'
    · cases heq
      exact absurd (hnone.symm.trans hxchildren) Bool.false_ne_true
    · refine hold (List.mem_cons_of_mem _ ?_)
      rwa [Forest.subtrees_append, Forest.subtrees, List.append_nil] at hmem'
  · intro it' hit'
    have hold : ∀ a ∈ if (k.followed back).top then (Forest.cons x cs (.single n .nil)).inner
        else (Forest.cons x cs (.single n .nil)).nodes, a.body.isHeader = false := fun a ha => by
      refine h₁.headers a ?_
      rw [hpair, Hole.mem_inner_plug]
      exact .inr ha
    cases htop : (k.followed back).top with
    | true =>
        rw [htop] at hit' hold
        rw [if_pos rfl, Forest.single, Forest.inner, Forest.nodes_append, List.append_assoc,
          List.mem_append, List.mem_append] at hit'
        rcases hit' with hit' | hit' | hit'
        · exact hold it' (List.mem_append_left _ hit')
        · rw [List.mem_singleton.mp hit']
          exact hnheader
        · cases hit'
    | false =>
        rw [htop] at hit' hold
        exact hold it' (hnodes ▸ hit')

theorem Consistent.createLabelFallback {ctx : Context} (h : ctx.Consistent) (name : LabelPtr)
    {ptr : ItemPointer} {x : Item × ItemList} (hget : ctx.get ptr.item = .ok x) :
    (ctx.createLabelFallback name ptr).1.Consistent :=
  h.insertNew (freshName_not_mem ctx.labels name) (get_eq_ok hget)

theorem Consistent.getLabelToPtr {ctx : Context} (h : ctx.Consistent) {ptr : ItemPointer}
    {y : Context × LabelPtr} (hlabel : ctx.getLabelToPtr ptr = .ok y) : y.1.Consistent := by
  rcases getLabelToPtr_ok hlabel with ⟨hsame, -⟩ | ⟨x, name, hget, rfl⟩
  · exact hsame ▸ h
  · exact h.createLabelFallback name hget

theorem Consistent.getLabelToNamed {ctx : Context} (h : ctx.Consistent) {pos : Nat}
    {name : LabelPtr} {y : Context × LabelPtr} (hlabel : ctx.getLabelToNamed pos name = .ok y) :
    y.1.Consistent := by
  obtain ⟨ptr, -, ⟨hsame, -⟩ | ⟨x, hget, rfl⟩⟩ := getLabelToNamed_ok hlabel
  · exact hsame ▸ h
  · exact h.createLabelFallback name hget

theorem Consistent.splitCreate {ctx ctx' : Context} (h : ctx.Consistent) {id pos : Nat}
    {body : Body} (halone : ctx.HeaderAlone id body)
    (hsplit : ctx.splitCreate id pos body = .ok ctx') : ctx'.Consistent :=
  h.create.split2 (h.fresh_create body) halone hsplit

/-- The number of a new item is that of the context. -/
theorem Consistent.splitCreate_ok {ctx ctx' : Context} (h : ctx.Consistent) {id pos : Nat}
    {body : Body} (hsplit : ctx.splitCreate id pos body = .ok ctx') :
    ∃ (k : Hole Item) (r : Item) (src : Source) (p : Parts), r.id = id ∧ r.body = .raw src ∧
      ctx.children = k.plug (.single r .nil) ∧ Apart r.id k ∧ Apart ctx.nextId k ∧
      pos + body.ownSize ≤ src.size ∧
      ({ ctx with nextId := ctx.nextId + 1 } : Context).SplitAt ctx' k r src pos
        { id := ctx.nextId, position := 0, labels := [], body } .nil p := by
  obtain ⟨⟨r, children, src⟩, hraw, -⟩ := bind_eq_ok.mp hsplit
  obtain ⟨rfl, rfl, hbody, k, hk, hapart⟩ := h.create.registers.raw_hole hraw
  have hr : r ∈ ctx.children.nodes := by
    rw [hk, mem_plug]
    exact .inr List.mem_cons_self
  have hlt := h.numbered r hr
  have hfresh := h.fresh_create body
  obtain ⟨p, hp⟩ := split2_ok hk hapart hbody (h.labelled r hr)
    (fun it hit => by
      rw [List.mem_singleton.mp hit]
      exact decide_eq_false (Nat.ne_of_gt hlt)) (Nat.lt_succ_of_lt hlt) hsplit
  exact ⟨k, r, src, p, rfl, hbody, hk, hapart, hfresh.apart hk, split2_le hk hapart hbody hsplit, hp⟩

/-- The header of a file is split off from what stands alone. -/
def HeadersAlone (ctx : Context) : ParseOp → Prop
  | .split id _ body => ctx.HeaderAlone id body
  | .replace id body => ctx.HeaderAlone id body
  | _ => True

instance (ctx : Context) : DecidablePred ctx.HeadersAlone
  | .split id _ body | .replace id body => inferInstanceAs (Decidable (ctx.HeaderAlone id body))
  | .getLabelTo _ | .getLabelToNamed _ _ | .createLabelFallback _ _ | .create _ | .splitRaw _ _ _
  | .moveNextToChild _ _ | .expansions _ _ _ => .isTrue trivial

theorem Consistent.parseStep {ctx ctx' : Context} {op : ParseOp} (h : ctx.Consistent)
    (halone : ctx.HeadersAlone op) (hstep : ctx.parseStep op = .ok ctx') : ctx'.Consistent := by
  cases op with
  | getLabelTo pos =>
      obtain ⟨y, hlabel, hstep⟩ := bind_eq_ok.mp hstep
      cases hstep
      obtain ⟨ptr, -, hlabel⟩ := bind_eq_ok.mp hlabel
      exact h.getLabelToPtr hlabel
  | getLabelToNamed pos name =>
      obtain ⟨y, hlabel, hstep⟩ := bind_eq_ok.mp hstep
      cases hstep
      exact h.getLabelToNamed hlabel
  | createLabelFallback name ptr =>
      obtain ⟨x, hget, hstep⟩ := bind_eq_ok.mp hstep
      cases hstep
      exact h.createLabelFallback name hget
  | create body =>
      cases hstep
      exact h.create
  | split id pos body => exact h.splitCreate halone hstep
  | splitRaw id offset size =>
      obtain ⟨y, hsplit, hstep⟩ := bind_eq_ok.mp hstep
      cases hstep
      exact h.splitRaw hsplit
  | replace id body => exact h.create.replace (h.fresh_create body) halone hstep
  | moveNextToChild id size => exact h.nest hstep
  | expansions id pos size =>
      obtain ⟨ctx₁, hsplit, hstep⟩ := bind_eq_ok.mp hstep
      exact (h.splitCreate (fun hheader => by cases hheader) hsplit).nest hstep

/-- What a parser can make of the bytes of a file. -/
def UnderParse (ctx : Context) : Prop :=
  ∃ (src : Source) (ops : List ParseOp),
    EveryStep Context.parseStep HeadersAlone (root src) ops ∧
      run Context.parseStep (root src) ops = .ok ctx

theorem UnderParse.consistent {ctx : Context} (h : ctx.UnderParse) : ctx.Consistent := by
  obtain ⟨src, ops, halone, hrun⟩ := h
  exact run_preserves_of_everyStep _ (fun _ _ _ hs hop hstep => hs.parseStep hop hstep)
    (.root src) halone hrun

end Context

end Neptools

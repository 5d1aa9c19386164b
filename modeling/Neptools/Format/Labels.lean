import Neptools.Format.Consistent

/-!
What a script can do with the labels of a context, and with its items. The script
has items that are in no list yet, or no longer, and these can have labels too.
-/

namespace Neptools

open Lib

/-- `labels.insert`: a label that is there stays, and then it says so. -/
def LabelsMap.insertUnique (labels : LabelsMap) (name : LabelPtr) (ptr : Option ItemPointer) :
    LabelsMap × Bool :=
  if name ∈ labels then (labels, false) else (labels.insert name ptr, true)

/-- `labels.remove_node` -/
def Item.removeLabel (l : LabelPtr) (it : Item) : Item := { it with labels := it.labels.erase l }

namespace Context

/-- `CreateLabel`, with what the context is when it throws. -/
def createLabel (ctx : Context) (name : LabelPtr) (ptr : ItemPointer) :
    Context × Except Error LabelPtr :=
  let (labels, inserted) := ctx.labels.insertUnique name (some ptr)
  if inserted then
    ({ ctx with labels }.updateItem ptr.item (Item.insertLabel labels name), .ok name)
  else ({ ctx with labels }, .error (.outOfRange "label already exists"))

def createOrSetLabel (ctx : Context) (name : LabelPtr) (ptr : ItemPointer) : Context :=
  match ctx.labels.lookup name with
  | some (some old) => (ctx.updateItem old.item (Item.removeLabel name)).insertNew name ptr
  | _ => ctx.insertNew name ptr

def getOrCreateDummyLabel (ctx : Context) (name : LabelPtr) : Context :=
  { ctx with labels := (ctx.labels.insertUnique name none).1 }

end Context

/-- All item objects. Those in `loose` have no parent: `ctx.children` has them
next to the items of the file. -/
structure Objects where
  ctx : Context
  loose : List Nat

inductive ObjectOp
  | create (body : Body)
  | createLabel (name : LabelPtr) (ptr : ItemPointer)
  | createLabelFallback (name : LabelPtr) (ptr : ItemPointer)
  | createOrSetLabel (name : LabelPtr) (ptr : ItemPointer)
  | getOrCreateDummyLabel (name : LabelPtr)
  | getLabelToPtr (ptr : ItemPointer)
  | getLabelTo (pos : Nat)
  | getLabelToNamed (pos : Nat) (name : LabelPtr)
  /-- `Split(offset, size)` -/
  | splitRaw (id offset size : Nat)
  /-- `Split(pos, nitem)` -/
  | split (id pos nitem : Nat)
  /-- `Replace`. The item that is replaced stays if the script still has it. -/
  | replace (id nitem : Nat) (held : Bool)

namespace Objects

def empty : Objects := { ctx := .empty, loose := [] }

/-- An item that is to be put in a list, without it. -/
def take (o : Objects) (id : Nat) : Except Error (Item × ItemList × Objects) := do
  require (id ∈ o.loose) (Error.assertionFailed "!is_linked()")
  match o.ctx.children.takeRoot? (Context.isItem id) with
  | none => throw .undefinedBehaviour
  | some (it, children, rest) =>
      pure (it, children, { ctx := { o.ctx with children := rest }, loose := o.loose.erase id })

/-- `GetParent()` of the item is not null. -/
def requireParent (o : Objects) (id : Nat) : Except Error Unit :=
  require (id ∉ o.loose) (Error.assertionFailed "no parent")

def create (o : Objects) (body : Body) : Objects :=
  let (it, ctx) := o.ctx.create body
  { ctx := { ctx with children := ctx.children ++ .single it .nil }, loose := it.id :: o.loose }

def splitRaw (o : Objects) (id offset size : Nat) : Except Error Objects := do
  o.requireParent id
  let (ctx, _) ← o.ctx.splitRaw id offset size
  pure { o with ctx }

def split (o : Objects) (id pos nitem : Nat) : Except Error Objects := do
  let (nitem, nchildren, o) ← o.take nitem
  o.requireParent id
  let ctx ← o.ctx.split2 id pos nitem nchildren
  pure { o with ctx }

def replace (o : Objects) (id nitem : Nat) (held : Bool) : Except Error Objects := do
  let (nitem, nchildren, o) ← o.take nitem
  o.requireParent id
  if held then do
    let (it, children) ← o.ctx.get id
    -- it keeps its children, but not its labels
    let ctx := { o.ctx with
      children := o.ctx.children.update (Context.isItem id) fun it _ => .single it .nil }
    let ctx ← ctx.replace id nitem nchildren
    pure
      { ctx := { ctx with
          children := ctx.children ++ .single { it with labels := [] } children
          pmap := PointerMap.removedAll ctx.pmap children }
        loose := id :: o.loose }
  else do
    let ctx ← o.ctx.replace id nitem nchildren
    pure { o with ctx }

/-- The script goes on when `CreateLabel` throws. -/
def step (o : Objects) : ObjectOp → Except Error Objects
  | .create body => pure (o.create body)
  | .createLabel name ptr => do
      let _ ← o.ctx.get ptr.item
      pure { o with ctx := (o.ctx.createLabel name ptr).1 }
  | .createLabelFallback name ptr => do
      let _ ← o.ctx.get ptr.item
      pure { o with ctx := (o.ctx.createLabelFallback name ptr).1 }
  | .createOrSetLabel name ptr => do
      let _ ← o.ctx.get ptr.item
      pure { o with ctx := o.ctx.createOrSetLabel name ptr }
  | .getOrCreateDummyLabel name => pure { o with ctx := o.ctx.getOrCreateDummyLabel name }
  | .getLabelToPtr ptr => do
      let (ctx, _) ← o.ctx.getLabelToPtr ptr
      pure { o with ctx }
  | .getLabelTo pos => do
      let (ctx, _) ← o.ctx.getLabelTo pos
      pure { o with ctx }
  | .getLabelToNamed pos name => do
      let (ctx, _) ← o.ctx.getLabelToNamed pos name
      pure { o with ctx }
  | .splitRaw id offset size => o.splitRaw id offset size
  | .split id pos nitem => o.split id pos nitem
  | .replace id nitem held => o.replace id nitem held

/-! The registry through each step. -/

variable {o o' : Objects}

def Consistent (o : Objects) : Prop := o.ctx.Registers []

theorem consistent_underParse {ctx : Context} (h : ctx.UnderParse) :
    Consistent { ctx, loose := [] } := h.consistent.registers

theorem consistent_empty : empty.Consistent where
  registered := ⟨List.nodup_nil, fun _ hit => (nomatch hit), fun _ _ hl => nomatch hl⟩
  numbered := fun _ hit => nomatch hit
  childless := fun _ _ hmem => nomatch hmem

end Objects

namespace Context

variable {ctx : Context} {extra : List Item}

/-- An item is put at the end of the list. -/
theorem Registers.push {n : Item} {nchildren : ItemList} {pmap : PointerMap}
    (h : ctx.Registers ((Forest.single n nchildren).nodes ++ extra))
    (hkinds : Childless (.single n nchildren)) :
    ({ ctx with children := ctx.children ++ .single n nchildren, pmap } : Context).Registers
      extra := by
  refine ⟨?_, ?_, fun it children hmem => ?_⟩
  · rw [Forest.nodes_append, List.append_assoc]
    exact h.registered
  · rw [Forest.nodes_append, List.append_assoc]
    exact h.numbered
  · rw [Forest.subtrees_append] at hmem
    rcases List.mem_append.mp hmem with hmem | hmem
    · exact h.childless it children hmem
    · exact hkinds it children hmem

theorem Registers.createLabelFallback (h : ctx.Registers []) (name : LabelPtr)
    {ptr : ItemPointer} {x : Item × ItemList} (hget : ctx.get ptr.item = .ok x) :
    (ctx.createLabelFallback name ptr).1.Registers [] :=
  h.insertNew (fun _ hl => freshName_not_mem ctx.labels name
    (AList.lookup_isSome.mp (Option.isSome_of_mem hl))) (get_eq_ok hget)

theorem Registers.createLabel (h : ctx.Registers []) (name : LabelPtr)
    {ptr : ItemPointer} {x : Item × ItemList} (hget : ctx.get ptr.item = .ok x) :
    (ctx.createLabel name ptr).1.Registers [] := by
  rw [Context.createLabel, LabelsMap.insertUnique]
  by_cases hname : name ∈ ctx.labels
  · rw [if_pos hname]
    exact h
  · rw [if_neg hname]
    exact h.insertNew (fun _ hl => hname (AList.lookup_isSome.mp (Option.isSome_of_mem hl)))
      (get_eq_ok hget)

theorem Registers.getOrCreateDummyLabel (h : ctx.Registers []) (name : LabelPtr) :
    (ctx.getOrCreateDummyLabel name).Registers [] := by
  rw [Context.getOrCreateDummyLabel, LabelsMap.insertUnique]
  by_cases hname : name ∈ ctx.labels
  · rw [if_pos hname]
    exact h
  · rw [if_neg hname]
    exact { h with
      registered := h.registered.dummy fun _ hl =>
        hname (AList.lookup_isSome.mp (Option.isSome_of_mem hl)) }

theorem exists_find? {id : Nat} (h : id ∈ ctx.children.nodes.map Item.id) :
    ∃ x, ctx.find? id = some x := by
  obtain ⟨it, hit, rfl⟩ := List.mem_map.mp h
  refine Option.ne_none_iff_exists'.mp fun hnone => ?_
  exact Bool.false_ne_true ((Forest.find?_eq_none.mp hnone it hit).symm.trans (isItem_self it))

/-- The label is taken off the item it is on, and put where it is set to. -/
theorem Registers.createOrSetLabel (h : ctx.Registers []) (name : LabelPtr) {ptr : ItemPointer}
    {x : Item × ItemList} (hget : ctx.get ptr.item = .ok x) :
    (ctx.createOrSetLabel name ptr).Registers [] := by
  have hfind := get_eq_ok hget
  rw [Context.createOrSetLabel]
  split
  · rename_i old hold
    obtain ⟨it, hit, hid, hmem⟩ := h.registered.attached name old hold
    rw [List.append_nil] at hit
    obtain ⟨⟨it', children⟩, hfind'⟩ := exists_find? (List.mem_map_of_mem hit)
    obtain ⟨hid', k, hk, hapart⟩ := h.exists_hole hfind'
    have hmem' : it' ∈ ctx.children.nodes ++ [] := by
      rw [List.append_nil, hk, mem_plug]
      exact .inr List.mem_cons_self
    cases h.registered.eq_of_id hmem' (by rwa [List.append_nil]) hid'
    have hk' : (ctx.updateItem old.item (Item.removeLabel name)).children =
        k.plug (.single (it.removeLabel name) children) := hid ▸ update_hole hk (hid ▸ hapart) _
    -- In between it is as if the label was a dummy.
    have hk₁ : Context.children { ctx.updateItem old.item (Item.removeLabel name) with
        labels := ctx.labels.insert name none } =
          k.plug (.single (it.removeLabel name) children) := hk'
    have hdetach := h.retouch hk hk₁ rfl rfl rfl ((h.around hk).detach hmem)
    have hids : (ctx.updateItem old.item (Item.removeLabel name)).children.nodes.map Item.id =
        ctx.children.nodes.map Item.id :=
      Forest.map_nodes_update (f := Item.id) (g := Item.removeLabel name) (fun _ => rfl) _
    obtain ⟨y, hy⟩ : ∃ y, ({ ctx.updateItem old.item (Item.removeLabel name) with
        labels := ctx.labels.insert name none } : Context).find? ptr.item = some y := by
      refine exists_find? ?_
      have hnode := (find?_some hfind)
      exact hids ▸ hnode.2 ▸ List.mem_map_of_mem (Forest.mem_nodes.mpr ⟨_, hnode.1⟩)
    have hunset : ∀ ptr, (ctx.labels.insert name none).lookup name ≠ some (some ptr) :=
      fun _ hl => by
        rw [AList.lookup_insert] at hl
        cases hl
    have hset := hdetach.insertNew hunset hy
    rw [Context.insertNew, AList.insert_insert] at hset
    exact hset
  · rename_i hunset
    exact h.insertNew hunset hfind

theorem Registers.getLabelToPtr (h : ctx.Registers []) {ptr : ItemPointer}
    {y : Context × LabelPtr} (hlabel : ctx.getLabelToPtr ptr = .ok y) : y.1.Registers [] := by
  rcases getLabelToPtr_ok hlabel with ⟨hsame, -⟩ | ⟨x, name, hget, rfl⟩
  · exact hsame ▸ h
  · exact h.createLabelFallback name hget

theorem Registers.getLabelToNamed (h : ctx.Registers []) {pos : Nat} {name : LabelPtr}
    {y : Context × LabelPtr} (hlabel : ctx.getLabelToNamed pos name = .ok y) :
    y.1.Registers [] := by
  obtain ⟨ptr, -, ⟨hsame, -⟩ | ⟨x, hget, rfl⟩⟩ := getLabelToNamed_ok hlabel
  · exact hsame ▸ h
  · exact h.createLabelFallback name hget

end Context

namespace Objects

open Context

variable {o o' : Objects}

theorem Consistent.take (h : o.Consistent) {id : Nat} {n : Item} {nchildren : ItemList}
    (htake : o.take id = .ok (n, nchildren, o')) :
    o'.ctx.Registers ((Forest.single n nchildren).nodes ++ []) ∧
      Childless (.single n nchildren) := by
  obtain ⟨_, -, htake⟩ := bind_eq_ok.mp htake
  split at htake
  · cases htake
  · rename_i it children rest hroot
    cases htake
    obtain ⟨-, hsubtrees, hnodes⟩ := Forest.takeRoot?_some hroot
    refine ⟨⟨?_, fun it hit => ?_, fun it children hmem => ?_⟩, fun it children hmem => ?_⟩
    · have hregistered := h.registered
      rw [List.append_nil] at hregistered ⊢
      exact hregistered.perm hnodes
    · rw [List.append_nil] at hit
      refine h.numbered it ?_
      rw [List.append_nil]
      exact hnodes.mem_iff.mpr hit
    · exact h.childless it children (hsubtrees.mem_iff.mpr (List.mem_append_left _ hmem))
    · exact h.childless it children (hsubtrees.mem_iff.mpr (List.mem_append_right _ hmem))

theorem Consistent.create (h : o.Consistent) (body : Body) : (o.create body).Consistent :=
  (h.bump.cons rfl (Nat.lt_succ_self _) fun it hit => Nat.ne_of_lt (h.numbered it hit)).push
    (childless_single _)

theorem Consistent.split (h : o.Consistent) {id pos nitem : Nat}
    (hsplit : o.split id pos nitem = .ok o') : o'.Consistent := by
  obtain ⟨⟨n, nchildren, o₁⟩, htake, hsplit⟩ := bind_eq_ok.mp hsplit
  obtain ⟨_, -, hsplit⟩ := bind_eq_ok.mp hsplit
  obtain ⟨ctx, hsplit', heq⟩ := bind_eq_ok.mp hsplit
  cases heq
  obtain ⟨hrest, hkinds⟩ := h.take htake
  exact hrest.split2 hkinds hsplit'

/-- The children of an item are put aside. -/
theorem hide {ctx : Context} {extra : List Item} (h : ctx.Registers extra) {k : Hole Item}
    {it : Item} {children : ItemList} (hk : ctx.children = k.plug (.single it children)) :
    ({ ctx with children := k.plug (.single it .nil) } : Context).Registers
      (extra ++ children.nodes) := by
  have hin : ∀ a ∈ (Forest.single it children).nodes, a ∈ ctx.children.nodes := fun a ha => by
    rw [hk, mem_plug]
    exact .inr ha
  refine h.refill hk rfl (fun hnil => nomatch hnil) ?_ (Nat.le_refl _) (fun a ha => ?_)
    (childless_single it)
  · refine (h.around hk).perm ?_
    rw [nodes_single, nodes_single, List.cons_append, List.cons_append,
      ← List.append_assoc _ extra]
    exact .cons it List.perm_append_comm
  · rcases List.mem_append.mp ha with ha | ha
    · rw [List.mem_singleton.mp ha]
      exact (h.item_mem (hin it List.mem_cons_self)).2
    · rcases List.mem_append.mp ha with ha | ha
      · exact h.numbered a (List.mem_append_right _ ha)
      · refine (h.item_mem (hin a ?_)).2
        rw [nodes_single]
        exact List.mem_cons_of_mem _ ha

theorem Consistent.replace (h : o.Consistent) {id nitem : Nat} {held : Bool}
    (hreplace : o.replace id nitem held = .ok o') : o'.Consistent := by
  obtain ⟨⟨n, nchildren, o₁⟩, htake, hreplace⟩ := bind_eq_ok.mp hreplace
  obtain ⟨_, -, hreplace⟩ := bind_eq_ok.mp hreplace
  obtain ⟨hrest, hkinds⟩ := h.take htake
  cases held with
  | false =>
      obtain ⟨ctx, hreplace', heq⟩ := bind_eq_ok.mp hreplace
      cases heq
      exact hrest.replace hkinds hreplace'
  | true =>
      obtain ⟨⟨it, children⟩, hget, hreplace⟩ := bind_eq_ok.mp hreplace
      obtain ⟨ctx, hreplace', heq⟩ := bind_eq_ok.mp hreplace
      cases heq
      obtain ⟨rfl, k, hk, hapart⟩ := hrest.exists_hole (get_eq_ok hget)
      rw [update_hole hk hapart] at hreplace'
      have hhidden := hide hrest hk
      rw [List.append_assoc, List.nil_append] at hhidden
      have hnew := hhidden.replace hkinds hreplace'
      -- The item that was replaced has a number of its own.
      have hk' : Context.children { o₁.ctx with children := k.plug (.single it .nil) } =
          k.plug (.single it .nil) := rfl
      obtain ⟨-, -, -, rfl⟩ := (replace_eq_ok hk' hapart).mp hreplace'
      have hids := (hrest.around hk).distinct
      rw [nodes_single it, List.cons_append, List.map_cons, List.nodup_cons, List.append_nil,
        List.map_append, List.mem_append, List.map_append, List.mem_append, not_or, not_or] at hids
      obtain ⟨⟨hchildren, haround, hn⟩, -⟩ := hids
      have hmem : it ∈ o₁.ctx.children.nodes := by
        rw [hk, mem_plug]
        exact .inr List.mem_cons_self
      have hcons := hnew.cons (n := { it with labels := [] }) rfl (hrest.item_mem hmem).2
        fun a ha heq => by
          rcases List.mem_append.mp ha with ha | ha
          · rcases mem_plug.mp ha with ha | ha
            · exact haround (heq ▸ List.mem_map_of_mem (List.mem_append.mpr ha))
            · rw [nodes_single, List.mem_cons] at ha
              rcases ha with rfl | ha
              · exact hn (List.mem_map.mpr ⟨n, List.mem_cons_self, heq⟩)
              · refine hn (heq ▸ List.mem_map_of_mem ?_)
                rw [nodes_single]
                exact List.mem_cons_of_mem _ ha
          · exact hchildren (heq ▸ List.mem_map_of_mem ha)
      have hlist : { it with labels := [] } :: children.nodes =
          (Forest.single { it with labels := [] } children).nodes ++ [] := by
        rw [nodes_single, List.append_nil]
      refine (hlist ▸ hcons).push fun a cs ha hnone => ?_
      have hkind : Childless (.single it children) := fun b bs hb => by
        refine hrest.childless b bs ?_
        rw [hk, Hole.mem_subtrees_plug]
        exact .inl hb
      rcases List.mem_cons.mp ha with heq | ha
      · cases heq
        exact hkind it children List.mem_cons_self hnone
      · exact hkind a cs (List.mem_cons_of_mem _ ha) hnone

theorem Consistent.step {op : ObjectOp} (h : o.Consistent) (hstep : o.step op = .ok o') :
    o'.Consistent := by
  cases op with
  | create body =>
      cases hstep
      exact h.create body
  | createLabel name ptr =>
      obtain ⟨x, hget, hstep⟩ := bind_eq_ok.mp hstep
      cases hstep
      exact h.createLabel name hget
  | createLabelFallback name ptr =>
      obtain ⟨x, hget, hstep⟩ := bind_eq_ok.mp hstep
      cases hstep
      exact h.createLabelFallback name hget
  | createOrSetLabel name ptr =>
      obtain ⟨x, hget, hstep⟩ := bind_eq_ok.mp hstep
      cases hstep
      exact h.createOrSetLabel name hget
  | getOrCreateDummyLabel name =>
      cases hstep
      exact h.getOrCreateDummyLabel name
  | getLabelToPtr ptr =>
      obtain ⟨y, hlabel, hstep⟩ := bind_eq_ok.mp hstep
      cases hstep
      exact h.getLabelToPtr hlabel
  | getLabelTo pos =>
      obtain ⟨y, hlabel, hstep⟩ := bind_eq_ok.mp hstep
      cases hstep
      obtain ⟨ptr, -, hlabel⟩ := bind_eq_ok.mp hlabel
      exact h.getLabelToPtr hlabel
  | getLabelToNamed pos name =>
      obtain ⟨y, hlabel, hstep⟩ := bind_eq_ok.mp hstep
      cases hstep
      exact h.getLabelToNamed hlabel
  | splitRaw id offset size =>
      obtain ⟨_, -, hstep⟩ := bind_eq_ok.mp hstep
      obtain ⟨⟨ctx, i⟩, hsplit, hstep⟩ := bind_eq_ok.mp hstep
      cases hstep
      exact h.splitRaw hsplit
  | split id pos nitem => exact h.split hstep
  | replace id nitem held => exact h.replace hstep

theorem Consistent.run {ops : List ObjectOp} (h : o.Consistent)
    (hrun : run Objects.step o ops = .ok o') : o'.Consistent :=
  run_preserves _ (fun _ _ _ hs hstep => hs.step hstep) h hrun

end Objects

namespace Context

variable {ctx : Context} {extra : List Item}

/-- A place where a label is. -/
theorem Registers.labelAt (h : ctx.Registers []) {l : LabelPtr} {ptr : ItemPointer}
    (hl : ctx.labels.lookup l = some (some ptr)) :
    ∃ it children l', ctx.get ptr.item = .ok (it, children) ∧
      ctx.labelAt it ptr.offset = some l' ∧ ctx.labels.lookup l' = some (some ptr) := by
  obtain ⟨it, hit, hid, hmem⟩ := h.registered.attached l ptr hl
  have hnode := hit
  rw [List.append_nil] at hnode
  obtain ⟨⟨it', children⟩, hfind⟩ := exists_find? (List.mem_map_of_mem hnode)
  obtain ⟨hmem', hid'⟩ := find?_some hfind
  have hit' : it' ∈ ctx.children.nodes ++ [] := by
    rw [List.append_nil]
    exact Forest.mem_nodes.mpr ⟨_, hmem'⟩
  cases h.registered.eq_of_id hit' hit hid'
  have hoffset : ctx.labels.offset l = ptr.offset := by rw [LabelsMap.offset, hl]
  obtain ⟨l', hl'⟩ : ∃ l', ctx.labelAt it ptr.offset = some l' := by
    rw [Context.labelAt]
    cases hfound : it.labels.find? _ with
    | some l' => exact ⟨l', rfl⟩
    | none => exact absurd (decide_eq_true hoffset) (List.find?_eq_none.mp hfound l hmem)
  have hlabel := List.find?_some hl'
  obtain ⟨offset, hlookup⟩ := (h.registered.labelled it hit).attached l'
    (List.mem_of_find?_eq_some hl')
  have hoffset' : ctx.labels.offset l' = offset := by rw [LabelsMap.offset, hlookup]
  refine ⟨it, children, l', ?_, hl', ?_⟩
  · rw [get, ← hid, hfind]
    rfl
  · rw [hlookup, hid, ← hoffset', of_decide_eq_true hlabel]

end Context

namespace Objects

/-- After any calls: names are unique; a label that is set is once in its item's
container, and in no other; a dummy is in none; the containers are in order;
`GetLabelTo`, in all its forms, returns a label that is there already; and
`CreateLabel` throws for a name that is taken, and changes nothing then. -/
theorem run_labels {o o' : Objects} {ops : List ObjectOp} (h : o.Consistent)
    (hrun : run step o ops = .ok o') :
    o'.ctx.labels.keys.Nodup ∧
    (∀ l ptr, o'.ctx.labels.lookup l = some (some ptr) →
      ∃ it ∈ o'.ctx.children.nodes, it.id = ptr.item ∧ it.labels.count l = 1 ∧
        ∀ it' ∈ o'.ctx.children.nodes, l ∈ it'.labels → it' = it) ∧
    (∀ l, o'.ctx.labels.lookup l = some none → ∀ it ∈ o'.ctx.children.nodes, l ∉ it.labels) ∧
    (∀ it ∈ o'.ctx.children.nodes,
      it.labels.Pairwise fun a b => o'.ctx.labels.offset a ≤ o'.ctx.labels.offset b) ∧
    (∀ l ptr, o'.ctx.labels.lookup l = some (some ptr) →
      ∃ l', o'.ctx.labels.lookup l' = some (some ptr) ∧
        o'.ctx.getLabelToPtr ptr = .ok (o'.ctx, l') ∧
        ∀ pos, o'.ctx.getPointer pos = .ok ptr → o'.ctx.getLabelTo pos = .ok (o'.ctx, l') ∧
          ∀ name, o'.ctx.getLabelToNamed pos name = .ok (o'.ctx, l')) ∧
    ∀ name ptr, name ∈ o'.ctx.labels →
      ∃ e, o'.ctx.createLabel name ptr = (o'.ctx, .error e) := by
  have hctx := h.run hrun
  have hregistered := hctx.registered
  rw [List.append_nil] at hregistered
  refine ⟨o'.ctx.labels.nodupKeys, fun l ptr hl => ?_, fun l hl it hit => ?_,
    fun it hit => (hregistered.labelled it hit).sorted, fun l ptr hl => ?_, fun name ptr hname => ?_⟩
  · obtain ⟨it, hit, hid, hmem⟩ := hregistered.attached l ptr hl
    exact ⟨it, hit, hid, List.count_eq_one_of_mem (hregistered.labelled it hit).nodup hmem,
      fun it' hit' hmem' => hregistered.eq_of_label hit' hit hmem' hmem⟩
  · refine hregistered.not_mem_of_unset (fun ptr hptr => ?_) hit
    cases hl.symm.trans hptr
  · obtain ⟨it, children, l', hget, hat, hl'⟩ := hctx.labelAt hl
    have hptr : o'.ctx.getLabelToPtr ptr = .ok (o'.ctx, l') := by
      rw [Context.getLabelToPtr, hget, ok_bind]
      simp only [hat, pure_eq_ok]
    refine ⟨l', hl', hptr, fun pos hpos => ⟨?_, fun name => ?_⟩⟩
    · rw [Context.getLabelTo, hpos, ok_bind, hptr]
    · rw [Context.getLabelToNamed, hpos, ok_bind, hget, ok_bind]
      simp only [hat, pure_eq_ok]
  · refine ⟨.outOfRange "label already exists", ?_⟩
    rw [Context.createLabel, LabelsMap.insertUnique, if_pos hname]
    rfl

end Objects

/-- Four bytes, two of which get a label. -/
def labelledObjects : Objects := { ctx := .root (.fromMemory [1, 2, 3, 4]), loose := [] }

/-- The second label `a` is refused, `b` is moved, and a text takes the place of
the last two bytes. -/
def labelledOps : List ObjectOp :=
  [.createLabel [0x61] ⟨0, 2⟩, .createLabel [0x61] ⟨0, 1⟩, .createOrSetLabel [0x62] ⟨0, 0⟩,
    .createOrSetLabel [0x62] ⟨0, 3⟩, .getOrCreateDummyLabel [0x63], .splitRaw 0 2 2,
    .create (.cString [0x41]), .replace 1 2 true]

theorem labelledObjects_run_labels : ∃ o', run Objects.step labelledObjects labelledOps = .ok o' ∧
    ∃ it ∈ o'.ctx.children.nodes, it.id = 2 ∧ it.labels.count [0x62] = 1 ∧
      ∀ it' ∈ o'.ctx.children.nodes, [0x62] ∈ it'.labels → it' = it := by
  have hstart : labelledObjects.Consistent := (Context.Consistent.root _).registers
  have hrun : run Objects.step labelledObjects labelledOps =
      .ok ((run Objects.step labelledObjects labelledOps).toOption.getD .empty) := rfl
  exact ⟨_, hrun, (Objects.run_labels hstart hrun).2.1 [0x62] ⟨2, 1⟩ rfl⟩

end Neptools

import Neptools.Format.Held
import Neptools.Format.Parsed
import Neptools.Stcm.Edits

/-!
The number of the expansions. Their table becomes the child of an item of its own,
and an expansion is split off for each number that is counted; as these fill the
table, nothing else is left in it. A table without expansions is still a child.
-/

namespace Neptools

open Lib

namespace Context

theorem createLabelFallback_lookup (ctx : Context) (name : LabelPtr) (ptr : ItemPointer) :
    (ctx.createLabelFallback name ptr).1.labels.lookup (ctx.createLabelFallback name ptr).2 =
      some (some ptr) :=
  AList.lookup_insert _

end Context

namespace Stcm

open Context

namespace ExpansionsItem

def isExpansion : Body → Bool
  | .expansion _ => true
  | _ => false

/-- A table of the given size, with at least `i` expansions split off. -/
structure Filling (total i : Nat) (cs : ItemList) : Prop where
  kinds : ∀ c ∈ cs.nodes, c.body.hasChildren = false ∧ 0 < c.body.ownSize
  size : cs.getSize = total
  count : i ≤ cs.nodes.countP fun c => isExpansion c.body

namespace Filling

variable {total i : Nat} {cs cs' : ItemList}

theorem relabel (h : Filling total i cs) (heq : cs'.map Item.plain = cs.map Item.plain) :
    Filling total i cs' := by
  have hnodes := congrArg Forest.nodes heq
  rw [Forest.nodes_map, Forest.nodes_map] at hnodes
  refine ⟨fun c hc => ?_, ?_, ?_⟩
  · obtain ⟨c', hc', hplain⟩ := exists_of_plain heq.symm hc
    rw [body_of_plain hplain.symm]
    exact h.kinds c' hc'
  · rw [← getSize_map_plain, heq, getSize_map_plain, h.size]
  · have hcount := congrArg (List.countP fun c => isExpansion c.body) hnodes
    rw [List.countP_map, List.countP_map] at hcount
    exact h.count.trans (Nat.le_of_eq hcount.symm)

theorem split {nextId id pos : Nat} {body : Body} (h : Filling total i cs)
    (hkind : body.hasChildren = false) (hsize : 0 < body.ownSize)
    (hin : SplitIn nextId id pos body cs cs') : Filling total i cs' := by
  refine ⟨fun c hc => ?_, hin.getSize.trans h.size, h.count.trans (hin.count fun _ => rfl).1⟩
  rcases hin.mem hc with hc | ⟨r, hr, src, -, -, ⟨hbody, -⟩ | ⟨src', hbody, hpos, -⟩⟩
  · exact h.kinds c hc
  · rw [hbody]
    exact ⟨hkind, hsize⟩
  · rw [hbody]
    exact ⟨rfl, hpos⟩

/-- A table that is full has nothing but expansions in it. -/
theorem full {n : Nat} (h : Filling (Pod.size ExpansionItem.Header * n) n cs)
    (hchildless : ∀ c ds, (c, ds) ∈ cs.subtrees → ds = .nil) :
    cs.length = n ∧ Sealed cs := by
  obtain ⟨hlength, hall⟩ := Forest.all_of_weight (w := fun it : Item => it.body.ownSize)
    (P := fun it => isExpansion it.body) (by decide) (fun c hc => (h.kinds c hc).2)
    (fun c _ hc => by
      rw [isExpansion.eq_def] at hc
      split at hc
      · rename_i heq
        rw [heq]
        rfl
      · cases hc) h.count h.size
  refine ⟨(Forest.length_nodes hchildless).symm.trans hlength, fun c hc => ⟨(h.kinds c hc).1, ?_⟩⟩
  intro src hraw
  have hexpansion := hall c hc
  rw [hraw] at hexpansion
  cases hexpansion

end Filling

/-- The label leads to the item of the expansions, and its table is `cs`. -/
structure FillingAt (ctx : Context) (l : LabelPtr) (e total i : Nat) (cs : ItemList) : Prop where
  consistent : ctx.Consistent
  target : ∃ it, it.id = e ∧ it.body = .expansions ∧ ctx.target l = .ok (it, cs, 0)
  filling : Filling total i cs

namespace FillingAt

variable {ctx ctx' : Context} {l : LabelPtr} {e total i : Nat} {cs : ItemList}

theorem relabel (h : FillingAt ctx l e total i cs) (hrelabels : ctx.Relabels ctx') :
    ∃ cs', FillingAt ctx' l e total i cs' ∧ cs'.map Item.plain = cs.map Item.plain := by
  obtain ⟨it, rfl, hbody, htarget⟩ := h.target
  obtain ⟨ptr, hptr, hfind, hoffset⟩ := target_eq_ok htarget
  obtain ⟨it', cs', hfind', hplain, hchildren⟩ := hrelabels.find? hfind
  have htarget' := target_of_find? (hrelabels.kept l ptr hptr) hfind'
  rw [hoffset] at htarget'
  exact ⟨cs', ⟨hrelabels.consistent h.consistent, ⟨it', (congrArg Item.id hplain :),
    (body_of_plain hplain).trans hbody, htarget'⟩, h.filling.relabel hchildren⟩, hchildren⟩

theorem split {id pos : Nat} {body : Body} (h : FillingAt ctx l e total i cs)
    (hheader : body.isHeader = false) (hkind : body.hasChildren = false)
    (hsize : 0 < body.ownSize) (hsplit : ctx.splitCreate id pos body = .ok ctx') :
    ∃ cs', FillingAt ctx' l e total i cs' ∧ SplitIn ctx.nextId id pos body cs cs' := by
  obtain ⟨it, rfl, hbody, htarget⟩ := h.target
  obtain ⟨ptr, -, hfind, -⟩ := target_eq_ok htarget
  rw [← (find?_some hfind).2] at hfind
  have hkeeps := h.consistent.splitCreate_keeps hheader hsplit
  obtain ⟨cs', hfind', hin⟩ := h.consistent.splitCreate_children hheader hsplit hfind
    (fun src heq => by rw [hbody] at heq; cases heq)
  exact ⟨cs', ⟨hkeeps.consistent, ⟨it, rfl, hbody, hkeeps.target h.consistent htarget hfind'⟩,
    h.filling.split hkind hsize hin⟩, hin⟩

theorem mem (h : FillingAt ctx l e total i cs) {c : Item} (hc : c ∈ cs.nodes) :
    c ∈ ctx.children.nodes := by
  obtain ⟨it, -, -, htarget⟩ := h.target
  obtain ⟨ptr, -, hfind, -⟩ := target_eq_ok htarget
  exact Forest.mem_nodes_of_mem_subtrees (find?_some hfind).1 hc

/-- An expansion of the table is followed by another item of the table. -/
theorem next (h : FillingAt ctx l e total i cs) {c : Item} (hc : c ∈ cs.nodes)
    {x : Item × ItemList} (hnext : ctx.children.next? (isItem c.id) = some x) : x.1 ∈ cs.nodes := by
  obtain ⟨it, -, hbody, htarget⟩ := h.target
  obtain ⟨ptr, -, hfind, -⟩ := target_eq_ok htarget
  obtain ⟨hmem, -⟩ := find?_some hfind
  obtain ⟨k, hk⟩ := Hole.exists_plug hmem
  have hin : c ∈ (Forest.single it cs).nodes := by
    rw [nodes_single]
    exact List.mem_cons_of_mem _ hc
  have hapart := h.consistent.registers.apart hk hin
  have hne : isItem c.id it = false := by
    refine decide_eq_false fun heq => ?_
    have hkind := (h.filling.kinds c hc).1
    rw [← h.consistent.eq_of_id (Forest.mem_nodes.mpr ⟨_, hmem⟩) (h.mem hc) heq, hbody] at hkind
    cases hkind
  rw [hk, Hole.next?_plug_single hapart.before hapart.after hne] at hnext
  exact Forest.mem_nodes.mpr ⟨_, Forest.mem_of_next? hnext⟩

/-- One expansion of the loop. -/
theorem createAndInsert (h : FillingAt ctx l e total i cs) {ptr : ItemPointer}
    {y : Context × Nat} (hcreate : ExpansionItem.createAndInsert ctx ptr = .ok y)
    (hptr : ∃ c ∈ cs.nodes, c.id = ptr.item) :
    ∃ cs', FillingAt y.1 l e total (i + 1) cs' ∧ ∃ c ∈ cs'.nodes, c.id = y.2 := by
  obtain ⟨raw, -, hcreate⟩ := bind_eq_ok.mp hcreate
  obtain ⟨_, -, hcreate⟩ := bind_eq_ok.mp hcreate
  obtain ⟨⟨ctx₁, name⟩, hlabel, hcreate⟩ := bind_eq_ok.mp hcreate
  obtain ⟨ctx₂, hsplit, hcreate⟩ := bind_eq_ok.mp hcreate
  obtain ⟨ptr₂, -, hcreate⟩ := bind_eq_ok.mp hcreate
  obtain ⟨⟨ctx₃, str⟩, hstring, hcreate⟩ := bind_eq_ok.mp hcreate
  cases hcreate
  obtain ⟨cs₁, h₁, hplain⟩ := h.relabel (relabeling_getLabelTo ctx _ _ _ hlabel)
  obtain ⟨c, hc, hid⟩ := hptr
  obtain ⟨c₁, hc₁, heq⟩ := exists_of_plain hplain hc
  have hptr₁ : ∃ c ∈ cs₁.nodes, c.id = ptr.item := ⟨c₁, hc₁, (congrArg Item.id heq :).trans hid⟩
  have hsize (x : ExpansionItem) : 0 < (Body.expansion x).ownSize :=
    show 0 < Pod.size ExpansionItem.Header by decide
  obtain ⟨cs₂, h₂, hin⟩ := h₁.split rfl rfl (hsize _) hsplit
  have hmore : i + 1 ≤ cs₂.nodes.countP fun c => isExpansion c.body :=
    Nat.lt_of_le_of_lt h₁.filling.count ((hin.count (fun _ => rfl)).2 rfl hptr₁)
  have h₂' : FillingAt ctx₂ l e total (i + 1) cs₂ :=
    ⟨h₂.consistent, h₂.target, ⟨h₂.filling.kinds, h₂.filling.size, hmore⟩⟩
  obtain ⟨c, hc, hid⟩ := hptr₁
  obtain ⟨n, hn, hnid, hnbody⟩ := hin.mem_new hc hid
  rw [CStringItem.maybeCreate] at hstring
  split at hstring
  · obtain ⟨src, -, hstring⟩ := bind_eq_ok.mp hstring
    obtain ⟨string, -, hstring⟩ := bind_eq_ok.mp hstring
    obtain ⟨ctx', hsplit', hstring⟩ := bind_eq_ok.mp hstring
    cases hstring
    have hpos (text : Bytes) : 0 < (Body.cString text).ownSize := Nat.succ_pos _
    obtain ⟨cs₃, h₃, hin'⟩ := h₂'.split rfl rfl (hpos _) hsplit'
    refine ⟨cs₃, h₃, n, hin'.kept hn fun src heq => ?_, hnid⟩
    rw [hnbody] at heq
    cases heq
  · obtain ⟨x, -, hstring⟩ := bind_eq_ok.mp hstring
    obtain ⟨_, -, hstring⟩ := bind_eq_ok.mp hstring
    split at hstring
    · cases hstring
      exact ⟨cs₂, h₂', n, hn, hnid⟩
    · cases hstring

end FillingAt

/-- The loop splits off as many expansions as it counts. -/
theorem createAll_fills {ctx ctx' : Context} {l : LabelPtr} {e total i n : Nat} {cs : ItemList}
    {next : Option (Item × ItemList)} (h : FillingAt ctx l e total i cs)
    (hnext : ∀ x, next = some x → x.1 ∈ cs.nodes) (hcreate : createAll ctx next n = .ok ctx') :
    ∃ cs', FillingAt ctx' l e total (i + n) cs' := by
  induction n generalizing ctx i cs next with
  | zero =>
      rw [createAll] at hcreate
      cases hcreate
      exact ⟨cs, h⟩
  | succ n ih =>
      cases next with
      | none => cases hcreate
      | some x =>
          obtain ⟨it, children⟩ := x
          have hit := hnext _ rfl
          obtain ⟨ptr, hptr, hloop⟩ := bind_eq_ok.mp hcreate
          obtain ⟨⟨ctx₁, exp⟩, hexp, hrest⟩ := bind_eq_ok.mp hloop
          obtain ⟨ds, hmem⟩ := Forest.mem_nodes.mp (h.mem hit)
          have hrelabels := @relabels_createLabelFallback ctx expansionName
            { item := it.id, offset := 0 } _ (get_of_find? (h.consistent.find?_of_mem hmem))
          obtain ⟨cs₀, h₀, hplain⟩ := h.relabel hrelabels
          have hlookup := createLabelFallback_lookup ctx expansionName { item := it.id, offset := 0 }
          cases (getPtr_eq_ok.mp hptr).symm.trans hlookup
          obtain ⟨it', hit', heq⟩ := exists_of_plain hplain hit
          obtain ⟨cs₁, h₁, c, hc, hid⟩ :=
            h₀.createAndInsert hexp ⟨it', hit', (congrArg Item.id heq :)⟩
          obtain ⟨cs', h'⟩ := ih h₁ (fun x hx => h₁.next hc (hid ▸ hx)) hrest
          rw [Nat.add_assoc, Nat.add_comm 1 n] at h'
          exact ⟨cs', h'⟩

/-- The children are as many as were counted, but one if none were. -/
theorem createAndInsert_sealed {ctx ctx' : Context} (hctx : ctx.Consistent) {l : LabelPtr}
    {ptr : ItemPointer} {count : UInt32} (hptr : ctx.labels.lookup l = some (some ptr))
    (hcreate : createAndInsert ctx ptr count = .ok ctx') :
    ctx.Keeps ctx' ∧ ctx'.SealedAt l ctx.nextId .expansions (max 1 count.toNat) := by
  refine ⟨(edits_createAndInsert hctx hcreate).keeps hctx, ?_⟩
  obtain ⟨ctx₁, hsplit, hcreate⟩ := bind_eq_ok.mp hcreate
  obtain ⟨ctx₂, hmove, hcreate⟩ := bind_eq_ok.mp hcreate
  obtain ⟨⟨it, children⟩, hget, hcreate⟩ := bind_eq_ok.mp hcreate
  obtain ⟨n, htarget, hid, hbody⟩ := hctx.splitCreate_takes hptr rfl hsplit
  have hkeeps₁ := hctx.splitCreate_keeps rfl hsplit
  have hctx₁ := hkeeps₁.consistent
  obtain ⟨⟨item, offset⟩, -, hfind, -⟩ := target_eq_ok htarget
  rw [← (find?_some hfind).2, hid] at hfind
  have hkind : n.body.hasChildren = true := by rw [hbody]; rfl
  obtain ⟨next, src, sub, child, -, -, hle, hbytes, hchild, hctx₂, hfind₂, -⟩ :=
    hctx₁.moveNextToChild_spec hfind hkind hmove
  have hkeeps₂ := hctx₁.moveNextToChild_keeps hfind hkind hmove
  have htarget₂ := hkeeps₂.target hctx₁ htarget (hid ▸ hfind₂)
  obtain ⟨rfl, rfl⟩ := Prod.mk.inj (Option.some.inj ((get_eq_ok hget).symm.trans hfind₂))
  have hsize : sub.size = count.toNat * Pod.size ExpansionItem.Header := by
    have hlen := congrArg List.length hbytes
    rwa [Source.length_bytes, length_slice_of_le (by rw [Source.length_bytes]; omega)] at hlen
  by_cases hzero : count.toNat = 0
  · rw [hzero] at hcreate
    cases hcreate
    refine ⟨it, _, hid, hbody, htarget₂, ?_, fun c hc => ?_⟩
    · rw [hzero]
      rfl
    · rw [List.mem_singleton.mp hc, hchild]
      refine ⟨rfl, fun src' heq => ?_⟩
      cases heq
      rw [hsize, hzero, Nat.zero_mul]
  · have hpos : 0 < Pod.size ExpansionItem.Header := by decide
    have hfilling : FillingAt ctx₂ l ctx.nextId (Pod.size ExpansionItem.Header * count.toNat) 0
        (.single child .nil) := by
      refine ⟨hctx₂, ⟨it, hid, hbody, htarget₂⟩, fun c hc => ?_, ?_, Nat.zero_le _⟩
      · rw [List.mem_singleton.mp hc, hchild]
        refine ⟨rfl, ?_⟩
        rw [Body.ownSize, hsize]
        exact Nat.mul_pos (Nat.pos_of_ne_zero hzero) hpos
      · rw [ItemList.getSize, Forest.weight_single, hchild, Body.ownSize, hsize, Nat.mul_comm]
        rfl
    obtain ⟨cs, h⟩ := createAll_fills hfilling (fun x hx => by
      cases hx
      exact List.mem_singleton.mpr rfl) hcreate
    rw [Nat.zero_add] at h
    obtain ⟨it', hid', hbody', htarget'⟩ := h.target
    obtain ⟨ptr', -, hfind', -⟩ := target_eq_ok htarget'
    obtain ⟨hlength, hsealed⟩ := h.filling.full fun c ds hmem => by
      have hmem' := Forest.mem_subtrees_trans (find?_some hfind').1 hmem
      exact h.consistent.childless c ds hmem' (h.filling.kinds c (Forest.mem_nodes.mpr ⟨_, hmem⟩)).1
    refine ⟨it', cs, hid', hbody', htarget', ?_, hsealed⟩
    rw [hlength]
    omega

end ExpansionsItem

end Stcm

end Neptools

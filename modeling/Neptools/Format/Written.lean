import Neptools.Format.Parsed
import Neptools.Stsc.Reencode

/-!
What a context writes, against the file it is read from. While items are split out of raw
ones, each of them writes as many bytes as it takes; and the whole context writes the file
again if every item writes the bytes it was read from.
-/

namespace Neptools

open Lib

/-- The bytes of a switch that have the number of its cases. -/
def Body.SizeWord : Body → Nat → Prop
  | stscInstruction i, k => i.instruction.isSwitch = true ∧ (k = 5 ∨ k = 6)
  | _, _ => False

/-- The item writes as many bytes as it takes, and those that are at its position in the
file if and only if it is `kept`. All but a size word is written in any case. -/
def Body.WrittenAt (file : Bytes) (v : LabelView) (pos : Nat) (kept : Prop) (b : Body) : Prop :=
  ∃ calls, b.dump v b.ownSize = .ok calls ∧ (Sink.bytesOf calls).length = b.ownSize ∧
    (StandsAt (Sink.bytesOf calls) pos file ↔ kept) ∧
    ∀ k < b.ownSize, ¬ b.SizeWord k → (Sink.bytesOf calls)[k]? = file[pos + k]?

theorem Body.WrittenAt.of_standsAt {file : Bytes} {v : LabelView} {pos : Nat} {kept : Prop}
    {b : Body} {calls : List Sink.Call} (hcalls : b.dump v b.ownSize = .ok calls)
    (hlength : (Sink.bytesOf calls).length = b.ownSize)
    (hstand : StandsAt (Sink.bytesOf calls) pos file) (hkept : kept) :
    b.WrittenAt file v pos kept :=
  ⟨calls, hcalls, hlength, iff_of_true hstand hkept, fun _ hk _ =>
    (hstand.getElem?_eq (by rwa [hlength])).symm⟩

theorem Body.WrittenAt.extends {file : Bytes} {v v' : LabelView} {pos : Nat} {kept : Prop}
    {b : Body} (h : b.WrittenAt file v pos kept) (hv : v.Extends True v') :
    b.WrittenAt file v' pos kept := by
  obtain ⟨calls, hcalls, hrest⟩ := h
  exact ⟨calls, b.dump_keep { hv with expansionCount := fun _ => hv.expansionCount trivial } hcalls,
    hrest⟩

theorem Body.writtenAt_raw {file : Bytes} {v : LabelView} {pos : Nat} {src : Source}
    (h : StandsAt src.bytes pos file) : (Body.raw src).WrittenAt file v pos True :=
  .of_standsAt rfl (by simp [Sink.bytesOf_cons, ownSize]) (by simpa [Sink.bytesOf_cons] using h)
    trivial

theorem Body.WrittenAt.standsAt {file : Bytes} {v : LabelView} {pos : Nat} {src : Source}
    (h : (Body.raw src).WrittenAt file v pos True) : StandsAt src.bytes pos file := by
  obtain ⟨calls, hcalls, -, hstands, -⟩ := h
  cases hcalls
  simpa [Sink.bytesOf_cons] using hstands

/-- The item is not `Kept`, and position `p` of the file is in its size word. -/
def Item.SpoiltAt (Kept : Item → Prop) (it : Item) (p : Nat) : Prop :=
  ¬ Kept it ∧ it.position ≤ p ∧ it.body.SizeWord (p - it.position)

namespace ItemList

variable {file : Bytes} {v : LabelView} {Kept : Item → Prop}

/-- Items in one list, one after the other, write a part of the file if they all do. -/
theorem dumpBytes_of_written {f : ItemList} {pos : Nat} (hlaid : f.Laid pos)
    (hflat : ∀ x ∈ f.subtrees, x.2 = .nil) (hle : pos + f.getSize ≤ file.length)
    (h : ∀ it ∈ f.nodes, it.body.WrittenAt file v it.position (Kept it)) :
    ∃ bytes, dumpBytes v f = .ok bytes ∧ bytes.length = f.getSize ∧
      (StandsAt bytes pos file ↔ ∀ it ∈ f.nodes, Kept it) ∧
      ∀ k < f.getSize, (∀ it ∈ f.nodes, ¬ it.SpoiltAt Kept (pos + k)) →
        bytes[k]? = file[pos + k]? := by
  induction f generalizing pos with
  | nil =>
      have hempty : pos + 0 ≤ file.length := hle
      refine ⟨[], rfl, rfl, iff_of_true (StandsAt.of_slice hempty) (by simp [Forest.nodes]),
        fun k hk => absurd hk (Nat.not_lt_zero k)⟩
  | cons it children siblings _ ih =>
      simp only [Forest.subtrees, List.mem_cons, forall_eq_or_imp] at hflat
      obtain ⟨rfl, hflat⟩ := hflat
      simp only [Forest.nodes, List.nil_append, List.mem_cons, forall_eq_or_imp] at h ⊢
      obtain ⟨rfl, -, hlaid⟩ := hlaid
      have hlaid : Laid (it.position + it.body.ownSize) siblings := hlaid
      have hsize : getSize (.cons it .nil siblings) = it.body.ownSize + getSize siblings := by
        simp [getSize, Forest.weight_cons, Forest.weight_nil]
      rw [hsize] at hle ⊢
      obtain ⟨calls, hcalls, hlength, hkept, hsame⟩ := h.1
      obtain ⟨bytes, hbytes, hlengths, hrest, hsames⟩ :=
        ih hlaid (by simpa [Forest.subtrees] using hflat) (by omega) h.2
      have hdump : it.body.dump v (it.getSize .nil) = .ok calls := hcalls
      refine ⟨Sink.bytesOf calls ++ bytes, ?_, by simp [hlength, hlengths], ?_, ?_⟩
      · rw [dumpBytes_cons, hdump, ok_bind, hbytes]
        rfl
      · rw [StandsAt.append_iff, hlength, hkept]
        exact and_congr_right' hrest
      · rintro k hk ⟨hfirst, hother⟩
        by_cases hin : k < it.body.ownSize
        · rw [List.getElem?_append_left (by rwa [hlength])]
          by_cases hit : Kept it
          · exact ((hkept.mpr hit).getElem?_eq (by rwa [hlength])).symm
          · refine hsame k hin fun hword => hfirst ⟨hit, Nat.le_add_right _ _, ?_⟩
            rwa [Nat.add_sub_cancel_left]
        · have hk' := hsames (k - it.body.ownSize) (by omega)
          rw [Nat.add_assoc, Nat.add_sub_cancel' (by omega)] at hk'
          rw [List.getElem?_append_right (by omega), hlength]
          exact hk' hother

/-- `Fixup` finds everything in its place. -/
theorem fixup_of_laid {f : ItemList} {pos : Nat} (hlaid : f.Laid pos)
    (hflat : ∀ x ∈ f.subtrees, x.2 = .nil) (hfixup : ∀ it ∈ f.nodes, it.body.fixup = it.body) :
    f.fixup pos = f := by
  induction f generalizing pos with
  | nil => rfl
  | cons it children siblings _ ih =>
      simp only [Forest.subtrees, List.mem_cons, forall_eq_or_imp] at hflat
      obtain ⟨rfl, hflat⟩ := hflat
      simp only [Forest.nodes, List.nil_append, List.mem_cons, forall_eq_or_imp] at hfixup
      obtain ⟨rfl, -, hlaid⟩ := hlaid
      have hsame : { it with position := it.position, body := it.body.fixup } = it := by
        rw [hfixup.1]
      simp only [fixup, hsame]
      congr 1
      exact ih hlaid (by simpa [Forest.subtrees] using hflat) hfixup.2

end ItemList

namespace Context

/-- While the file is read, everything is in its place, and each item that can be written
already writes what it was read from if it is `Kept`. -/
structure Written (file : Bytes) (Ready Kept : Item → Prop) (ctx : Context) : Prop where
  laid : ctx.children.Laid 0
  size : ctx.getSize = file.length
  settled : ∀ it ∈ ctx.children.nodes, it.body.fixup = it.body
  items : ∀ it ∈ ctx.children.nodes, Ready it →
    it.body.WrittenAt file ctx.view it.position (Kept it)

variable {file : Bytes} {Ready Kept : Item → Prop} {ctx ctx' : Context}

theorem Written.relabel (h : ctx.Written file Ready Kept)
    (hready : ∀ it it' : Item, it'.plain = it.plain → (Ready it' ↔ Ready it))
    (hkept : ∀ it it' : Item, it'.plain = it.plain → (Kept it' ↔ Kept it))
    (hrelabels : ctx.Relabels ctx') : ctx'.Written file Ready Kept where
  laid := by
    rw [← ItemList.laid_map_plain, hrelabels.plain, ItemList.laid_map_plain]
    exact h.laid
  size := hrelabels.getSize.trans h.size
  settled it hit := by
    obtain ⟨it', hit', heq⟩ := exists_of_plain hrelabels.plain.symm hit
    rw [← body_of_plain heq]
    exact h.settled it' hit'
  items it hit hit₁ := by
    obtain ⟨it', hit', heq⟩ := exists_of_plain hrelabels.plain.symm hit
    rw [← body_of_plain heq, ← position_of_plain heq, propext (hkept it' it heq.symm)]
    exact (h.items it' hit' ((hready it' it heq.symm).mp hit₁)).extends (hrelabels.extends True)

/-- What is read from a place in a raw item is what the file has there. -/
theorem standsAt_getSource {ptr : ItemPointer} {w src : Source} {pos : Nat}
    (hw : ctx.getSource ptr = .ok w) (hbody : ctx.bodyOf ptr.item = some (.raw src))
    (hstands : StandsAt src.bytes pos file) : StandsAt w.bytes (pos + ptr.offset) file := by
  obtain ⟨src', hbody', hsize, -⟩ := getSource_spec hw
  cases hbody.symm.trans hbody'
  rw [getSource_bytes hw hbody]
  exact (StandsAt.of_slice (by rw [Source.length_bytes, hsize])).trans hstands

/-- Everything is in one list, and nothing has children. -/
theorem Consistent.childless_of_flat (h : ctx.Consistent) (hflat : ctx.Flat) :
    ∀ x ∈ ctx.children.subtrees, x.2 = .nil :=
  fun x hx => h.childless x.1 x.2 hx (hflat x.1 (Forest.mem_nodes.mpr ⟨_, hx⟩))

theorem Written.split (h : ctx.Written file Ready Kept) (hctx : ctx.Consistent) (hflat : ctx.Flat)
    (hraw : ∀ it : Item, it.body.isRaw = true → Ready it ∧ Kept it) {id pos : Nat} {body : Body}
    (hsplit : ctx.splitCreate id pos body = .ok ctx') (hfixup : body.fixup = body)
    (hnew : ctx.view.Extends True ctx'.view → ∀ it src, it ∈ ctx.children.nodes → it.id = id →
      it.body = .raw src → StandsAt src.bytes it.position file →
      ∀ n : Item, n.body = body → n.position = it.position + pos → Ready n →
        body.WrittenAt file ctx'.view n.position (Kept n)) : ctx'.Written file Ready Kept := by
  obtain ⟨k, r, src, p, hid, hbody, hk, -, -, hle, hp⟩ := hctx.splitCreate_ok hsplit
  have hr : r ∈ ctx.children.nodes := by
    rw [hk, mem_plug]
    exact .inr List.mem_cons_self
  have hchildless := hctx.childless_of_flat hflat
  rw [hk] at hchildless
  have htop : k.top = true :=
    Hole.top_of_childless (by simp [Forest.single, Forest.roots]) hchildless
  have hview : ctx.view.Extends True ctx'.view := by
    have hview := hp.extends hctx.create hk hbody (hctx.freshList_create body)
    rw [htop] at hview
    exact { hview with expansionCount := fun _ => hview.expansionCount rfl }
  have hlaid := h.laid
  rw [ItemList.Laid, hk] at hlaid
  obtain ⟨hlaidParts, hsizeParts⟩ := hp.laid_parts hle
  have hsame : ItemList.getSize (p.items (ctx.nextId + 1) r src.size pos
      { id := ctx.nextId, position := 0, labels := [], body } .nil) =
      ItemList.getSize (.single r .nil) := by
    rw [hsizeParts, ItemList.getSize, Forest.weight_single, hbody]
    rfl
  have hstands : StandsAt src.bytes r.position file := by
    obtain ⟨hready, hkept⟩ := hraw r (by rw [hbody]; rfl)
    have hwritten := h.items r hr hready
    rw [hbody, eq_true hkept] at hwritten
    exact hwritten.standsAt
  have hitems : ∀ it ∈ (p.items (ctx.nextId + 1) r src.size pos
      { id := ctx.nextId, position := 0, labels := [], body } .nil).nodes,
      it.body.fixup = it.body ∧
        (Ready it → it.body.WrittenAt file ctx'.view it.position (Kept it)) := by
    have hpart {it : Item} {part : Source} {offset len : Nat} (hitem : it.body = .raw part)
        (hpos : it.position = r.position + offset)
        (hpart : part.bytes = Lib.slice src.bytes offset len) (hin : offset + len ≤ src.size) :
        it.body.fixup = it.body ∧
          (Ready it → it.body.WrittenAt file ctx'.view it.position (Kept it)) := by
      rw [hitem, hpos, eq_true (hraw it (by rw [hitem]; rfl)).2]
      refine ⟨rfl, fun _ => Body.writtenAt_raw ?_⟩
      rw [hpart]
      exact (StandsAt.of_slice (by rwa [Source.length_bytes])).trans hstands
    have hle : pos + body.ownSize ≤ src.size := hle
    intro it hit
    rw [Parts.items, Forest.nodes_append, List.mem_append, Forest.nodes, List.mem_cons,
      Parts.frontItems, Parts.backItems] at hit
    rcases hit with hit | rfl | hit
    · split at hit
      · cases hit
      · cases List.mem_singleton.mp hit
        exact hpart rfl rfl hp.frontBytes (by omega)
    · exact ⟨hfixup, hnew hview r src hr hid hbody hstands _ rfl rfl⟩
    · split at hit
      · cases hit
      · rename_i hrest
        cases List.mem_singleton.mp hit
        have hsize : ({ id := ctx.nextId, position := 0, labels := [], body } : Item).getSize .nil =
          body.ownSize := rfl
        exact hpart rfl rfl hp.backBytes (by omega)
  refine ⟨?_, ?_, fun it hit => ?_, fun it hit hready => ?_⟩
  · rw [ItemList.Laid, hp.children]
    refine Hole.laid_plug hlaid hsame ?_
    rw [← (Hole.laid_of_plug hlaid).1]
    exact hlaidParts
  · rw [← h.size, Context.getSize, Context.getSize, hp.children, hk, ItemList.getSize,
      ItemList.getSize, Hole.weight_plug, Hole.weight_plug]
    exact congrArg _ hsame
  · rw [hp.children, mem_plug] at hit
    rcases hit with hit | hit
    · refine h.settled it ?_
      rw [hk, mem_plug]
      exact .inl hit
    · exact (hitems it hit).1
  · rw [hp.children, mem_plug] at hit
    rcases hit with hit | hit
    · refine (h.items it ?_ hready).extends hview
      rw [hk, mem_plug]
      exact .inl hit
    · exact (hitems it hit).2 hready

/-- An item is made of the bytes a pointer leads to. -/
theorem Written.create {ctx₁ : Context} (h : ctx.Written file Ready Kept) (hctx : ctx.Consistent)
    (hflat : ctx.Flat) (hraw : ∀ it : Item, it.body.isRaw = true → Ready it ∧ Kept it)
    (hready : ∀ it it' : Item, it'.plain = it.plain → (Ready it' ↔ Ready it))
    (hkept : ∀ it it' : Item, it'.plain = it.plain → (Kept it' ↔ Kept it)) {ptr : ItemPointer}
    {w : Source} (hw : ctx.getSource ptr = .ok w) (hrelabels : ctx.Relabels ctx₁) {body : Body}
    (hsplit : ctx₁.splitCreate ptr.item ptr.offset body = .ok ctx') (hfixup : body.fixup = body)
    (hnew : ctx'.view.Places ctx₁ → ∀ n : Item, n.body = body → StandsAt w.bytes n.position file →
      Ready n → body.WrittenAt file ctx'.view n.position (Kept n)) :
    ctx'.Written file Ready Kept := by
  refine (h.relabel hready hkept hrelabels).split (hrelabels.consistent hctx) (hrelabels.flat hflat)
    hraw hsplit hfixup fun hview it src hit hid hbody hstands n hn hpos hit₁ => ?_
  refine hnew (fun l pos => hview.toFilePos l pos) n hn ?_ hit₁
  obtain ⟨children, hmem⟩ := Forest.mem_nodes.mp hit
  have hsame := (hrelabels.consistent hctx).bodyOf_of_mem hmem
  rw [hid, hbody, hrelabels.bodyOf] at hsame
  rw [hpos]
  exact standsAt_getSource hw hsame hstands

/-- Once its end is split off, a file is like that. -/
theorem Written.root_split {src : Source}
    (hraw : ∀ it : Item, it.body.isRaw = true → Ready it ∧ Kept it)
    (heof : ∀ it : Item, it.body = .eof → Kept it)
    (h : (root src).splitCreate 0 src.size .eof = .ok ctx) :
    ctx.Written src.bytes Ready Kept := by
  have hroot : (root src).Written src.bytes Ready Kept := by
    refine ⟨⟨rfl, trivial, trivial⟩, ?_, ?_, ?_⟩
    · change src.size + 0 + 0 = _
      simp
    · intro it hit
      rw [List.mem_singleton.mp hit]
      rfl
    · intro it hit _
      obtain rfl := List.mem_singleton.mp hit
      have hall : StandsAt src.bytes 0 src.bytes := ⟨[], [], by simp, rfl⟩
      rw [eq_true (hraw _ rfl).2]
      exact Body.writtenAt_raw hall
  have hflat : (root src).Flat := by
    intro it hit
    rw [List.mem_singleton.mp hit]
    rfl
  refine hroot.split (Consistent.root src) hflat hraw h rfl
    fun _ it w hit _ hbody hstands n hn hpos _ => .of_standsAt rfl rfl ?_ (heof n hn)
  rw [hpos]
  obtain rfl := List.mem_singleton.mp hit
  cases hbody
  have hempty : src.size + 0 ≤ src.bytes.length := by simp
  exact (StandsAt.of_slice hempty).trans hstands

/-- After `Fixup` the context writes as many bytes as the file has, and the file itself if
and only if every item is kept. What differs is in the size words of those that are not. -/
theorem Written.dump_iff (h : ctx.Written file Ready Kept) (hctx : ctx.Consistent)
    (hflat : ctx.Flat) (hready : ∀ it ∈ ctx.children.nodes, Ready it) :
    ∃ events, ctx.fixup.dump = .ok events ∧
      (Sink.bytesOf (callsOf events)).length = file.length ∧
        (Sink.bytesOf (callsOf events) = file ↔ ∀ it ∈ ctx.children.nodes, Kept it) ∧
        ∀ p, (∀ it ∈ ctx.children.nodes, ¬ it.SpoiltAt Kept p) →
          (Sink.bytesOf (callsOf events))[p]? = file[p]? := by
  have hchildless := hctx.childless_of_flat hflat
  have hchildren : ctx.children.fixup 0 = ctx.children :=
    ItemList.fixup_of_laid h.laid hchildless h.settled
  have hdump : ctx.fixup.dump = ctx.children.dump ctx.view := by
    rw [fixup, hchildren]
    rfl
  have hsize : ctx.children.getSize = file.length := h.size
  obtain ⟨bytes, hbytes, hlength, hkept, hsame⟩ :=
    ItemList.dumpBytes_of_written h.laid hchildless (by omega)
      fun it hit => h.items it hit (hready it hit)
  obtain ⟨events, hevents, heq⟩ := bind_eq_ok.mp hbytes
  cases heq
  rw [hsize] at hlength hsame
  refine ⟨events, hdump.trans hevents, hlength, ?_, fun p hp => ?_⟩
  · rw [← hkept]
    constructor
    · intro heq
      rw [heq]
      exact ⟨[], [], by simp, rfl⟩
    · intro hstands
      have hslice := hstands.slice_eq
      rw [hlength, Lib.slice, List.drop_zero, List.take_length] at hslice
      exact hslice.symm
  · rw [← Nat.zero_add p] at hp
    by_cases hlt : p < file.length
    · simpa using hsame p hlt hp
    · rw [List.getElem?_eq_none (by omega), List.getElem?_eq_none (by omega)]

end Context

end Neptools

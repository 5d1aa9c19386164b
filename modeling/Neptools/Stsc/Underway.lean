import Neptools.Format.Charted
import Neptools.Stsc.RoundTrip

/-!
While a file is read, what was read stays as it is, and what is split off stands at the
place that was asked for.
-/

namespace Neptools

open Lib

namespace Stsc

open Context

variable {ctx ctx' ctx₁ : Context} {src : Source}

/-- A file of which a part is read. -/
structure Underway (src : Source) (ctx : Context) : Prop where
  charted : ctx.Charted
  written : WrittenSoFar src ctx
  sized : ∀ it ∈ ctx.children.nodes, ∀ part, it.body = .raw part → 0 < part.size

theorem Underway.getSize (h : Underway src ctx) : ctx.getSize = src.size := by
  rw [← Source.length_bytes]
  exact h.written.size

theorem Underway.relabels (h : Underway src ctx) (hrelabels : ctx.Relabels ctx')
    (hctx' : ctx'.Charted) : Underway src ctx' where
  charted := hctx'
  written := Written.relabel h.written (fun _ _ _ => Iff.rfl) (fun _ _ => kept_of_plain) hrelabels
  sized it hit part hbody := by
    obtain ⟨it', hit', heq⟩ := exists_of_plain hrelabels.plain.symm hit
    exact h.sized it' hit' part ((body_of_plain heq).trans hbody)

theorem Underway.split (h : Underway src ctx) {id pos : Nat} {body : Body}
    (hsplit : ctx.splitCreate id pos body = .ok ctx') (hctx' : ctx'.Charted)
    (hwritten : WrittenSoFar src ctx') (hraw : body.isRaw = false) : Underway src ctx' where
  charted := hctx'
  written := hwritten
  sized it hit part hbody := by
    obtain ⟨r, raw, hnodes⟩ := h.charted.consistent.splitCreate_nodes hsplit
    rcases hnodes.nodes it hit with ⟨hold, -⟩ | ⟨hnew, -⟩ | ⟨part', hpart, hpositive, -⟩
    · exact h.sized it hold part hbody
    · rw [← hnew, hbody] at hraw
      cases hraw
    · cases hbody.symm.trans hpart
      exact hpositive

/-- An item is split off where it was asked for. -/
theorem Underway.split_off (h : Underway src ctx) (hrelabels : ctx.Relabels ctx₁)
    (h₁ : ctx₁.Charted) {it : Item} (hit : it ∈ ctx.children.nodes) {offset : Nat} {body : Body}
    (hraw : body.isRaw = false) (hsplit : ctx₁.splitCreate it.id offset body = .ok ctx')
    (hctx' : ctx'.Charted) (hwritten : WrittenSoFar src ctx') :
    Underway src ctx' ∧ ctx.Carries ctx' ∧ ∃ n ∈ ctx'.children.nodes,
      n.id = ctx.nextId ∧ n.position = it.position + offset ∧ n.body = body := by
  refine ⟨(h.relabels hrelabels h₁).split hsplit hctx' hwritten hraw,
    .create hrelabels h₁.consistent hsplit, ?_⟩
  obtain ⟨r, raw, hnodes⟩ := h₁.consistent.splitCreate_nodes hsplit
  obtain ⟨n, hn, hid, hbody, hat⟩ := hnodes.new
  refine ⟨n, hn, hid.trans hrelabels.nextId, ?_, hbody⟩
  rw [hat, hrelabels.position_of_id h.charted.consistent hit hnodes.mem hnodes.split]

namespace File

section

variable (hne : src.size ≠ 0) (h : (Context.root src).splitCreate 0 src.size .eof = .ok ctx)

include hne h

theorem underway_root : Underway src ctx := by
  refine ⟨charted_root hne h, written_root h, fun it hit part hbody => ?_⟩
  rcases root_split_nodes h it hit with ⟨heof, -⟩ | ⟨-, part', hpart, hsame⟩
  · rw [heof] at hbody
    cases hbody
  · cases hpart.symm.trans hbody
    omega

theorem exists_root_item : ∃ it ∈ ctx.children.nodes, it.id = 0 ∧ it.position = 0 ∧
    ∃ part, it.body = .raw part ∧ part.size = src.size := by
  obtain ⟨it, hit, hid⟩ := List.mem_map.mp (root_mem_ids h hne)
  rcases root_split_nodes h it hit with ⟨heof, -⟩ | ⟨hpos, hpart⟩
  · rcases (Consistent.root src).mem_splitCreate h hit (by rw [heof]; rfl) with hold | ⟨hnew, -⟩
    · rw [List.mem_singleton.mp hold] at heof
      cases heof
    · rw [hid] at hnew
      cases hnew
  · exact ⟨it, hit, hid, hpos, hpart⟩

end

end File

end Stsc

end Neptools

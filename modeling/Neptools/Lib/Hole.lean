import Neptools.Lib.Forest

/-!
Forests with a hole. A change of a forest at one place is the same hole filled
with something else, and what the hole does not touch is read off from the hole
alone.
-/

namespace Lib

universe u v

/-- A forest without the trees at one place. -/
inductive Hole (α : Type u)
  | here (siblings : Forest α)
  | skip (a : α) (children : Forest α) (rest : Hole α)
  | inside (a : α) (rest : Hole α) (siblings : Forest α)

namespace Hole

open Forest

variable {α : Type u} {β : Type v}

def plug : Hole α → Forest α → Forest α
  | here ts, loc => loc ++ ts
  | skip a cs h, loc => cons a cs (h.plug loc)
  | inside a h ts, loc => cons a (h.plug loc) ts

/-- The nodes before the hole, those it is in included. -/
def before : Hole α → List α
  | here _ => []
  | skip a cs h => a :: (cs.nodes ++ h.before)
  | inside a h _ => a :: h.before

def after : Hole α → List α
  | here ts => ts.nodes
  | skip _ _ h => h.after
  | inside _ h ts => h.after ++ ts.nodes

theorem nodes_plug (h : Hole α) (loc : Forest α) :
    (h.plug loc).nodes = h.before ++ loc.nodes ++ h.after := by
  induction h with
  | here ts => rw [plug, nodes_append, before, after, List.nil_append]
  | skip a cs h ih => simp only [plug, nodes, ih, before, after, List.cons_append, List.append_assoc]
  | inside a h ts ih => simp only [plug, nodes, ih, before, after, List.cons_append, List.append_assoc]

theorem nodes_plug_perm (h : Hole α) (loc : Forest α) :
    (h.plug loc).nodes.Perm (loc.nodes ++ (h.before ++ h.after)) := by
  rw [nodes_plug, List.append_assoc]
  exact List.perm_append_comm_assoc _ _ _

/-- The nodes besides the hole, with their children. -/
def aside : Hole α → List (α × Forest α)
  | here ts => ts.subtrees
  | skip a cs h => (a, cs) :: (cs.subtrees ++ h.aside)
  | inside _ h ts => h.aside ++ ts.subtrees

/-- The nodes the hole is in, with the hole as it is among their children. -/
def spine : Hole α → List (α × Hole α)
  | here _ => []
  | skip _ _ h => h.spine
  | inside a h _ => (a, h) :: h.spine

theorem mem_subtrees_plug {h : Hole α} {loc : Forest α} {x : α × Forest α} :
    x ∈ (h.plug loc).subtrees ↔
      x ∈ loc.subtrees ∨ x ∈ h.aside ∨ ∃ y ∈ h.spine, x = (y.1, y.2.plug loc) := by
  induction h with
  | here ts => simp [plug, aside, spine]
  | skip a cs h ih =>
      simp only [plug, subtrees, aside, spine, List.mem_cons, List.mem_append, ih]
      tauto
  | inside a h ts ih =>
      simp only [plug, subtrees, aside, spine, List.mem_cons, List.mem_append, ih,
        exists_eq_or_imp]
      generalize (∃ y ∈ h.spine, x = (y.1, y.2.plug loc)) = inSpine
      tauto

theorem length_plug (h : Hole α) {loc loc' : Forest α} (heq : loc.length = loc'.length) :
    (h.plug loc).length = (h.plug loc').length := by
  induction h with
  | here ts => rw [plug, plug, length_append, length_append, heq]
  | skip a cs h ih => exact congrArg (· + 1) ih
  | inside a h ts ih => rfl

/-- What is below a node besides the hole is around the hole. -/
theorem mem_around_of_aside {h : Hole α} {a b : α} {cs : Forest α} (haside : (a, cs) ∈ h.aside)
    (hb : b ∈ cs.nodes) : b ∈ h.before ∨ b ∈ h.after := by
  induction h with
  | here ts => exact .inr (mem_nodes_of_mem_subtrees haside hb)
  | skip c ds h ih =>
      rw [aside, List.mem_cons, List.mem_append] at haside
      rw [before, List.mem_cons, List.mem_append]
      rcases haside with heq | hin | hin
      · cases heq
        exact .inl (.inr (.inl hb))
      · exact .inl (.inr (.inl (mem_nodes_of_mem_subtrees hin hb)))
      · rcases ih hin with h | h
        · exact .inl (.inr (.inr h))
        · exact .inr h
  | inside c h ts ih =>
      rw [aside, List.mem_append] at haside
      rw [before, List.mem_cons, after, List.mem_append]
      rcases haside with hin | hin
      · rcases ih hin with h | h
        · exact .inl (.inr h)
        · exact .inr (.inl h)
      · exact .inr (.inr (mem_nodes_of_mem_subtrees hin hb))

/-- The hole is not below another node. -/
def top : Hole α → Bool
  | here _ => true
  | skip _ _ h => h.top
  | inside _ _ _ => false

/-- The nodes below others, without those that are in the hole. -/
def innerAside : Hole α → List α
  | here ts => ts.inner
  | skip _ cs h => cs.nodes ++ h.innerAside
  | inside _ h ts => h.before ++ h.after ++ ts.inner

theorem mem_inner_plug {h : Hole α} {loc : Forest α} {a : α} :
    a ∈ (h.plug loc).inner ↔
      a ∈ h.innerAside ∨ a ∈ if h.top then loc.inner else loc.nodes := by
  induction h with
  | here ts => simp only [plug, inner_append, innerAside, top, if_true, List.mem_append, or_comm]
  | skip b cs h ih =>
      simp only [plug, Forest.inner, innerAside, List.mem_append, ih, or_assoc]
      exact Iff.rfl
  | inside b h ts ih =>
      simp only [plug, Forest.inner, innerAside, top, nodes_plug, List.mem_append,
        Bool.false_eq_true, if_false]
      tauto

/-- Another node in front of the hole. -/
def behind (a : α) (cs : Forest α) : Hole α → Hole α
  | here ts => skip a cs (here ts)
  | skip b ds h => skip b ds (h.behind a cs)
  | inside b h ts => inside b (h.behind a cs) ts

/-- Other trees that follow the hole. -/
def followed (us : Forest α) : Hole α → Hole α
  | here ts => here (us ++ ts)
  | skip b ds h => skip b ds (h.followed us)
  | inside b h ts => inside b (h.followed us) ts

theorem plug_behind (a : α) (cs : Forest α) (h : Hole α) (loc : Forest α) :
    (h.behind a cs).plug loc = h.plug (cons a cs loc) := by
  induction h with
  | here ts => rfl
  | skip b ds h ih => rw [behind, plug, plug, ih]
  | inside b h ts ih => rw [behind, plug, plug, ih]

theorem plug_followed (us : Forest α) (h : Hole α) (loc : Forest α) :
    (h.followed us).plug loc = h.plug (loc ++ us) := by
  induction h with
  | here ts => rw [followed, plug, plug, append_assoc]
  | skip b ds h ih => rw [followed, plug, plug, ih]
  | inside b h ts ih => rw [followed, plug, plug, ih]

theorem mem_aside_followed {us : Forest α} {h : Hole α} {x : α × Forest α} (hx : x ∈ h.aside) :
    x ∈ (h.followed us).aside := by
  induction h with
  | here ts =>
      rw [followed, aside, subtrees_append]
      exact List.mem_append_right _ hx
  | skip b ds h ih =>
      rw [aside, List.mem_cons, List.mem_append] at hx
      rw [followed, aside, List.mem_cons, List.mem_append]
      exact hx.imp_right (Or.imp_right ih)
  | inside b h ts ih =>
      rw [aside, List.mem_append] at hx
      rw [followed, aside, List.mem_append]
      exact hx.imp_left ih

/-- The list of trees the hole is in, behind those of `acc`. -/
def siblings (loc : Forest α) : (acc : Forest α) → Hole α → Forest α
  | acc, here ts => acc ++ (loc ++ ts)
  | acc, skip a cs h => siblings loc (acc ++ single a cs) h
  | _, inside _ h _ => siblings loc nil h

/-- The list the hole is in does not change around it. -/
theorem exists_siblings (h : Hole α) (acc : Forest α) :
    ∃ pre post : Forest α, (∀ loc, siblings loc acc h = pre ++ (loc ++ post)) ∧
      (∀ a, a ∈ pre.nodes ∨ a ∈ post.nodes → a ∈ acc.nodes ∨ a ∈ h.before ∨ a ∈ h.after) ∧
      (h.top = false → ∀ a, a ∈ pre.nodes ∨ a ∈ post.nodes → a ∈ h.innerAside) := by
  induction h generalizing acc with
  | here ts =>
      refine ⟨acc, ts, fun loc => rfl, fun a ha => ?_, fun htop => absurd htop (by simp [top])⟩
      rcases ha with ha | ha
      · exact .inl ha
      · exact .inr (.inr ha)
  | skip b cs h ih =>
      obtain ⟨pre, post, heq, hnodes, hinner⟩ := ih (acc ++ single b cs)
      refine ⟨pre, post, heq, fun a ha => ?_, fun htop a ha => List.mem_append_right _
        (hinner htop a ha)⟩
      rcases hnodes a ha with ha | ha | ha
      · rw [nodes_append, single, nodes, nodes, List.append_nil, List.mem_append] at ha
        rcases ha with ha | ha
        · exact .inl ha
        · refine .inr (.inl ?_)
          rw [before, ← List.cons_append]
          exact List.mem_append_left _ ha
      · exact .inr (.inl (List.mem_cons_of_mem _ (List.mem_append_right _ ha)))
      · exact .inr (.inr ha)
  | inside b h ts ih =>
      obtain ⟨pre, post, heq, hnodes, -⟩ := ih nil
      have hin : ∀ a, a ∈ pre.nodes ∨ a ∈ post.nodes → a ∈ h.before ∨ a ∈ h.after := fun a ha =>
        (hnodes a ha).resolve_left List.not_mem_nil
      refine ⟨pre, post, heq, fun a ha => ?_, fun _ a ha => ?_⟩
      · rcases hin a ha with ha | ha
        · exact .inr (.inl (List.mem_cons_of_mem _ ha))
        · exact .inr (.inr (List.mem_append_left _ ha))
      · exact List.mem_append_left _ (List.mem_append.mpr (hin a ha))

theorem spine_eq_nil {h : Hole α} (htop : h.top = true) : h.spine = [] := by
  induction h with
  | here ts => rfl
  | skip a cs h ih => exact ih htop
  | inside a h ts ih => cases htop

/-- Every node is in some hole. -/
theorem exists_plug {f : Forest α} {a : α} {cs : Forest α} (h : (a, cs) ∈ f.subtrees) :
    ∃ k : Hole α, f = k.plug (single a cs) := by
  induction f with
  | nil => cases h
  | cons b ds ts ihc iht =>
      rw [subtrees, List.mem_cons, List.mem_append] at h
      rcases h with heq | h | h
      · cases heq
        exact ⟨here ts, rfl⟩
      · obtain ⟨k, rfl⟩ := ihc h
        exact ⟨inside b k ts, rfl⟩
      · obtain ⟨k, rfl⟩ := iht h
        exact ⟨skip b ds k, rfl⟩

/-- A node that has a sibling behind it. -/
theorem exists_plug_next {p : α → Bool} {f : Forest α} {b : α} {ds : Forest α}
    (h : f.next? p = some (b, ds)) :
    ∃ (k : Hole α) (a : α) (cs : Forest α), p a = true ∧ f = k.plug (cons a cs (single b ds)) := by
  induction f with
  | nil => cases h
  | cons a cs ts ihc iht =>
      rw [next?] at h
      split at h
      · rename_i ha
        cases ts with
        | nil => cases h
        | cons c es us =>
            cases h
            exact ⟨here us, a, cs, ha, rfl⟩
      · rcases Option.or_eq_some_iff.mp h with h | ⟨-, h⟩
        · obtain ⟨k, c, es, hc, rfl⟩ := ihc h
          exact ⟨inside a k ts, c, es, hc, rfl⟩
        · obtain ⟨k, c, es, hc, rfl⟩ := iht h
          exact ⟨skip a cs k, c, es, hc, rfl⟩

section

variable {p : α → Bool} {h : Hole α} (hbefore : ∀ a ∈ h.before, p a = false)

include hbefore

theorem find?_plug {a : α} (ha : p a = true) (cs : Forest α) :
    (h.plug (single a cs)).find? p = some (a, cs) := by
  induction h with
  | here ts =>
      rw [plug, single_append, find?, if_pos ha]
  | skip b ds h ih =>
      simp only [before, List.forall_mem_cons, List.forall_mem_append] at hbefore
      obtain ⟨hb, hds, hbefore⟩ := hbefore
      rw [plug, find?, hb, find?_eq_none.mpr hds, Option.none_or, ih hbefore]
      rfl
  | inside b h ts ih =>
      rw [before, List.forall_mem_cons] at hbefore
      rw [plug, find?, hbefore.1, ih hbefore.2]
      rfl

theorem next?_plug {loc : Forest α} {x : α × Forest α} (hloc : loc.next? p = some x) :
    (h.plug loc).next? p = some x := by
  induction h with
  | here ts => exact next?_append hloc ts
  | skip b ds h ih =>
      simp only [before, List.forall_mem_cons, List.forall_mem_append] at hbefore
      obtain ⟨hb, hds, hbefore⟩ := hbefore
      rw [plug, next?, hb, next?_eq_none hds, Option.none_or, ih hbefore]
      rfl
  | inside b h ts ih =>
      rw [before, List.forall_mem_cons] at hbefore
      rw [plug, next?, hbefore.1, ih hbefore.2]
      rfl

variable (hafter : ∀ a ∈ h.after, p a = false)

include hafter

/-- What follows a node below another one. -/
theorem next?_plug_single {a : α} (ha : p a = false) (cs : Forest α) :
    (h.plug (single a cs)).next? p = cs.next? p := by
  induction h with
  | here ts =>
      rw [plug, single_append, next?, ha, next?_eq_none hafter, Option.or_none]
      rfl
  | skip b ds h ih =>
      simp only [before, List.forall_mem_cons, List.forall_mem_append] at hbefore
      obtain ⟨hb, hds, hbefore⟩ := hbefore
      rw [plug, next?, hb, next?_eq_none hds, Option.none_or, ih hbefore hafter]
      rfl
  | inside b h ts ih =>
      rw [before, List.forall_mem_cons] at hbefore
      rw [after, List.forall_mem_append] at hafter
      rw [plug, next?, hbefore.1, ih hbefore.2 hafter.1, next?_eq_none hafter.2, Option.or_none]
      rfl

theorem update_plug (g : α → Forest α → Forest α) (loc : Forest α) :
    (h.plug loc).update p g = h.plug (loc.update p g) := by
  induction h with
  | here ts =>
      have hupdate : ∀ f : Forest α, (f ++ ts).update p g = f.update p g ++ ts := by
        intro f
        induction f with
        | nil => exact update_eq_self hafter
        | cons a cs us _ ih =>
            rw [cons_append, update, update, ih]
            split
            · rw [append_assoc]
            · rfl
      exact hupdate loc
  | skip b ds h ih =>
      simp only [before, List.forall_mem_cons, List.forall_mem_append] at hbefore
      obtain ⟨hb, hds, hbefore⟩ := hbefore
      rw [plug, update, hb, update_eq_self hds, ih hbefore hafter]
      rfl
  | inside b h ts ih =>
      rw [before, List.forall_mem_cons] at hbefore
      rw [after, List.forall_mem_append] at hafter
      rw [plug, update, hbefore.1, update_eq_self hafter.2, ih hbefore.2 hafter.1]
      rfl

end

theorem update_single {p : α → Bool} {a : α} (ha : p a = true) (cs : Forest α)
    (g : α → Forest α → Forest α) : (single a cs).update p g = g a cs := by
  rw [single, update, if_pos ha, update, append_nil]

end Hole

/-! Holes in forests laid out in order. -/

namespace Hole

open Forest

variable {α : Type u} (w : α → Nat)

def weight : Hole α → Nat
  | here ts => Forest.weight w ts
  | skip a cs h => w a + Forest.weight w cs + h.weight
  | inside a h ts => w a + h.weight + Forest.weight w ts

/-- Where the hole is when the forest starts at `p`. -/
def start : Nat → Hole α → Nat
  | p, here _ => p
  | p, skip a cs h => h.start (p + w a + Forest.weight w cs)
  | p, inside a h _ => h.start (p + w a)

variable {w} {pos : α → Nat}

theorem weight_plug (h : Hole α) (loc : Forest α) :
    Forest.weight w (h.plug loc) = weight w h + Forest.weight w loc := by
  induction h with
  | here ts => rw [plug, weight_append, weight, Nat.add_comm]
  | skip a cs h ih =>
      rw [plug, weight_cons, ih, weight]
      omega
  | inside a h ts ih =>
      rw [plug, weight_cons, ih, weight]
      omega

theorem laid_of_plug {h : Hole α} {loc : Forest α} {p : Nat}
    (hlaid : Laid w pos p (h.plug loc)) : Laid w pos (start w p h) loc := by
  induction h generalizing p with
  | here ts => exact (laid_append.mp hlaid).1
  | skip a cs h ih => exact ih hlaid.2.2
  | inside a h ts ih => exact ih hlaid.2.1

/-- Another forest of the same weight, laid out in the hole. -/
theorem laid_plug {h : Hole α} {loc loc' : Forest α} {p : Nat}
    (hlaid : Laid w pos p (h.plug loc)) (hweight : Forest.weight w loc' = Forest.weight w loc)
    (hloc : Laid w pos (start w p h) loc') : Laid w pos p (h.plug loc') := by
  induction h generalizing p with
  | here ts =>
      rw [plug, laid_append] at hlaid
      rw [plug, laid_append, hweight]
      exact ⟨hloc, hlaid.2⟩
  | skip a cs h ih => exact ⟨hlaid.1, hlaid.2.1, ih hlaid.2.2 hloc⟩
  | inside a h ts ih =>
      obtain ⟨ha, hin, hts⟩ := hlaid
      refine ⟨ha, ih hin hloc, ?_⟩
      rwa [weight_plug, hweight, ← weight_plug]

theorem start_bounds (p : Nat) (h : Hole α) (loc : Forest α) :
    p ≤ start w p h ∧
      start w p h + Forest.weight w loc ≤ p + Forest.weight w (h.plug loc) := by
  induction h generalizing p with
  | here ts =>
      rw [plug, weight_append, start]
      omega
  | skip a cs h ih =>
      have := ih (p + w a + Forest.weight w cs)
      rw [plug, weight_cons, start]
      omega
  | inside a h ts ih =>
      have := ih (p + w a)
      rw [plug, weight_cons, start]
      omega

/-- What is besides the hole does not overlap it. -/
theorem aside_bounds {h : Hole α} {loc : Forest α} {p : Nat} (hlaid : Laid w pos p (h.plug loc))
    {a : α} {cs : Forest α} (hmem : (a, cs) ∈ h.aside) :
    pos a + w a + Forest.weight w cs ≤ start w p h ∨
      start w p h + Forest.weight w loc ≤ pos a := by
  induction h generalizing p with
  | here ts =>
      have := (laid_append.mp hlaid).2.bounds hmem
      exact .inr this.1
  | skip b ds h ih =>
      obtain ⟨hb, hds, hrest⟩ := hlaid
      have hstart := (start_bounds (w := w) (p + w b + Forest.weight w ds) h loc).1
      rw [start]
      rw [aside, List.mem_cons, List.mem_append] at hmem
      rcases hmem with heq | hmem | hmem
      · cases heq
        omega
      · have := hds.bounds hmem
        omega
      · exact ih hrest hmem
  | inside b h ts ih =>
      obtain ⟨hb, hin, hts⟩ := hlaid
      have hend := (start_bounds (w := w) (p + w b) h loc).2
      rw [start]
      rw [aside, List.mem_append] at hmem
      rcases hmem with hmem | hmem
      · exact ih hin hmem
      · have := hts.bounds hmem
        omega

/-- The nodes the hole is in span it. -/
theorem spine_bounds {h : Hole α} {loc : Forest α} {p : Nat} (hlaid : Laid w pos p (h.plug loc))
    {a : α} {k : Hole α} (hmem : (a, k) ∈ h.spine) :
    pos a + w a ≤ start w p h ∧
      start w p h + Forest.weight w loc ≤ pos a + w a + Forest.weight w (k.plug loc) := by
  induction h generalizing p with
  | here ts => cases hmem
  | skip b ds h ih => exact ih hlaid.2.2 hmem
  | inside b h ts ih =>
      obtain ⟨hb, hin, -⟩ := hlaid
      rw [start]
      rw [spine, List.mem_cons] at hmem
      rcases hmem with heq | hmem
      · cases heq
        have := start_bounds (w := w) (p + w a) k loc
        omega
      · exact ih hin hmem

end Hole

end Lib

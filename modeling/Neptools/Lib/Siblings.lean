import Mathlib.Data.List.Chain
import Neptools.Lib.Hole

/-!
What follows what in the lists of siblings of a forest, when the forest is changed
in one place.
-/

namespace Lib

universe u

namespace Forest

variable {α : Type u} {p : α → Bool}

@[simp] theorem roots_append (f g : Forest α) : (f ++ g).roots = f.roots ++ g.roots := by
  induction f with
  | nil => rfl
  | cons a cs ts _ ih => rw [cons_append, roots, roots, ih, List.cons_append]

theorem roots_map (g : α → α) (f : Forest α) : (f.map g).roots = f.roots.map g := by
  induction f with
  | nil => rfl
  | cons a cs ts _ ih => rw [map, roots, roots, ih, List.map_cons]

theorem subtrees_map (g : α → α) (f : Forest α) :
    (f.map g).subtrees = f.subtrees.map fun x => (g x.1, x.2.map g) := by
  induction f with
  | nil => rfl
  | cons a cs ts ihc iht =>
      rw [map, subtrees, subtrees, ihc, iht, List.map_cons, List.map_append]

theorem mem_nodes_of_mem_roots {f : Forest α} {a : α} (h : a ∈ f.roots) : a ∈ f.nodes :=
  f.nodes_perm.mem_iff.mpr (List.mem_append_left _ h)

/-- What follows a node is looked for in one list after the other. -/
theorem next?_append_of_roots {f : Forest α} (h : ∀ a ∈ f.roots, p a = false) (g : Forest α) :
    (f ++ g).next? p = (f.next? p).or (g.next? p) := by
  induction f with
  | nil => rfl
  | cons a cs ts _ ih =>
      rw [roots, List.forall_mem_cons] at h
      rw [cons_append, next?, next?, h.1, ih h.2, ← Option.or_assoc]
      rfl

end Forest

namespace Hole

open Forest

variable {α : Type u} {p : α → Bool} {h : Hole α}

/-- The node that follows the hole in its list. -/
def follower? : Hole α → Option (α × Forest α)
  | here ts => ts.head?
  | skip _ _ h => h.follower?
  | inside _ h _ => h.follower?

theorem follower?_behind (a : α) (cs : Forest α) (h : Hole α) :
    (h.behind a cs).follower? = h.follower? := by
  induction h with
  | here ts => rfl
  | skip b ds h ih => exact ih
  | inside b h ts ih => exact ih

/-- The last node in the hole is followed by what follows the hole. -/
theorem next?_plug_last (hbefore : ∀ a ∈ h.before, p a = false)
    (hafter : ∀ a ∈ h.after, p a = false) {pre : Forest α} (hpre : ∀ a ∈ pre.nodes, p a = false)
    {a : α} (ha : p a = true) (cs : Forest α) :
    (h.plug (pre ++ single a cs)).next? p = h.follower? := by
  induction h with
  | here ts =>
      rw [plug, append_assoc, next?_append_of_roots fun b hb => hpre b (mem_nodes_of_mem_roots hb),
        next?_eq_none hpre, Option.none_or, single_append, next?, if_pos ha]
      rfl
  | skip b ds h ih =>
      simp only [before, List.forall_mem_cons, List.forall_mem_append] at hbefore
      obtain ⟨hb, hds, hbefore⟩ := hbefore
      rw [plug, next?, hb, next?_eq_none hds, Option.none_or]
      exact ih hbefore hafter
  | inside b h ts ih =>
      rw [before, List.forall_mem_cons] at hbefore
      rw [after, List.forall_mem_append] at hafter
      rw [plug, next?, hbefore.1, ih hbefore.2 hafter.1, next?_eq_none hafter.2, Option.or_none]
      rfl

theorem next?_plug_follower (hbefore : ∀ a ∈ h.before, p a = false)
    (hafter : ∀ a ∈ h.after, p a = false) {a : α} (ha : p a = true) (cs : Forest α) :
    (h.plug (single a cs)).next? p = h.follower? :=
  have hnil : ∀ b ∈ (nil : Forest α).nodes, p b = false := fun _ hb => nomatch hb
  next?_plug_last hbefore hafter hnil ha cs

theorem plug_ne_nil (h : Hole α) {loc : Forest α} (hloc : loc.roots ≠ []) : h.plug loc ≠ nil := by
  cases h with
  | here ts =>
      intro hnil
      have hroots := congrArg roots hnil
      rw [plug, roots_append] at hroots
      exact hloc (List.append_eq_nil_iff.mp hroots).1
  | skip a cs h => simp [plug]
  | inside a h ts => simp [plug]

/-- There is only one hole for the only node. -/
theorem eq_here_of_plug_single {a b : α} {cs : Forest α}
    (heq : h.plug (single a cs) = single b nil) : h = here nil := by
  have hne : (single a cs).roots ≠ [] := List.cons_ne_nil _ _
  cases h with
  | here ts =>
      rw [plug, single_append] at heq
      rw [(Forest.cons.inj heq).2.2]
  | skip c ds h => exact absurd (Forest.cons.inj heq).2.2 (h.plug_ne_nil hne)
  | inside c h ts => exact absurd (Forest.cons.inj heq).2.1 (h.plug_ne_nil hne)

/-- Where no node has children, no hole is below another node. -/
theorem top_of_childless {loc : Forest α} (hloc : loc.roots ≠ [])
    (hchildless : ∀ x ∈ (h.plug loc).subtrees, x.2 = nil) : h.top = true := by
  induction h with
  | here ts => rfl
  | skip a cs h ih =>
      exact ih fun x hx => hchildless x (List.mem_cons_of_mem _ (List.mem_append_right _ hx))
  | inside a h ts ih =>
      exact absurd (hchildless (a, h.plug loc) List.mem_cons_self) (h.plug_ne_nil hloc)

/-- What follows a node elsewhere is there whatever is in the hole. -/
theorem next?_plug_ne_none {loc loc' : Forest α} (hroots : ∀ a ∈ loc.roots, p a = false)
    (hroots' : ∀ a ∈ loc'.roots, p a = false) (hne : loc'.roots ≠ [])
    (hloc : loc.next? p ≠ none → loc'.next? p ≠ none) (hnext : (h.plug loc).next? p ≠ none) :
    (h.plug loc').next? p ≠ none := by
  have hor {x x' y : Option (α × Forest α)} (hx : x ≠ none → x' ≠ none) (hxy : x.or y ≠ none) :
      x'.or y ≠ none := by
    cases x' with
    | some a => exact Option.some_ne_none _
    | none =>
        obtain rfl : x = none := Decidable.not_not.mp fun hsome => hx hsome rfl
        exact hxy
  induction h with
  | here ts =>
      rw [plug, next?_append_of_roots hroots] at hnext
      rw [plug, next?_append_of_roots hroots']
      exact hor hloc hnext
  | skip b ds h ih =>
      rw [plug, next?] at hnext ⊢
      split at hnext
      · rename_i hb
        rw [if_pos hb]
        cases hplug : h.plug loc' with
        | nil => exact absurd hplug (h.plug_ne_nil hne)
        | cons c es us => exact Option.some_ne_none _
      · rename_i hb
        rw [if_neg hb]
        cases hds : ds.next? p with
        | some x => exact Option.some_ne_none _
        | none =>
            rw [hds, Option.none_or] at hnext
            rw [Option.none_or]
            exact ih hnext
  | inside b h ts ih =>
      rw [plug, next?] at hnext ⊢
      split at hnext
      · rename_i hb
        rw [if_pos hb]
        exact hnext
      · rename_i hb
        rw [if_neg hb]
        exact hor ih hnext

/-- A node that follows another one, both elsewhere, still does when the hole is filled anew. -/
theorem next?_plug_of_not_mem {loc loc' : Forest α} (hloc : ∀ a ∈ loc.nodes, p a = false)
    (hloc' : ∀ a ∈ loc'.nodes, p a = false) (hne : loc.roots ≠ []) {b : α} {bs : Forest α}
    (hb : b ∉ loc.roots) (hnext : (h.plug loc).next? p = some (b, bs)) :
    ∃ bs', (h.plug loc').next? p = some (b, bs') := by
  have hroots : ∀ a ∈ loc.roots, p a = false := fun a ha => hloc a (mem_nodes_of_mem_roots ha)
  have hroots' : ∀ a ∈ loc'.roots, p a = false := fun a ha => hloc' a (mem_nodes_of_mem_roots ha)
  induction h with
  | here ts =>
      rw [plug, next?_append_of_roots hroots, next?_eq_none hloc, Option.none_or] at hnext
      rw [plug, next?_append_of_roots hroots', next?_eq_none hloc', Option.none_or]
      exact ⟨bs, hnext⟩
  | skip c ds h ih =>
      rw [plug, next?] at hnext ⊢
      split at hnext
      · rename_i hc
        rw [if_pos hc]
        cases h with
        | here ts =>
            cases loc with
            | nil => exact absurd rfl hne
            | cons a as us =>
                cases hnext
                exact absurd List.mem_cons_self hb
        | skip e es h =>
            cases hnext
            exact ⟨_, rfl⟩
        | inside e h ts =>
            cases hnext
            exact ⟨_, rfl⟩
      · rename_i hc
        rw [if_neg hc]
        rcases Option.or_eq_some_iff.mp hnext with hin | ⟨hnone, hrest⟩
        · exact ⟨bs, by rw [hin, Option.some_or]⟩
        · rw [hnone, Option.none_or]
          exact ih hrest
  | inside c h ts ih =>
      rw [plug, next?] at hnext ⊢
      split at hnext
      · rename_i hc
        rw [if_pos hc]
        exact ⟨bs, hnext⟩
      · rename_i hc
        rw [if_neg hc]
        rcases Option.or_eq_some_iff.mp hnext with hin | ⟨hnone, hrest⟩
        · obtain ⟨bs', hbs'⟩ := ih hin
          exact ⟨bs', by rw [hbs', Option.some_or]⟩
        · -- nothing else in the hole is followed by anything either
          have hnone' : (h.plug loc').next? p = none := by
            by_contra hsome
            exact next?_plug_ne_none hroots' hroots hne
              (fun hsome' => absurd (next?_eq_none hloc') hsome') hsome hnone
          exact ⟨bs, by rw [hnone', Option.none_or, hrest]⟩

/-- The list of the roots, if the hole is among them or below one of them. -/
theorem roots_plug (h : Hole α) :
    (h.top = true ∧ ∃ pre post, (∀ loc, (h.plug loc).roots = pre ++ loc.roots ++ post) ∧
      (h.follower? = none → post = [])) ∨
    h.top = false ∧ ∃ rs, ∀ loc, (h.plug loc).roots = rs := by
  induction h with
  | here ts =>
      refine .inl ⟨rfl, [], ts.roots, fun loc => roots_append loc ts, fun hnone => ?_⟩
      cases ts with
      | nil => rfl
      | cons a cs us => cases hnone
  | skip a cs h ih =>
      rcases ih with ⟨htop, pre, post, hroots, hpost⟩ | ⟨htop, rs, hroots⟩
      · exact .inl ⟨htop, a :: pre, post, fun loc => congrArg (a :: ·) (hroots loc), hpost⟩
      · exact .inr ⟨htop, a :: rs, fun loc => congrArg (a :: ·) (hroots loc)⟩
  | inside a h ts ih => exact .inr ⟨rfl, a :: ts.roots, fun loc => rfl⟩

end Hole

/-! Nodes of a kind that never follow each other. -/

section

variable {α : Type u} (P : α → Bool)

def NotBoth (a b : α) : Prop := P a = true → P b = false

variable {P}

/-- A node of the kind may be replaced by any list without such neighbours. -/
theorem isChain_fill {pre mid post : List α} {r : α} (hr : P r = true)
    (h : (pre ++ [r] ++ post).IsChain (NotBoth P)) (hmid : mid.IsChain (NotBoth P)) :
    (pre ++ mid ++ post).IsChain (NotBoth P) := by
  obtain ⟨hpre, hpost, hlast⟩ := List.isChain_append.mp h
  obtain ⟨hpre, -, hfirst⟩ := List.isChain_append.mp hpre
  have hbefore : ∀ x ∈ pre.getLast?, P x = false := fun x hx => by
    cases hP : P x with
    | false => rfl
    | true => exact absurd (hr.symm.trans (hfirst x hx r rfl hP)) Bool.noConfusion
  have hbehind : ∀ y ∈ post.head?, P y = false := fun y hy =>
    hlast r (by rw [List.getLast?_append]; rfl) y hy hr
  refine List.isChain_append.mpr ⟨List.isChain_append.mpr ⟨hpre, hmid, ?_⟩, hpost, ?_⟩
  · intro x hx y _ hP
    exact absurd ((hbefore x hx).symm.trans hP) Bool.noConfusion
  · exact fun x _ y hy _ => hbehind y hy

/-- A node may be replaced by one that is not of the kind. -/
theorem isChain_swap {pre post : List α} {r n : α} (hn : P n = false)
    (h : (pre ++ [r] ++ post).IsChain (NotBoth P)) :
    (pre ++ [n] ++ post).IsChain (NotBoth P) := by
  obtain ⟨hpre, hpost, -⟩ := List.isChain_append.mp h
  obtain ⟨hpre, -, -⟩ := List.isChain_append.mp hpre
  refine List.isChain_append.mpr ⟨List.isChain_append.mpr ⟨hpre, List.isChain_singleton n, ?_⟩,
    hpost, ?_⟩
  · intro x _ y hy _
    cases hy
    exact hn
  · intro x hx y _ hP
    rw [List.getLast?_append] at hx
    cases hx
    exact absurd (hn.symm.trans hP) Bool.noConfusion

variable (P)

/-- No two neighbours are of the kind; `tail` is behind the roots. -/
structure Spaced (tail : List α) (f : Forest α) : Prop where
  roots : (f.roots ++ tail).IsChain (NotBoth P)
  inner : ∀ x ∈ f.subtrees, x.2.roots.IsChain (NotBoth P)

variable {P} {tail : List α} {h : Hole α} {loc loc' : Forest α}

/-- The hole is filled anew, so that there are no such neighbours in it or around it. -/
theorem Spaced.replug (hspaced : Spaced P tail (h.plug loc))
    (hroots : ∀ pre post, (pre ++ loc.roots ++ post).IsChain (NotBoth P) →
      (pre ++ loc'.roots ++ post).IsChain (NotBoth P))
    (hinner : ∀ x ∈ loc'.subtrees, x.2.roots.IsChain (NotBoth P)) :
    Spaced P tail (h.plug loc') := by
  refine ⟨?_, fun x hx => ?_⟩
  · have hold := hspaced.roots
    rcases h.roots_plug with ⟨-, pre, post, heq, -⟩ | ⟨-, rs, heq⟩
    · rw [heq, List.append_assoc] at hold ⊢
      exact hroots _ _ hold
    · rwa [heq] at hold ⊢
  · rcases Hole.mem_subtrees_plug.mp hx with hx | haside | ⟨⟨a, h'⟩, hspine, rfl⟩
    · exact hinner x hx
    · exact hspaced.inner x (Hole.mem_subtrees_plug.mpr (.inr (.inl haside)))
    · have hold := hspaced.inner (a, h'.plug loc)
        (Hole.mem_subtrees_plug.mpr (.inr (.inr ⟨_, hspine, rfl⟩)))
      dsimp only at hold ⊢
      rcases h'.roots_plug with ⟨-, pre, post, heq, -⟩ | ⟨-, rs, heq⟩
      · rw [heq] at hold ⊢
        exact hroots _ _ hold
      · rwa [heq] at hold ⊢

/-- There are no such neighbours in the hole. -/
theorem Spaced.chain (hspaced : Spaced P tail (h.plug loc)) : loc.roots.IsChain (NotBoth P) := by
  induction h generalizing tail with
  | here ts =>
      have hroots := hspaced.roots
      rw [Hole.plug, Forest.roots_append, List.append_assoc] at hroots
      exact (List.isChain_append.mp hroots).1
  | skip a cs h ih =>
      exact ih ⟨List.IsChain.of_cons hspaced.roots, fun x hx => hspaced.inner x
        (List.mem_cons_of_mem _ (List.mem_append_right _ hx))⟩
  | inside a h ts ih =>
      refine @ih [] ⟨?_, fun x hx => hspaced.inner x
        (List.mem_cons_of_mem _ (List.mem_append_left _ hx))⟩
      rw [List.append_nil]
      exact hspaced.inner (a, h.plug loc) List.mem_cons_self

theorem Spaced.next? {f : Forest α} (hspaced : Spaced P tail f) {p : α → Bool}
    (hp : ∀ a ∈ f.nodes, p a = true → P a = true) {x : α × Forest α} (hnext : f.next? p = some x) :
    P x.1 = false := by
  obtain ⟨h, a, cs, ha, rfl⟩ := Hole.exists_plug_next hnext
  have hboth : NotBoth P a x.1 := List.isChain_pair.mp hspaced.chain
  refine hboth (hp a ?_ ha)
  rw [Hole.nodes_plug]
  exact List.mem_append_left _ (List.mem_append_right _ List.mem_cons_self)

/-- Only what `P` sees of the nodes matters. -/
theorem isChain_congr {l l' : List α} (heq : l'.map P = l.map P) :
    l'.IsChain (NotBoth P) ↔ l.IsChain (NotBoth P) := by
  have hmap (as : List α) : as.IsChain (NotBoth P) ↔
      (as.map P).IsChain fun a b => a = true → b = false :=
    (List.isChain_map (R := fun a b : Bool => a = true → b = false) P).symm
  rw [hmap, heq, ← hmap]

theorem spaced_map {f : Forest α} {g : α → α} (hg : ∀ a, P (g a) = P a) :
    Spaced P tail (f.map g) ↔ Spaced P tail f := by
  have hroots (f : Forest α) : (f.map g).roots.map P = f.roots.map P := by
    rw [Forest.roots_map, List.map_map]
    exact List.map_congr_left fun a _ => hg a
  have hall : ((f.map g).roots ++ tail).map P = (f.roots ++ tail).map P := by
    rw [List.map_append, List.map_append, hroots]
  constructor
  · refine fun h => ⟨(isChain_congr hall).mp h.roots, fun x hx => ?_⟩
    refine (isChain_congr (hroots x.2)).mp (h.inner (g x.1, x.2.map g) ?_)
    rw [Forest.subtrees_map]
    exact List.mem_map_of_mem hx
  · refine fun h => ⟨(isChain_congr hall).mpr h.roots, fun x hx => ?_⟩
    rw [Forest.subtrees_map] at hx
    obtain ⟨y, hy, rfl⟩ := List.mem_map.mp hx
    exact (isChain_congr (hroots y.2)).mpr (h.inner y hy)

/-- A node of the kind among the roots has a node behind it, if `tail` begins with one. -/
theorem Spaced.follower (hspaced : Spaced P tail (h.plug loc)) (htop : h.top = true) {r t : α}
    (hlast : loc.roots.getLast? = some r) (hr : P r = true) (htail : tail.head? = some t)
    (ht : P t = true) : h.follower? ≠ none := by
  intro hnone
  rcases h.roots_plug with ⟨-, pre, post, heq, hpost⟩ | ⟨hnot, -⟩
  · have hold := hspaced.roots
    rw [heq, hpost hnone, List.append_nil] at hold
    obtain ⟨-, -, hboth⟩ := List.isChain_append.mp hold
    have hrLast : r ∈ (pre ++ loc.roots).getLast? := by
      rw [List.getLast?_append, hlast]
      rfl
    exact absurd (ht.symm.trans (hboth r hrLast t htail hr)) Bool.noConfusion
  · exact absurd (htop.symm.trans hnot) Bool.noConfusion

end

end Lib

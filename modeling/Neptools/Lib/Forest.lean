import Mathlib.Algebra.Group.Int.Defs
import Mathlib.Algebra.GroupWithZero.Nat
import Mathlib.Data.List.Basic
import Mathlib.Data.List.Perm.Basic

/-!
Ordered forests. The second half is about forests laid out one node after the
other: each node has a weight of its own, in front of its children.
-/

namespace Lib

universe u v

inductive Forest (α : Type u)
  | nil
  | cons (a : α) (children siblings : Forest α)
  deriving Repr, DecidableEq

namespace Forest

variable {α : Type u} {β : Type v}

def append : Forest α → Forest α → Forest α
  | nil, g => g
  | cons a cs ts, g => cons a cs (ts.append g)

instance : Append (Forest α) := ⟨append⟩

@[simp] theorem nil_append (g : Forest α) : nil ++ g = g := rfl

@[simp] theorem cons_append (a : α) (cs ts g : Forest α) :
    cons a cs ts ++ g = cons a cs (ts ++ g) := rfl

@[simp] theorem append_nil (f : Forest α) : f ++ nil = f := by
  induction f with
  | nil => rfl
  | cons a cs ts _ ih => rw [cons_append, ih]

theorem append_assoc (f g k : Forest α) : f ++ g ++ k = f ++ (g ++ k) := by
  induction f with
  | nil => rfl
  | cons a cs ts _ ih => rw [cons_append, cons_append, cons_append, ih]

def single (a : α) (cs : Forest α) : Forest α := cons a cs nil

@[simp] theorem single_append (a : α) (cs ts : Forest α) : single a cs ++ ts = cons a cs ts := rfl

def roots : Forest α → List α
  | nil => []
  | cons a _ ts => a :: ts.roots

/-- The nodes with their children, in preorder. -/
def subtrees : Forest α → List (α × Forest α)
  | nil => []
  | cons a cs ts => (a, cs) :: (cs.subtrees ++ ts.subtrees)

def nodes : Forest α → List α
  | nil => []
  | cons a cs ts => a :: (cs.nodes ++ ts.nodes)

@[simp] theorem nodes_append (f g : Forest α) : (f ++ g).nodes = f.nodes ++ g.nodes := by
  induction f with
  | nil => rfl
  | cons a cs ts _ ih => rw [cons_append, nodes, nodes, ih, List.cons_append, List.append_assoc]

@[simp] theorem subtrees_append (f g : Forest α) :
    (f ++ g).subtrees = f.subtrees ++ g.subtrees := by
  induction f with
  | nil => rfl
  | cons a cs ts _ ih =>
      rw [cons_append, subtrees, subtrees, ih, List.cons_append, List.append_assoc]

/-- The nodes that are below others. -/
def inner : Forest α → List α
  | nil => []
  | cons _ cs ts => cs.nodes ++ ts.inner

theorem inner_append (f g : Forest α) : (f ++ g).inner = f.inner ++ g.inner := by
  induction f with
  | nil => rfl
  | cons a cs ts _ ih => rw [cons_append, inner, inner, ih, List.append_assoc]

theorem nodes_perm (f : Forest α) : f.nodes.Perm (f.roots ++ f.inner) := by
  induction f with
  | nil => exact .nil
  | cons a cs ts _ ih =>
      have hrest : (cs.nodes ++ (ts.roots ++ ts.inner)).Perm
          (ts.roots ++ (cs.nodes ++ ts.inner)) := by
        rw [← List.append_assoc, ← List.append_assoc]
        exact .append_right _ List.perm_append_comm
      exact .cons a ((List.Perm.append_left _ ih).trans hrest)

theorem map_fst_subtrees (f : Forest α) : f.subtrees.map Prod.fst = f.nodes := by
  induction f with
  | nil => rfl
  | cons a cs ts ihc iht => rw [subtrees, List.map_cons, List.map_append, ihc, iht, nodes]

theorem mem_nodes {f : Forest α} {a : α} : a ∈ f.nodes ↔ ∃ cs, (a, cs) ∈ f.subtrees := by
  rw [← map_fst_subtrees, List.mem_map]
  constructor
  · rintro ⟨⟨b, cs⟩, hmem, rfl⟩
    exact ⟨cs, hmem⟩
  · rintro ⟨cs, hmem⟩
    exact ⟨_, hmem, rfl⟩

def map (f : α → β) : Forest α → Forest β
  | nil => nil
  | cons a cs ts => cons (f a) (cs.map f) (ts.map f)

theorem nodes_map (f : α → β) (t : Forest α) : (t.map f).nodes = t.nodes.map f := by
  induction t with
  | nil => rfl
  | cons a cs ts ihc iht => rw [map, nodes, nodes, ihc, iht, List.map_cons, List.map_append]

/-- The first node, in preorder, that meets `p`. -/
def find? (p : α → Bool) : Forest α → Option (α × Forest α)
  | nil => none
  | cons a cs ts => if p a then some (a, cs) else (cs.find? p).or (ts.find? p)

/-- The first tree whose root meets `p`, and the other trees. -/
def takeRoot? (p : α → Bool) : Forest α → Option (α × Forest α × Forest α)
  | nil => none
  | cons a cs ts =>
      if p a then some (a, cs, ts)
      else (ts.takeRoot? p).map fun (b, ds, rest) => (b, ds, cons a cs rest)

theorem takeRoot?_some {p : α → Bool} {f : Forest α} {a : α} {cs rest : Forest α}
    (h : f.takeRoot? p = some (a, cs, rest)) :
    p a = true ∧ f.subtrees.Perm (rest.subtrees ++ (single a cs).subtrees) ∧
      f.nodes.Perm (rest.nodes ++ (single a cs).nodes) := by
  induction f generalizing rest with
  | nil => cases h
  | cons b ds ts _ ih =>
      rw [takeRoot?] at h
      split at h
      · rename_i hb
        cases h
        refine ⟨hb, ?_, ?_⟩
        · rw [subtrees, single, subtrees, subtrees, List.append_nil, ← List.cons_append]
          exact List.perm_append_comm
        · rw [nodes, single, nodes, nodes, List.append_nil, ← List.cons_append]
          exact List.perm_append_comm
      · obtain ⟨⟨b', ds', rest'⟩, htake, heq⟩ := Option.map_eq_some_iff.mp h
        cases heq
        obtain ⟨ha, hsubtrees, hnodes⟩ := ih htake
        refine ⟨ha, ?_, ?_⟩
        · rw [subtrees, subtrees, List.cons_append, List.append_assoc]
          exact (hsubtrees.append_left _).cons _
        · rw [nodes, nodes, List.cons_append, List.append_assoc]
          exact (hnodes.append_left _).cons _

/-- The number of trees. -/
def length : Forest α → Nat
  | nil => 0
  | cons _ _ ts => ts.length + 1

theorem length_map (f : α → β) (t : Forest α) : (t.map f).length = t.length := by
  induction t with
  | nil => rfl
  | cons a cs ts _ ih => exact congrArg Nat.succ ih

theorem length_append (f g : Forest α) : (f ++ g).length = f.length + g.length := by
  induction f with
  | nil => rw [nil_append, length, Nat.zero_add]
  | cons a cs ts _ ih => rw [cons_append, length, length, ih, Nat.add_right_comm]

/-- A list of trees without children has no other nodes. -/
theorem inner_eq_nil {f : Forest α} (h : ∀ a cs, (a, cs) ∈ f.subtrees → cs = nil) :
    f.inner = [] := by
  induction f with
  | nil => rfl
  | cons a cs ts _ ih =>
      obtain rfl : cs = nil := h a cs List.mem_cons_self
      exact ih fun b ds hmem => h b ds (List.mem_cons_of_mem _ hmem)

theorem length_roots (f : Forest α) : f.roots.length = f.length := by
  induction f with
  | nil => rfl
  | cons a cs ts _ ih => exact congrArg (· + 1) ih

theorem length_nodes {f : Forest α} (h : ∀ a cs, (a, cs) ∈ f.subtrees → cs = nil) :
    f.nodes.length = f.length := by
  rw [f.nodes_perm.length_eq, inner_eq_nil h, List.append_nil, length_roots]

/-- What is below a node is in the forest. -/
theorem mem_subtrees_trans {f : Forest α} {a : α} {cs : Forest α} {x : α × Forest α}
    (h : (a, cs) ∈ f.subtrees) (hx : x ∈ cs.subtrees) : x ∈ f.subtrees := by
  induction f with
  | nil => cases h
  | cons c ds ts ihc iht =>
      rw [subtrees, List.mem_cons, List.mem_append] at h ⊢
      rcases h with heq | h | h
      · cases heq
        exact .inr (.inl hx)
      · exact .inr (.inl (ihc h))
      · exact .inr (.inr (iht h))

theorem mem_nodes_of_mem_subtrees {f : Forest α} {a b : α} {cs : Forest α}
    (h : (a, cs) ∈ f.subtrees) (hb : b ∈ cs.nodes) : b ∈ f.nodes := by
  obtain ⟨ds, hds⟩ := mem_nodes.mp hb
  exact mem_nodes.mpr ⟨ds, mem_subtrees_trans h hds⟩

def head? : Forest α → Option (α × Forest α)
  | nil => none
  | cons a cs _ => some (a, cs)

/-- The sibling that follows the node that meets `p`. -/
def next? (p : α → Bool) : Forest α → Option (α × Forest α)
  | nil => none
  | cons a cs ts => if p a then ts.head? else (cs.next? p).or (ts.next? p)

/-- The nodes that meet `p` are replaced, together with their children. -/
def update (p : α → Bool) (g : α → Forest α → Forest α) : Forest α → Forest α
  | nil => nil
  | cons a cs ts => if p a then g a cs ++ ts.update p g else cons a (cs.update p g) (ts.update p g)

theorem find?_eq_none {p : α → Bool} {f : Forest α} :
    f.find? p = none ↔ ∀ a ∈ f.nodes, p a = false := by
  induction f with
  | nil => exact ⟨fun _ _ h => (nomatch h), fun _ => rfl⟩
  | cons a cs ts ihc iht =>
      rw [find?, nodes, List.forall_mem_cons, List.forall_mem_append]
      cases h : p a with
      | true => simp
      | false => simp [ihc, iht]

theorem find?_some {p : α → Bool} {f : Forest α} {a : α} {cs : Forest α}
    (h : f.find? p = some (a, cs)) : (a, cs) ∈ f.subtrees ∧ p a = true := by
  induction f with
  | nil => cases h
  | cons b ds ts ihc iht =>
      rw [find?] at h
      rw [subtrees]
      split at h
      · rename_i hb
        cases h
        exact ⟨List.mem_cons_self, hb⟩
      · rcases Option.or_eq_some_iff.mp h with h | ⟨-, h⟩
        · exact ⟨List.mem_cons_of_mem _ (List.mem_append_left _ (ihc h).1), (ihc h).2⟩
        · exact ⟨List.mem_cons_of_mem _ (List.mem_append_right _ (iht h).1), (iht h).2⟩

theorem update_eq_self {p : α → Bool} {g : α → Forest α → Forest α} {f : Forest α}
    (h : ∀ a ∈ f.nodes, p a = false) : f.update p g = f := by
  induction f with
  | nil => rfl
  | cons a cs ts ihc iht =>
      rw [nodes, List.forall_mem_cons, List.forall_mem_append] at h
      rw [update, h.1, ihc h.2.1, iht h.2.2]
      rfl

/-- A change of single nodes that `f` does not see. -/
theorem map_update {p : α → Bool} {g : α → α} {f : α → β} (hg : ∀ a, f (g a) = f a)
    (t : Forest α) : (t.update p fun a cs => single (g a) cs).map f = t.map f := by
  induction t with
  | nil => rfl
  | cons a cs ts ihc iht =>
      rw [update]
      split
      · rw [single_append, map, map, hg, iht]
      · rw [map, map, ihc, iht]

theorem map_nodes_update {p : α → Bool} {g : α → α} {f : α → β} (hg : ∀ a, f (g a) = f a)
    (t : Forest α) :
    (t.update p fun a cs => single (g a) cs).nodes.map f = t.nodes.map f := by
  rw [← nodes_map, ← nodes_map, map_update hg]

theorem find?_map (p : β → Bool) (f : α → β) (t : Forest α) :
    (t.map f).find? p = (t.find? (p ∘ f)).map fun x => (f x.1, x.2.map f) := by
  induction t with
  | nil => rfl
  | cons a cs ts ihc iht =>
      rw [map, find?, find?]
      change (if p (f a) then _ else _) = Option.map _ (if p (f a) then _ else _)
      split
      · rfl
      · rw [ihc, iht, Option.map_or]

theorem next?_map (p : β → Bool) (f : α → β) (t : Forest α) :
    (t.map f).next? p = (t.next? (p ∘ f)).map fun x => (f x.1, x.2.map f) := by
  induction t with
  | nil => rfl
  | cons a cs ts ihc iht =>
      rw [map, next?, next?]
      change (if p (f a) then _ else _) = Option.map _ (if p (f a) then _ else _)
      split
      · cases ts <;> rfl
      · rw [ihc, iht, Option.map_or]

theorem next?_eq_none {p : α → Bool} {f : Forest α} (h : ∀ a ∈ f.nodes, p a = false) :
    f.next? p = none := by
  induction f with
  | nil => rfl
  | cons a cs ts ihc iht =>
      rw [nodes, List.forall_mem_cons, List.forall_mem_append] at h
      rw [next?, h.1, ihc h.2.1, iht h.2.2]
      rfl

theorem mem_of_next? {p : α → Bool} {f : Forest α} {x : α × Forest α} (h : f.next? p = some x) :
    x ∈ f.subtrees := by
  induction f with
  | nil => cases h
  | cons a cs ts ihc iht =>
      rw [next?] at h
      rw [subtrees, List.mem_cons, List.mem_append]
      split at h
      · cases ts with
        | nil => cases h
        | cons b ds us =>
            cases h
            exact .inr (.inr List.mem_cons_self)
      · rcases Option.or_eq_some_iff.mp h with h | ⟨-, h⟩
        · exact .inr (.inl (ihc h))
        · exact .inr (.inr (iht h))

theorem next?_append {p : α → Bool} {f : Forest α} {x : α × Forest α} (h : f.next? p = some x)
    (g : Forest α) : (f ++ g).next? p = some x := by
  induction f with
  | nil => cases h
  | cons a cs ts _ iht =>
      rw [next?] at h
      rw [cons_append, next?]
      split at h
      · rename_i ha
        rw [if_pos ha]
        cases ts with
        | nil => cases h
        | cons b ds us => exact h
      · rename_i ha
        rw [if_neg ha]
        rcases Option.or_eq_some_iff.mp h with h | ⟨hnone, h⟩
        · rw [h, Option.some_or]
        · rw [hnone, iht h, Option.none_or]

end Forest

/-! Forests laid out in order: the weight of a node in front of its children. -/

variable {α : Type u} (w : α → Nat)

namespace Forest

def weight : Forest α → Nat
  | nil => 0
  | cons a cs ts => w a + cs.weight + ts.weight

@[simp] theorem weight_nil : weight w nil = 0 := rfl

@[simp] theorem weight_cons (a : α) (cs ts : Forest α) :
    weight w (cons a cs ts) = w a + weight w cs + weight w ts := rfl

@[simp] theorem weight_single (a : α) (cs : Forest α) :
    weight w (single a cs) = w a + weight w cs := rfl

@[simp] theorem weight_append (f g : Forest α) :
    weight w (f ++ g) = weight w f + weight w g := by
  induction f with
  | nil => rw [nil_append, weight_nil, Nat.zero_add]
  | cons a cs ts _ ih => simp only [cons_append, weight_cons, ih, Nat.add_assoc]

theorem weight_eq_sum (f : Forest α) : weight w f = (f.nodes.map w).sum := by
  induction f with
  | nil => rfl
  | cons a cs ts ihc iht =>
      rw [weight_cons, nodes, List.map_cons, List.map_append, List.sum_cons, List.sum_append, ihc,
        iht, Nat.add_assoc]

/-- Nodes of weight `c` that weigh as much as the forest does are all of its nodes, if
each of the others weighs something. -/
theorem all_of_weight {f : Forest α} {P : α → Bool} {c n : Nat} (hc : 0 < c)
    (hpos : ∀ a ∈ f.nodes, 0 < w a) (hP : ∀ a ∈ f.nodes, P a = true → w a = c)
    (hcount : n ≤ f.nodes.countP P) (hweight : weight w f = c * n) :
    f.nodes.length = n ∧ ∀ a ∈ f.nodes, P a = true := by
  rw [weight_eq_sum] at hweight
  have hle : ∀ as : List α, (∀ a ∈ as, 0 < w a) → (∀ a ∈ as, P a = true → w a = c) →
      c * as.countP P + (as.length - as.countP P) ≤ (as.map w).sum := by
    intro as
    induction as with
    | nil => exact fun _ _ => Nat.le_refl 0
    | cons a as ih =>
        intro hpos hP
        have hlen := List.countP_le_length (p := P) (l := as)
        have hsum := ih (fun b hb => hpos b (List.mem_cons_of_mem _ hb))
          fun b hb => hP b (List.mem_cons_of_mem _ hb)
        rw [List.map_cons, List.sum_cons, List.countP_cons, List.length_cons]
        have ha := hpos a List.mem_cons_self
        split
        · rename_i htrue
          rw [hP a List.mem_cons_self htrue, Nat.mul_succ]
          omega
        · rw [Nat.add_zero]
          omega
  have hsum := hle f.nodes hpos hP
  have hlen := List.countP_le_length (p := P) (l := f.nodes)
  have hmul := Nat.mul_le_mul_left c hcount
  have hcountEq : f.nodes.countP P = n := by
    refine Nat.le_antisymm (Nat.le_of_mul_le_mul_left (c := c) ?_ hc) hcount
    omega
  rw [hcountEq] at hsum hlen
  have hlength : f.nodes.length = n := by omega
  exact ⟨hlength, List.countP_eq_length.mp (hcountEq.trans hlength.symm)⟩

theorem weight_le {f : Forest α} {a : α} (h : a ∈ f.nodes) : w a ≤ weight w f := by
  induction f with
  | nil => cases h
  | cons b ds ts ihc iht =>
      rw [nodes, List.mem_cons, List.mem_append] at h
      rw [weight_cons]
      rcases h with rfl | h | h
      · omega
      · have := ihc h
        omega
      · have := iht h
        omega

/-- Every node is at the place where the nodes before it end. -/
def Laid (pos : α → Nat) : Nat → Forest α → Prop
  | _, nil => True
  | p, cons a cs ts =>
      pos a = p ∧ Laid pos (p + w a) cs ∧ Laid pos (p + w a + weight w cs) ts

variable {w} {pos : α → Nat}

theorem laid_append {p : Nat} {f g : Forest α} :
    Laid w pos p (f ++ g) ↔ Laid w pos p f ∧ Laid w pos (p + weight w f) g := by
  induction f generalizing p with
  | nil => simp only [nil_append, Laid, weight_nil, Nat.add_zero, true_and]
  | cons a cs ts _ ih =>
      simp only [cons_append, Laid, ih, weight_cons, and_assoc, Nat.add_assoc]

/-- The trees of a forest laid out from `p` on are within it. -/
theorem Laid.bounds {p : Nat} {f : Forest α} (h : Laid w pos p f) {a : α} {cs : Forest α}
    (hmem : (a, cs) ∈ f.subtrees) :
    p ≤ pos a ∧ pos a + w a + weight w cs ≤ p + weight w f := by
  induction f generalizing p with
  | nil => cases hmem
  | cons b ds ts ihc iht =>
      obtain ⟨hb, hds, hts⟩ := h
      rw [weight_cons]
      rw [subtrees, List.mem_cons, List.mem_append] at hmem
      rcases hmem with heq | hmem | hmem
      · cases heq
        omega
      · have := ihc hds hmem
        omega
      · have := iht hts hmem
        omega

/-- Nodes in one list do not overlap. -/
theorem Laid.apart {p : Nat} {f : Forest α} (h : Laid w pos p f)
    (hflat : ∀ x ∈ f.subtrees, x.2 = nil) {a b : α} (ha : a ∈ f.nodes) (hb : b ∈ f.nodes) :
    a = b ∨ pos a + w a ≤ pos b ∨ pos b + w b ≤ pos a := by
  induction f generalizing p with
  | nil => cases ha
  | cons c cs ts _ ih =>
      simp only [subtrees, List.mem_cons, forall_eq_or_imp] at hflat
      obtain ⟨rfl, hflat⟩ := hflat
      obtain ⟨hc, -, hts⟩ := h
      have hlater {d : α} (hd : d ∈ ts.nodes) : pos c + w c ≤ pos d := by
        obtain ⟨ds, hds⟩ := mem_nodes.mp hd
        have := (hts.bounds hds).1
        rw [weight_nil] at this
        omega
      simp only [nodes, List.nil_append, List.mem_cons] at ha hb
      rcases ha with rfl | ha
      · rcases hb with rfl | hb
        · exact .inl rfl
        · exact .inr (.inl (hlater hb))
      · rcases hb with rfl | hb
        · exact .inr (.inr (hlater ha))
        · exact ih hts (by simpa [subtrees] using hflat) ha hb

/-- In one list, a node ends where the one that follows it starts. -/
theorem Laid.next? {p : Nat} {f : Forest α} (h : Laid w pos p f)
    (hflat : ∀ x ∈ f.subtrees, x.2 = nil) {q : α → Bool} {x : α × Forest α}
    (hnext : f.next? q = some x) : ∃ a ∈ f.nodes, q a = true ∧ pos x.1 = pos a + w a := by
  induction f generalizing p with
  | nil => cases hnext
  | cons c cs ts _ ih =>
      simp only [subtrees, List.mem_cons, forall_eq_or_imp] at hflat
      obtain ⟨rfl, hflat⟩ := hflat
      obtain ⟨hc, -, hts⟩ := h
      rw [weight_nil] at hts
      rw [Forest.next?] at hnext
      split at hnext
      · rename_i hq
        refine ⟨c, by simp [nodes], hq, ?_⟩
        cases ts with
        | nil => cases hnext
        | cons d ds us =>
            cases hnext
            rw [hts.1, hc]
            rfl
      · rw [Forest.next?, Option.none_or] at hnext
        obtain ⟨a, ha, hqa, hpos⟩ := ih hts (by simpa [subtrees] using hflat) hnext
        exact ⟨a, by simp [nodes, ha], hqa, hpos⟩

end Forest

end Lib

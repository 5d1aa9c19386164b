import Neptools.Lib.List
import Neptools.Lib.Unfold
import Neptools.Stsc.Parse

/-!
The condition of a jump is a tree, kept as an array of nodes that give their
children's places in it. A script writes the tree as nested tables, and an
array made from them is printed as the same tables. In a file the places only
have to be in the array, and printing follows them wherever they lead.
-/

namespace Neptools

open Lib

namespace Stsc.InstructionJumpIfItem

/-- The operation and the value of each table, and its two inner tables. -/
abbrev Condition := BinaryTree (UInt8 × UInt32)

namespace Condition

def parseTree : Condition → List Node → Nat × List Node
  | .nil, tree => (0, tree)
  | .node (operation, value) lhs rhs, tree =>
      let i := tree.length
      let tree := tree ++ [{ operation := 0, value := 0, left := 0, right := 0 }]
      let tree := tree.modify i fun n => { n with operation, value }
      let (left, tree) := parseTree lhs tree
      let tree := tree.modify i fun n => { n with left }
      let (right, tree) := parseTree rhs tree
      let tree := tree.modify i fun n => { n with right }
      (i + 1, tree)

/-- What a script would write. -/
def text : Condition → String
  | .nil => "nil"
  | .node (operation, value) left right =>
      "\x7b" ++ toString operation.toNat ++ ", " ++ toString value.toNat ++ ", " ++ text left ++
        ", " ++ text right ++ "\x7d"

end Condition

/-- The tree of an instruction that a script makes. -/
def ofTable (table : Condition) : List Node := (table.parseTree []).2

/-- `n - 1` in a `size_t`. -/
def index (n : Nat) : Nat := (n + (2 ^ 64 - 1)) % 2 ^ 64

/-- The recursion as deep as the fuel goes. -/
def inspectNode (tree : List Node) : Nat → Nat → Option String
  | 0, _ => none
  | fuel + 1, i =>
      match tree[i]? with
      | none => some "nil"
      | some n => do
          let left ← inspectNode tree fuel (index n.left)
          let right ← inspectNode tree fuel (index n.right)
          some ("\x7b" ++ toString n.operation.toNat ++ ", " ++ toString n.value.toNat ++ ", " ++
            left ++ ", " ++ right ++ "\x7d")

/-- The same recursion with the tree that it goes through. -/
def unfoldNode (tree : List Node) : Nat → Nat → Option Condition :=
  unfold fun i => tree[i]?.map fun n => ((n.operation, n.value), index n.left, index n.right)

/-- The places as a file has them: none is 0, and the first node is 1. -/
def nodeAt (tree : List Node) : Nat → Option ((UInt8 × UInt32) × Nat × Nat)
  | 0 => none
  | i + 1 => tree[i]?.map fun n => ((n.operation, n.value), n.left, n.right)

/-- A tree and places in it that a `size_t` can hold. -/
structure Fits (tree : List Node) : Prop where
  length : tree.length < 2 ^ 64
  left : ∀ n ∈ tree, n.left < 2 ^ 64
  right : ∀ n ∈ tree, n.right < 2 ^ 64

variable {tree : List Node}

theorem Fits.of_le (hlength : tree.length < 2 ^ 64)
    (h : ∀ n ∈ tree, n.left ≤ tree.length ∧ n.right ≤ tree.length) : Fits tree :=
  ⟨hlength, fun n hn => (h n hn).1.trans_lt hlength, fun n hn => (h n hn).2.trans_lt hlength⟩

theorem inspectNode_eq (tree : List Node) (fuel i : Nat) :
    inspectNode tree fuel i = (unfoldNode tree fuel i).map Condition.text := by
  induction fuel generalizing i with
  | zero => rfl
  | succ fuel ih =>
      rw [inspectNode, unfoldNode, unfold]
      cases tree[i]? with
      | none => rfl
      | some n =>
          simp only [Option.map_some, ih, unfoldNode]
          cases unfold _ fuel (index n.left) with
          | none => rfl
          | some tl =>
              cases unfold _ fuel (index n.right) with
              | none => rfl
              | some tr => rfl

theorem index_succ {i : Nat} (h : i < 2 ^ 64) : index (i + 1) = i := by
  rw [index]
  omega

/-- No array is so long that the place before its first node is in it. -/
theorem Fits.unfoldNode_eq (h : Fits tree) (fuel : Nat) {i : Nat} (hi : i < 2 ^ 64) :
    unfoldNode tree fuel (index i) = unfold (nodeAt tree) fuel i := by
  refine unfold_rename (P := (· < 2 ^ 64)) (fun i hi => ?_) (fun i a l r _ hnode => ?_) fuel hi
  · cases i with
    | zero =>
        have hlast : tree.length ≤ index 0 := by
          have := h.length
          rw [index]
          omega
        rw [List.getElem?_eq_none hlast]
        rfl
    | succ i =>
        rw [index_succ (Nat.lt_of_succ_lt hi), nodeAt, Option.map_map]
        rfl
  · cases i with
    | zero => cases hnode
    | succ i =>
        obtain ⟨n, hn, hfields⟩ := Option.map_eq_some_iff.mp hnode
        cases hfields
        have hmem := List.mem_of_getElem? hn
        exact ⟨h.left n hmem, h.right n hmem⟩

theorem finite_nodeAt (tree : List Node) : {i | (nodeAt tree i).isSome}.Finite := by
  refine (Set.finite_le_nat tree.length).subset fun i hi => ?_
  cases i with
  | zero => exact Nat.zero_le _
  | succ i =>
      have hlt : i < tree.length := by simpa [nodeAt] using hi
      exact hlt

theorem Fits.exists_inspectNode_iff (h : Fits tree) {i : Nat} (hi : i < 2 ^ 64) :
    (∃ fuel, (inspectNode tree fuel (index i)).isSome) ↔ ¬ HasCycle (nodeAt tree) i := by
  rw [← exists_unfolds_iff (finite_nodeAt tree)]
  simp only [inspectNode_eq, Option.isSome_map, h.unfoldNode_eq _ hi, Option.isSome_iff_exists,
    ← exists_unfold_iff]
  exact exists_comm

/-! What `Parse_` lets through. -/

theorem le_of_parseTree {size : UInt16} {src : Source} {n : Nat}
    (h : parseTree size src n = .ok tree) :
    tree.length = n ∧ ∀ nd ∈ tree, nd.left ≤ size.toNat ∧ nd.right ≤ size.toNat := by
  induction n generalizing src tree with
  | zero =>
      cases h
      exact ⟨rfl, fun nd hnd => nomatch hnd⟩
  | succ n ih =>
      obtain ⟨⟨nd, src₁⟩, -, h⟩ := bind_eq_ok.mp h
      obtain ⟨_, hvalid, h⟩ := bind_eq_ok.mp h
      obtain ⟨rest, hrest, h⟩ := bind_eq_ok.mp h
      cases h
      obtain ⟨hlength, hrest⟩ := ih hrest
      obtain ⟨_, hleft, hright⟩ := bind_eq_ok.mp hvalid
      refine ⟨congrArg Nat.succ hlength, List.forall_mem_cons.mpr ⟨⟨?_, ?_⟩, hrest⟩⟩
      · exact UInt16.le_iff_toNat_le.mp (require_eq_ok.mp hleft)
      · exact UInt16.le_iff_toNat_le.mp (require_eq_ok.mp hright)

theorem fits_of_parse {ctx ctx' : Context} {src : Source} {tgt : LabelPtr}
    (h : parse ctx src = .ok (ctx', .jumpIf tgt tree)) : Fits tree := by
  obtain ⟨_, -, h⟩ := bind_eq_ok.mp h
  obtain ⟨⟨fp, src₁⟩, -, h⟩ := bind_eq_ok.mp h
  obtain ⟨_, -, h⟩ := bind_eq_ok.mp h
  obtain ⟨⟨ctx₁, tgt₁⟩, -, h⟩ := bind_eq_ok.mp h
  obtain ⟨_, -, h⟩ := bind_eq_ok.mp h
  obtain ⟨tree₁, htree, h⟩ := bind_eq_ok.mp h
  cases h
  obtain ⟨hlength, hnodes⟩ := le_of_parseTree htree
  rw [← hlength] at hnodes
  exact .of_le (hlength.trans_lt (lt_trans fp.size.toNat_lt (by decide))) hnodes

/-- Printing an accepted condition ends exactly when its nodes do not lead from
some node back to this node. -/
theorem inspectNode_returns_iff {ctx ctx' : Context} {src : Source} {tgt : LabelPtr}
    (h : parse ctx src = .ok (ctx', .jumpIf tgt tree)) :
    (∃ fuel, (inspectNode tree fuel 0).isSome) ↔ ¬ HasCycle (nodeAt tree) 1 :=
  (fits_of_parse h).exists_inspectNode_iff (i := 1) (by decide)

/-- A jump to itself on a condition of one node, with the given place on its left. -/
def oneNode (left : UInt8) : Source :=
  .fromMemory [0x1d, 1, 0, 0, 0, 0, 0, 7, 9, 0, 0, 0, left, 0, 0, 0]

theorem oneNode_parse {left : UInt8} (h : left = 0 ∨ left = 1) :
    ∃ ctx' tgt, parse (.root (oneNode left)) ((oneNode left).at_ 1) =
      .ok (ctx', .jumpIf tgt [{ operation := 7, value := 9, left := left.toNat, right := 0 }]) := by
  have hparse : ((parse (.root (oneNode left)) ((oneNode left).at_ 1)).toOption.map Prod.snd) =
      some (.jumpIf (Context.locName 0)
        [{ operation := 7, value := 9, left := left.toNat, right := 0 }]) := by
    obtain rfl | rfl := h
    · decide +kernel
    · decide +kernel
  obtain ⟨⟨ctx', i⟩, hparse, rfl⟩ := exists_ok_of_toOption hparse
  exact ⟨ctx', _, hparse⟩

theorem oneNode_inspectNode_returns :
    ∃ ctx' tgt tree, parse (.root (oneNode 0)) ((oneNode 0).at_ 1) = .ok (ctx', .jumpIf tgt tree) ∧
      ∃ fuel, (inspectNode tree fuel 0).isSome := by
  obtain ⟨ctx', tgt, hparse⟩ := oneNode_parse (.inl rfl)
  refine ⟨ctx', tgt, _, hparse, (inspectNode_returns_iff hparse).mpr (not_hasCycle_of_acc ?_)⟩
  exact Unfolds.acc (.node rfl (.nil rfl) (.nil rfl))

/-- The node is on its own left. -/
theorem oneNode_not_inspectNode_returns :
    ¬ ∀ (ctx ctx' : Context) (src : Source) (tgt : LabelPtr) (tree : List Node),
      parse ctx src = .ok (ctx', .jumpIf tgt tree) →
        ∃ fuel, (inspectNode tree fuel 0).isSome := by
  intro hall
  obtain ⟨ctx', tgt, hparse⟩ := oneNode_parse (.inr rfl)
  have hcycle := ((fits_of_parse hparse).exists_inspectNode_iff (i := 1) (by decide)).mp
    (hall _ _ _ _ _ hparse)
  exact hcycle ⟨1, .refl, .single (.left rfl)⟩

/-! What a script's table becomes. -/

namespace Condition

/-- The place of a tree whose nodes start at `base`. -/
def place (base : Nat) : Condition → Nat
  | .nil => 0
  | .node _ _ _ => base + 1

/-- Each node in front of its left tree, and this in front of its right one. -/
def nodes (base : Nat) : Condition → List Node
  | .nil => []
  | .node (operation, value) lhs rhs =>
      { operation, value, left := place (base + 1) lhs
        right := place (base + 1 + lhs.numNodes) rhs } ::
      (nodes (base + 1) lhs ++ nodes (base + 1 + lhs.numNodes) rhs)

theorem length_nodes (table : Condition) (base : Nat) :
    (nodes base table).length = table.numNodes := by
  induction table generalizing base with
  | nil => rfl
  | node v lhs rhs ihl ihr => simp [nodes, ihl, ihr]

/-- The array grows by the nodes of the tree, however it is filled. -/
theorem parseTree_eq (table : Condition) (tree : List Node) :
    table.parseTree tree = (place tree.length table, tree ++ nodes tree.length table) := by
  induction table generalizing tree with
  | nil => simp [parseTree, place, nodes]
  | node v lhs rhs ihl ihr =>
      have hright : tree.length + (lhs.numNodes + 1) = tree.length + 1 + lhs.numNodes := by omega
      simp only [parseTree, modify_append_cons, ihl, ihr, List.append_assoc, List.cons_append,
        List.nil_append, List.length_append, List.length_cons, List.length_nil, length_nodes,
        Nat.zero_add, hright]
      rfl

/-- A place that is none, or behind the `i`th node. -/
def Behind (size i n : Nat) : Prop :=
  n = 0 ∨ i + 1 < n ∧ n ≤ size

theorem behind_place (table : Condition) {size i base : Nat} (hi : i < base)
    (hsize : base + table.numNodes ≤ size) : Behind size i (place base table) := by
  cases table with
  | nil => exact .inl rfl
  | node v lhs rhs =>
      rw [BinaryTree.numNodes] at hsize
      exact .inr ⟨Nat.succ_lt_succ hi, by rw [place]; omega⟩

theorem behind_nodes (table : Condition) {size base : Nat}
    (hsize : base + table.numNodes ≤ size) :
    ∀ i n, (nodes base table)[i]? = some n →
      Behind size (base + i) n.left ∧ Behind size (base + i) n.right := by
  induction table generalizing base with
  | nil => exact fun i n h => nomatch h
  | node v lhs rhs ihl ihr =>
      rw [BinaryTree.numNodes] at hsize
      intro i n h
      cases i with
      | zero =>
          cases h
          exact ⟨behind_place lhs (Nat.lt_succ_self _) (by omega),
            behind_place rhs (by omega) (by omega)⟩
      | succ i =>
          have hbehind : ∀ i n, (nodes (base + 1) lhs ++
              nodes (base + 1 + lhs.numNodes) rhs)[i]? = some n →
                Behind size (base + 1 + i) n.left ∧ Behind size (base + 1 + i) n.right := by
            refine forall_getElem?_append.mpr ⟨ihl (by omega), fun i n h => ?_⟩
            rw [length_nodes, ← Nat.add_assoc]
            exact ihr (by omega) i n h
          rw [Nat.add_comm i, ← Nat.add_assoc]
          exact hbehind i n h

theorem unfolds_place {tree : List Node} {base : Nat} {table : Condition}
    (h : StandsAt (nodes base table) base tree) :
    Unfolds (nodeAt tree) (place base table) table := by
  induction table generalizing base with
  | nil => exact .nil rfl
  | node v lhs rhs ihl ihr =>
      have hrest : StandsAt (nodes (base + 1) lhs ++ nodes (base + 1 + lhs.numNodes) rhs) (base + 1)
          tree := @StandsAt.right Node [_] _ tree base h
      have hright := hrest.right
      rw [length_nodes] at hright
      refine .node ?_ (ihl hrest.left) (ihr hright)
      obtain ⟨pre, post, rfl, rfl⟩ := h
      simp [nodeAt, nodes, place]

end Condition

open Condition

theorem Node.params_validate (n : Node) {size : Nat} (h : n.left ≤ size ∧ n.right ≤ size)
    (hsize : size ≤ 65535) :
    n.params.left.toNat = n.left ∧ n.params.right.toNat = n.right ∧
      n.params.validate (UInt16.ofNat size) = .ok () := by
  have hnat {k : Nat} (hk : k ≤ size) : (UInt16.ofNat k).toNat = k := by
    rw [UInt16.toNat_ofNat']
    exact Nat.mod_eq_of_lt (by omega)
  have hle {k : Nat} (hk : k ≤ size) : UInt16.ofNat k ≤ UInt16.ofNat size := by
    rwa [UInt16.le_iff_toNat_le, hnat hk, hnat le_rfl]
  refine ⟨hnat h.1, hnat h.2, ?_⟩
  have hleft : n.params.left ≤ UInt16.ofNat size := hle h.1
  have hright : n.params.right ≤ UInt16.ofNat size := hle h.2
  rw [NodeParams.validate, validateField_of hleft, ok_bind, validateField_of hright]

/-- The array of a script's condition is in order, and is printed as the same
condition. -/
theorem ofTable_spec (v : UInt8 × UInt32) (lhs rhs : Condition)
    (h : (BinaryTree.node v lhs rhs).numNodes ≤ 65535) :
    let tree := ofTable (.node v lhs rhs)
    tree.length = (BinaryTree.node v lhs rhs).numNodes ∧
      tree[0]?.map (fun n => (n.operation, n.value)) = some v ∧
      (∀ i n, tree[i]? = some n →
        (n.left = 0 ∨ i + 1 < n.left ∧ n.left ≤ tree.length) ∧
        (n.right = 0 ∨ i + 1 < n.right ∧ n.right ≤ tree.length)) ∧
      (∀ n ∈ tree, n.params.left.toNat = n.left ∧ n.params.right.toNat = n.right ∧
        n.params.validate (UInt16.ofNat tree.length) = .ok ()) ∧
      ∃ fuel, unfoldNode tree fuel 0 = some (.node v lhs rhs) ∧
        inspectNode tree fuel 0 = some (Condition.text (.node v lhs rhs)) := by
  intro tree
  have htree : tree = nodes 0 (.node v lhs rhs) := by simp [tree, ofTable, parseTree_eq]
  have hlength : tree.length = (BinaryTree.node v lhs rhs).numNodes := by
    rw [htree, length_nodes]
  have hbehind (i : Nat) (n : Node) (hn : tree[i]? = some n) :
      Behind tree.length i n.left ∧ Behind tree.length i n.right := by
    have hle : 0 + (BinaryTree.node v lhs rhs).numNodes ≤ tree.length := by omega
    rw [htree] at hn
    simpa using behind_nodes _ hle i n hn
  have hplace {i n : Nat} (hn : Behind tree.length i n) : n ≤ tree.length := by
    rcases hn with rfl | hn
    · exact Nat.zero_le _
    · exact hn.2
  have hle (n : Node) (hn : n ∈ tree) : n.left ≤ tree.length ∧ n.right ≤ tree.length := by
    obtain ⟨i, hi⟩ := List.mem_iff_getElem?.mp hn
    exact ⟨hplace (hbehind i n hi).1, hplace (hbehind i n hi).2⟩
  have hfits : Fits tree := .of_le (by omega) hle
  have hstand : StandsAt (nodes 0 (.node v lhs rhs)) 0 tree :=
    ⟨[], [], by rw [htree, List.nil_append, List.append_nil], rfl⟩
  refine ⟨hlength, by rw [htree]; rfl, hbehind, fun n hn => ?_, ?_⟩
  · exact n.params_validate (hle n hn) (by omega)
  · obtain ⟨fuel, hfuel⟩ := exists_unfold_iff.mpr (unfolds_place hstand)
    have hunfold : unfoldNode tree fuel 0 = some (.node v lhs rhs) :=
      (hfits.unfoldNode_eq fuel (i := 1) (by decide)).trans hfuel
    exact ⟨fuel, hunfold, by rw [inspectNode_eq, hunfold]; rfl⟩

/-- A condition with another one on its left. -/
def twoTables : Condition := .node (1, 2) (.node (3, 4) .nil .nil) .nil

theorem twoTables_ofTable : (ofTable twoTables).length = 2 ∧
    ∃ fuel, unfoldNode (ofTable twoTables) fuel 0 = some twoTables := by
  obtain ⟨hlength, -, -, -, fuel, hunfold, -⟩ :=
    ofTable_spec (1, 2) (.node (3, 4) .nil .nil) .nil (by decide)
  exact ⟨hlength, fuel, hunfold⟩

end Stsc.InstructionJumpIfItem

end Neptools

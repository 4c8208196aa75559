import Ucore.Library.Run
import Ucore.Libs.SkewHeap

/-!
# Runs of a skew heap

Removing a node below the root melds its subtrees and hangs the result at the place of the node.
With this and the specification of the other operations, every run of insertions and removals keeps
a tree of the entries that holds the nodes in the heap, in heap order, with the parent pointers in
agreement with the child pointers.
-/

namespace Ucore

open Library SkewHeap

variable {Node : Type}

/-! ## Removing a node below the root -/

namespace SkewHeap

variable {heap after : SkewHeap Node} {value : Node} {left right sub : BinaryTree Node}

theorem setLeft_of_ne [DecidableEq Node] {node : Node} (h : node ≠ value) (heap : SkewHeap Node) (left : Option Node) :
    heap.setLeft value left node = heap node := Function.update_of_ne h ..

theorem setRight_of_ne [DecidableEq Node] {node : Node} (h : node ≠ value) (heap : SkewHeap Node)
    (right : Option Node) : heap.setRight value right node = heap node := Function.update_of_ne h ..

/-- The left subtree is replaced by a tree that already points to the node above it. -/
theorem Linked.replaceLeft (h : heap.Linked (.node value left right))
    (hnodup : (BinaryTree.node value left right).values.Nodup) (hsub : after.Linked sub)
    (hroot : (after value).left = sub.root) (hright : (after value).right = (heap value).right)
    (hparent : ∀ child ∈ sub.root, (after child).parent = some value)
    (hframe : ∀ node ∈ right.values, after node = heap node) :
    after.Linked (.node value sub right) := by
  rcases h with ⟨-, hr, -, hrp, -, hlinked⟩
  rw [BinaryTree.values_node, List.nodup_cons, List.nodup_append] at hnodup
  refine ⟨hroot, hright.trans hr, hparent, fun child hchild ↦ ?_, hsub,
    hlinked.congr_of_eq hnodup.2.2.1 hframe⟩
  rw [hframe child (BinaryTree.mem_values_of_root hchild)]
  exact hrp child hchild

theorem Linked.replaceRight (h : heap.Linked (.node value left right))
    (hnodup : (BinaryTree.node value left right).values.Nodup) (hsub : after.Linked sub)
    (hroot : (after value).right = sub.root) (hleft : (after value).left = (heap value).left)
    (hparent : ∀ child ∈ sub.root, (after child).parent = some value)
    (hframe : ∀ node ∈ left.values, after node = heap node) :
    after.Linked (.node value left sub) := by
  rcases h with ⟨hl, -, hlp, -, hlinked, -⟩
  rw [BinaryTree.values_node, List.nodup_cons, List.nodup_append] at hnodup
  refine ⟨hleft.trans hl, hroot, fun child hchild ↦ ?_, hparent,
    hlinked.congr_of_eq hnodup.2.1 hframe, hsub⟩
  rw [hframe child (BinaryTree.mem_values_of_root hchild)]
  exact hlp child hchild

end SkewHeap

section Remove

variable [DecidableEq Node] (comp : Node → Node → ℤ) {heap : SkewHeap Node} {tree : BinaryTree Node}
  {a : Option Node} {b value : Node} {low high left right : BinaryTree Node}

/-- The two subtrees of a node that has a parent are melded, and the result points to the parent,
which gets it in the place of the node. -/
theorem skewHeapRemove_child_spec (htree : heap.Linked (.node b low high))
    (hparent : (heap b).parent = some value) (hnodup : (low.values ++ high.values).Nodup)
    (hvalue : value ∉ low.values ++ high.values) :
    ∃ middle : SkewHeap Node, middle.Linked (low.meld (Before comp) high) ∧
      (∀ child ∈ (low.meld (Before comp) high).root, (middle child).parent = some value) ∧
      (∀ node ∉ low.values ++ high.values, middle node = heap node) ∧
      Returns (fun fuel ↦ skewHeapRemove comp fuel heap a b)
        (a, if (heap value).left = some b then
          middle.setLeft value (low.meld (Before comp) high).root
        else middle.setRight value (low.meld (Before comp) high).root) := by
  rcases htree with ⟨hl, hr, -, -, hlow, hhigh⟩
  rcases skewHeapMerge_spec comp hlow hhigh hnodup with ⟨merged, hmerged, hcall⟩
  have hframe : ∀ node ∉ low.values ++ high.values,
      merged.setParentOf (low.meld (Before comp) high).root (some value) node = heap node := by
    intro node hnode
    rw [setParentOf_of_notMem fun hroot ↦ hnode (List.mem_append.mpr
      ((BinaryTree.mem_values_meld _).mp (BinaryTree.mem_values_of_root hroot)))]
    exact hmerged.frame node hnode
  refine ⟨_, hmerged.linked.setParentOf ((BinaryTree.nodup_values_meld _).mpr hnodup) (some value),
    fun child hchild ↦ setParentOf_of_mem hchild _ _, hframe,
    low.numNodes + high.numNodes, fun fuel hfuel ↦ ?_⟩
  simp only [skewHeapRemove, hl, hr, hcall fuel hfuel, Outcome.ok_bind, hparent, hframe value hvalue]
  by_cases hleft : (heap value).left = some b
  · rw [if_pos hleft, if_pos hleft]
  · rw [if_neg hleft, if_neg hleft]

theorem skewHeapRemove_left_spec (htree : heap.Linked (.node value (.node b low high) right))
    (hnodup : (BinaryTree.node value (.node b low high) right).values.Nodup) :
    ∃ after, Rebuilt heap (BinaryTree.node value (.node b low high) right).values
        (.node value (low.meld (Before comp) high) right) after ∧
      Returns (fun fuel ↦ skewHeapRemove comp fuel heap a b) (a, after) := by
  have hparts := hnodup
  simp only [BinaryTree.values_node, List.cons_append, List.nodup_cons, List.nodup_append,
    List.mem_append, List.mem_cons, not_or] at hparts
  rcases hparts with ⟨⟨-, ⟨hvalueLow, hvalueHigh⟩, hvalueRight⟩, -, hmerged, -, hapart⟩
  have hvalue : value ∉ low.values ++ high.values := by simp [hvalueLow, hvalueHigh]
  rcases skewHeapRemove_child_spec comp (a := a) htree.2.2.2.2.1 (htree.2.2.1 b rfl)
    (List.nodup_append.mpr hmerged) hvalue with ⟨middle, hlinked, hparent, hframe, hcall⟩
  have hchild : (heap value).left = some b := htree.1
  rw [if_pos hchild] at hcall
  have hne : ∀ node ∈ (low.meld (Before comp) high).values, node ≠ value := fun node hnode heq ↦
    hvalue (List.mem_append.mpr ((BinaryTree.mem_values_meld _).mp (heq ▸ hnode)))
  refine ⟨_, ⟨?_, fun node hnode ↦ ?_, fun node hnode ↦ ?_⟩, hcall⟩
  · refine htree.replaceLeft hnodup ?_ ?_ ?_ (fun child hchild ↦ ?_) fun node hnode ↦ ?_
    · exact hlinked.congr_of_eq
        ((BinaryTree.nodup_values_meld _).mpr (List.nodup_append.mpr hmerged))
        fun node hnode ↦ setLeft_of_ne (hne node hnode) _ _
    · simp [setLeft]
    · simp [setLeft, hframe value hvalue]
    · rw [setLeft_of_ne (hne child (BinaryTree.mem_values_of_root hchild))]
      exact hparent child hchild
    · rw [setLeft_of_ne fun heq : node = value ↦ hvalueRight (heq ▸ hnode), hframe node fun hmem ↦ ?_]
      have hbelow := List.mem_append.mp hmem
      exact hapart node hbelow node hnode rfl
  · simp only [BinaryTree.values_node, List.mem_cons, List.mem_append, not_or] at hnode
    rw [setLeft_of_ne hnode.1]
    exact hframe node (by simp [hnode.2.1.2.1, hnode.2.1.2.2])
  · rw [BinaryTree.root_node, Option.mem_some_iff] at hnode
    subst hnode
    simp [setLeft, hframe value hvalue]

theorem skewHeapRemove_right_spec (htree : heap.Linked (.node value left (.node b low high)))
    (hnodup : (BinaryTree.node value left (.node b low high)).values.Nodup) :
    ∃ after, Rebuilt heap (BinaryTree.node value left (.node b low high)).values
        (.node value left (low.meld (Before comp) high)) after ∧
      Returns (fun fuel ↦ skewHeapRemove comp fuel heap a b) (a, after) := by
  have hparts := hnodup
  simp only [BinaryTree.values_node, List.nodup_cons, List.nodup_append, List.mem_append,
    List.mem_cons, not_or] at hparts
  rcases hparts with ⟨⟨hvalueLeft, -, hvalueLow, hvalueHigh⟩, -, ⟨-, hmerged⟩, hapart⟩
  have hvalue : value ∉ low.values ++ high.values := by simp [hvalueLow, hvalueHigh]
  rcases skewHeapRemove_child_spec comp (a := a) htree.2.2.2.2.2 (htree.2.2.2.1 b rfl)
    (List.nodup_append.mpr hmerged) hvalue with ⟨middle, hlinked, hparent, hframe, hcall⟩
  have hchild : ¬(heap value).left = some b := by
    rw [htree.1]
    exact fun hroot ↦ hapart b (BinaryTree.mem_values_of_root hroot) b (Or.inl rfl) rfl
  rw [if_neg hchild] at hcall
  have hne : ∀ node ∈ (low.meld (Before comp) high).values, node ≠ value := fun node hnode heq ↦
    hvalue (List.mem_append.mpr ((BinaryTree.mem_values_meld _).mp (heq ▸ hnode)))
  refine ⟨_, ⟨?_, fun node hnode ↦ ?_, fun node hnode ↦ ?_⟩, hcall⟩
  · refine htree.replaceRight hnodup ?_ ?_ ?_ (fun child hchild ↦ ?_) fun node hnode ↦ ?_
    · exact hlinked.congr_of_eq
        ((BinaryTree.nodup_values_meld _).mpr (List.nodup_append.mpr hmerged))
        fun node hnode ↦ setRight_of_ne (hne node hnode) _ _
    · simp [setRight]
    · simp [setRight, hframe value hvalue]
    · rw [setRight_of_ne (hne child (BinaryTree.mem_values_of_root hchild))]
      exact hparent child hchild
    · rw [setRight_of_ne fun heq : node = value ↦ hvalueLeft (heq ▸ hnode), hframe node fun hmem ↦ ?_]
      exact hapart node hnode node (Or.inr (List.mem_append.mp hmem)) rfl
  · simp only [BinaryTree.values_node, List.mem_cons, List.mem_append, not_or] at hnode
    rw [setRight_of_ne hnode.1]
    exact hframe node (by simp [hnode.2.2.2.1, hnode.2.2.2.2])
  · rw [BinaryTree.root_node, Option.mem_some_iff] at hnode
    subst hnode
    simp [setRight, hframe value hvalue]

/-- `skew_heap_remove` of a node below the root puts its melded subtrees in its place. -/
theorem skewHeapRemove_below_spec (htree : heap.Linked tree) (hnodup : tree.values.Nodup)
    (hb : b ∈ tree.values) (hroot : b ∉ tree.root) :
    ∃ after, Rebuilt heap tree.values (tree.splice (Before comp) b) after ∧
      Returns (fun fuel ↦ skewHeapRemove comp fuel heap a b) (a, after) := by
  induction tree with
  | nil => simp at hb
  | node value left right ihleft ihright =>
    have hparts := hnodup
    rw [BinaryTree.values_node, List.nodup_cons, List.nodup_append] at hparts
    rcases hparts with ⟨hvalue, hleftNodup, hrightNodup, hapart⟩
    rw [List.mem_append, not_or] at hvalue
    have hne : value ≠ b := fun heq ↦ hroot (by simp [heq])
    rw [BinaryTree.values_node, List.mem_cons, List.mem_append] at hb
    rcases hb.resolve_left (Ne.symm hne) with hmem | hmem
    · have hother : b ∉ right.values := fun hright ↦ hapart b hmem b hright rfl
      rw [BinaryTree.splice_of_ne _ hne, BinaryTree.splice_of_notMem _ hother]
      by_cases htop : b ∈ left.root
      · cases left with
        | nil => simp at htop
        | node top low high =>
          rw [BinaryTree.root_node, Option.mem_some_iff] at htop
          subst htop
          rw [BinaryTree.splice_self]
          exact skewHeapRemove_left_spec comp htree hnodup
      · rcases ihleft htree.2.2.2.2.1 hleftNodup hmem htop with ⟨after, hafter, hcall⟩
        have hvalueSame := hafter.frame value hvalue.1
        have hroots := BinaryTree.root_splice (Before comp) htop
        refine ⟨after, ⟨?_, fun node hnode ↦ ?_, fun node hnode ↦ ?_⟩, hcall⟩
        · refine htree.replaceLeft hnodup hafter.linked ?_ (by rw [hvalueSame])
            (fun child hchild ↦ ?_) fun node hnode ↦ ?_
          · rw [hvalueSame, hroots]
            exact htree.1
          · rw [hafter.parent child hchild]
            exact htree.2.2.1 child (hroots ▸ hchild)
          · exact hafter.frame node fun hleft ↦ hapart node hleft node hnode rfl
        · exact hafter.frame node fun hleft ↦ hnode (by simp [hleft])
        · rw [BinaryTree.root_node, Option.mem_some_iff] at hnode
          rw [← hnode, hvalueSame]
    · have hother : b ∉ left.values := fun hleft ↦ hapart b hleft b hmem rfl
      rw [BinaryTree.splice_of_ne _ hne, BinaryTree.splice_of_notMem _ hother]
      by_cases htop : b ∈ right.root
      · cases right with
        | nil => simp at htop
        | node top low high =>
          rw [BinaryTree.root_node, Option.mem_some_iff] at htop
          subst htop
          rw [BinaryTree.splice_self]
          exact skewHeapRemove_right_spec comp htree hnodup
      · rcases ihright htree.2.2.2.2.2 hrightNodup hmem htop with ⟨after, hafter, hcall⟩
        have hvalueSame := hafter.frame value hvalue.2
        have hroots := BinaryTree.root_splice (Before comp) htop
        refine ⟨after, ⟨?_, fun node hnode ↦ ?_, fun node hnode ↦ ?_⟩, hcall⟩
        · refine htree.replaceRight hnodup hafter.linked ?_ (by rw [hvalueSame])
            (fun child hchild ↦ ?_) fun node hnode ↦ ?_
          · rw [hvalueSame, hroots]
            exact htree.2.1
          · rw [hafter.parent child hchild]
            exact htree.2.2.2.1 child (hroots ▸ hchild)
          · exact hafter.frame node fun hright ↦ hapart node hnode node hright rfl
        · exact hafter.frame node fun hright ↦ hnode (by simp [hright])
        · rw [BinaryTree.root_node, Option.mem_some_iff] at hnode
          rw [← hnode, hvalueSame]

/-- `skew_heap_remove` of any node of a heap whose root has no parent. -/
theorem skewHeapRemove_spec (htree : heap.Linked tree)
    (hroot : ∀ node ∈ tree.root, (heap node).parent = none) (hnodup : tree.values.Nodup)
    (hb : b ∈ tree.values) :
    ∃ after : SkewHeap Node, after.Linked (tree.splice (Before comp) b) ∧
      (∀ node ∈ (tree.splice (Before comp) b).root, (after node).parent = none) ∧
      Returns (fun fuel ↦ skewHeapRemove comp fuel heap tree.root b)
        ((tree.splice (Before comp) b).root, after) := by
  by_cases htop : b ∈ tree.root
  · cases tree with
    | nil => simp at htop
    | node top left right =>
      rw [BinaryTree.root_node, Option.mem_some_iff] at htop
      subst htop
      rw [BinaryTree.splice_self]
      exact skewHeapRemove_root_spec comp htree (hroot top rfl) (List.nodup_cons.mp hnodup).2
  · rcases skewHeapRemove_below_spec comp (a := tree.root) htree hnodup hb htop
      with ⟨after, hafter, hcall⟩
    have hroots := BinaryTree.root_splice (Before comp) htop
    refine ⟨after, hafter.linked, fun node hnode ↦ ?_, hroots ▸ hcall⟩
    rw [hafter.parent node hnode]
    exact hroot node (hroots ▸ hnode)

end Remove

/-! ## Runs -/

/-- `comp` compares by a total preorder. -/
structure Compares (comp : Node → Node → ℤ) (le : Node → Node → Prop) : Prop where
  total : ∀ a b, le a b ∨ le b a
  trans : ∀ a b c, le a b → le b c → le a c
  less : ∀ a b, comp a b = -1 ↔ le a b ∧ ¬le b a
  same : ∀ a b, comp a b = 0 ↔ le a b ∧ le b a
  greater : ∀ a b, comp a b = 1 ↔ ¬le a b ∧ le b a

variable {comp : Node → Node → ℤ} {le : Node → Node → Prop}

theorem Compares.before (h : Compares comp le) (a b : Node) (hbefore : Before comp a b) : le a b :=
  ((h.less a b).mp hbefore).1

theorem Compares.not_before (h : Compares comp le) (a b : Node) (hnot : ¬Before comp a b) :
    le b a := by
  by_contra hle
  exact hnot ((h.less a b).mpr ⟨(h.total a b).resolve_right hle, hle⟩)

theorem Compares.refl (h : Compares comp le) (a : Node) : le a a := (h.total a a).elim id id

/-- A heap in use: the entries, the pointer to the root, and the nodes that were inserted and not
removed since. -/
structure HeapConfig (Node : Type) where
  heap : SkewHeap Node
  root : Option Node
  nodes : List Node

inductive HeapFirst : HeapConfig Node → Prop
  | mk {heap : SkewHeap Node} : HeapFirst ⟨heap, none, []⟩

/-- The calls of a run. Between them the entries of nodes outside the heap may change. -/
inductive HeapStep [DecidableEq Node] (comp : Node → Node → ℤ) :
    HeapConfig Node → HeapConfig Node → Prop
  | other {c : HeapConfig Node} {heap : SkewHeap Node}
      (hframe : ∀ node ∈ c.nodes, heap node = c.heap node) :
      HeapStep comp c { c with heap }
  | insert {c : HeapConfig Node} {b : Node} {root : Option Node} {heap : SkewHeap Node}
      (hb : b ∉ c.nodes)
      (hreturns : Returns (fun fuel ↦ skewHeapInsert comp fuel c.heap c.root b) (root, heap)) :
      HeapStep comp c ⟨heap, root, b :: c.nodes⟩
  | remove {c : HeapConfig Node} {b : Node} {root : Option Node} {heap : SkewHeap Node}
      (hb : b ∈ c.nodes)
      (hreturns : Returns (fun fuel ↦ skewHeapRemove comp fuel c.heap c.root b) (root, heap)) :
      HeapStep comp c ⟨heap, root, c.nodes.erase b⟩

/-- The entries form a tree of exactly the nodes in the heap, each once, in heap order, and with
parent pointers that mirror the child pointers. -/
structure HeapTree (le : Node → Node → Prop) (c : HeapConfig Node) (tree : BinaryTree Node) :
    Prop where
  root : c.root = tree.root
  linked : c.heap.Linked tree
  parent : ∀ node ∈ tree.root, (c.heap node).parent = none
  nodup : tree.values.Nodup
  values : tree.values.Perm c.nodes
  order : tree.IsHeap le

section Run

variable [DecidableEq Node] {c next : HeapConfig Node} {tree : BinaryTree Node} {b : Node}

/-- Insertion of a node that is not in the heap returns, with a tree that has it. -/
theorem HeapTree.insert (hcomp : Compares comp le) (h : HeapTree le c tree) (hb : b ∉ c.nodes) :
    ∃ root heap after, Returns (fun fuel ↦ skewHeapInsert comp fuel c.heap c.root b) (root, heap) ∧
      HeapTree le ⟨heap, root, b :: c.nodes⟩ after := by
  have hfresh : b ∉ tree.values := fun hmem ↦ hb (h.values.mem_iff.mp hmem)
  have hnodup := List.nodup_cons.mpr ⟨hfresh, h.nodup⟩
  have hvalues : (tree.meld (Before comp) (.node b .nil .nil)).values.Perm (b :: tree.values) :=
    (BinaryTree.values_meld_perm _ _ _).trans (List.perm_append_singleton b tree.values)
  rcases skewHeapInsert_spec comp h.linked h.parent hnodup with ⟨heap, hlinked, hparent, hreturns⟩
  refine ⟨_, heap, _, h.root ▸ hreturns, rfl, hlinked, hparent, hvalues.nodup_iff.mpr hnodup,
    hvalues.trans (h.values.cons b), ?_⟩
  exact h.order.meld _ hcomp.before hcomp.not_before (by simp [BinaryTree.IsHeap])

/-- Removal of any node in the heap returns, with a tree that no longer has it. -/
theorem HeapTree.remove (hcomp : Compares comp le) (h : HeapTree le c tree) (hb : b ∈ c.nodes) :
    ∃ root heap after, Returns (fun fuel ↦ skewHeapRemove comp fuel c.heap c.root b) (root, heap) ∧
      HeapTree le ⟨heap, root, c.nodes.erase b⟩ after := by
  have hvalues : (tree.splice (Before comp) b).values.Perm (tree.values.erase b) :=
    BinaryTree.values_splice_perm _ h.nodup
  rcases skewHeapRemove_spec comp h.linked h.parent h.nodup (h.values.mem_iff.mpr hb)
    with ⟨heap, hlinked, hparent, hreturns⟩
  refine ⟨_, heap, _, h.root ▸ hreturns, rfl, hlinked, hparent,
    hvalues.nodup_iff.mpr (h.nodup.erase b), hvalues.trans (h.values.erase b), ?_⟩
  exact h.order.splice _ hcomp.before hcomp.not_before hcomp.refl hcomp.trans b

theorem HeapTree.step (hcomp : Compares comp le) (h : HeapTree le c tree)
    (hstep : HeapStep comp c next) : ∃ after, HeapTree le next after := by
  cases hstep with
  | other hframe =>
    rename_i heap
    have hsame : ∀ node ∈ tree.values, heap node = c.heap node := fun node hnode ↦
      hframe node (h.values.mem_iff.mp hnode)
    refine ⟨tree, h.root, h.linked.congr_of_eq h.nodup hsame, fun node hnode ↦ ?_, h.nodup,
      h.values, h.order⟩
    exact (congrArg SkewHeapEntry.parent
      (hsame node (BinaryTree.mem_values_of_root hnode))).trans (h.parent node hnode)
  | insert hb hreturns =>
    rcases h.insert hcomp hb with ⟨root, heap, after, hcall, hafter⟩
    cases hreturns.unique hcall
    exact ⟨after, hafter⟩
  | remove hb hreturns =>
    rcases h.remove hcomp hb with ⟨root, heap, after, hcall, hafter⟩
    cases hreturns.unique hcall
    exact ⟨after, hafter⟩

theorem exists_heapTree (hcomp : Compares comp le) (h : Reachable HeapFirst (HeapStep comp) c) :
    ∃ tree, HeapTree le c tree := by
  induction h with
  | first hfirst =>
    rcases hfirst with ⟨⟩
    exact ⟨.nil, rfl, trivial, by simp, List.Pairwise.nil, List.Perm.refl [], trivial⟩
  | step _ hstep ih =>
    rcases ih with ⟨tree, htree⟩
    exact htree.step hcomp hstep

/-- Every run of a skew heap keeps a tree of exactly the nodes in the heap, with a minimum at the
root, and the next call returns. -/
theorem skewHeap_run (hcomp : Compares comp le) (h : Reachable HeapFirst (HeapStep comp) c) :
    (∃ tree, HeapTree le c tree) ∧
    (∀ top ∈ c.root, ∀ node ∈ c.nodes, le top node) ∧
    (∀ b ∉ c.nodes, ∃ result, Returns (fun fuel ↦ skewHeapInsert comp fuel c.heap c.root b) result) ∧
    ∀ b ∈ c.nodes, ∃ result, Returns (fun fuel ↦ skewHeapRemove comp fuel c.heap c.root b) result := by
  rcases exists_heapTree hcomp h with ⟨tree, htree⟩
  refine ⟨⟨tree, htree⟩, fun top htop node hnode ↦ ?_, fun b hb ↦ ?_, fun b hb ↦ ?_⟩
  · exact htree.order.root_le (fun a _ ↦ hcomp.refl a) (fun a _ b _ c _ ↦ hcomp.trans a b c)
      (htree.root ▸ htop) (htree.values.mem_iff.mpr hnode)
  · rcases htree.insert hcomp hb with ⟨root, heap, after, hreturns, -⟩
    exact ⟨_, hreturns⟩
  · rcases htree.remove hcomp hb with ⟨root, heap, after, hreturns, -⟩
    exact ⟨_, hreturns⟩

/-- Numbers in their usual order. -/
def compNat (a b : ℕ) : ℤ := if a < b then -1 else if a = b then 0 else 1

theorem compares_compNat : Compares compNat (· ≤ ·) where
  total := Nat.le_total
  trans := fun _ _ _ ↦ Nat.le_trans
  less := fun a b ↦ by
    unfold compNat
    split_ifs <;> simp <;> omega
  same := fun a b ↦ by
    unfold compNat
    split_ifs <;> simp <;> omega
  greater := fun a b ↦ by
    unfold compNat
    split_ifs <;> simp <;> omega

/-- Two insertions and the removal of the second node. -/
theorem skewHeap_run_three : ∃ c : HeapConfig ℕ, c.nodes = [2] ∧
    (∃ tree, HeapTree (· ≤ ·) c tree) ∧
    (∀ top ∈ c.root, ∀ node ∈ c.nodes, top ≤ node) ∧
    (∀ b ∉ c.nodes, ∃ result, Returns (fun fuel ↦ skewHeapInsert compNat fuel c.heap c.root b) result) ∧
    ∀ b ∈ c.nodes, ∃ result,
      Returns (fun fuel ↦ skewHeapRemove compNat fuel c.heap c.root b) result := by
  have hempty : HeapTree (· ≤ ·) (⟨fun _ ↦ ⟨none, none, none⟩, none, []⟩ : HeapConfig ℕ) .nil :=
    ⟨rfl, trivial, by simp, List.Pairwise.nil, List.Perm.refl [], trivial⟩
  rcases hempty.insert compares_compNat (show 2 ∉ [] by simp) with ⟨root, heap, one, hone, honeTree⟩
  rcases honeTree.insert compares_compNat (show 1 ∉ [2] by simp) with ⟨root', heap', two, htwo, htwoTree⟩
  rcases htwoTree.remove compares_compNat (show 1 ∈ [1, 2] by simp) with ⟨root'', heap'', -, hlast, -⟩
  have hrun : Reachable HeapFirst (HeapStep compNat) ⟨heap'', root'', [2]⟩ :=
    .step (.step (.step (.first .mk) (.insert (by simp) hone)) (.insert (by simp) htwo))
      (.remove (show 1 ∈ [1, 2] by simp) hlast)
  exact ⟨_, rfl, skewHeap_run compares_compNat hrun⟩

end Run

end Ucore

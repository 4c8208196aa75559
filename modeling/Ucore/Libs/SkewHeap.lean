import Ucore.Library.Outcome
import Ucore.Library.SkewTree
import Mathlib.Logic.Function.Basic

/-!
# `libs/skew_heap.h`

The entries of a heap point to each other. `Linked` says that the child pointers form a given tree
and that every child points back to its parent; the parent pointer of the root is left to the
operation, since `skew_heap_merge` does not store it. Merging, inserting and removing the root
are the operations of `BinaryTree` on the trees so linked, and change no entry outside them.
-/

namespace Ucore

open Library

variable {Node : Type}

/-- `struct skew_heap_entry`. -/
structure SkewHeapEntry (Node : Type) where
  parent : Option Node
  left : Option Node
  right : Option Node
  deriving DecidableEq, Repr

/-- The entries of all nodes. -/
abbrev SkewHeap (Node : Type) := Node → SkewHeapEntry Node

namespace SkewHeap

variable [DecidableEq Node]

def setParent (heap : SkewHeap Node) (node : Node) (parent : Option Node) : SkewHeap Node :=
  Function.update heap node { heap node with parent := parent }

def setLeft (heap : SkewHeap Node) (node : Node) (left : Option Node) : SkewHeap Node :=
  Function.update heap node { heap node with left := left }

def setRight (heap : SkewHeap Node) (node : Node) (right : Option Node) : SkewHeap Node :=
  Function.update heap node { heap node with right := right }

/-- The store `if (entry) entry->parent = parent`. -/
def setParentOf (heap : SkewHeap Node) (entry parent : Option Node) : SkewHeap Node :=
  match entry with
  | none => heap
  | some node => heap.setParent node parent

end SkewHeap

section Code

variable [DecidableEq Node]

def skewHeapInit (heap : SkewHeap Node) (a : Node) : SkewHeap Node :=
  Function.update heap a ⟨none, none, none⟩

/-- `skew_heap_merge`. -/
def skewHeapMerge (comp : Node → Node → ℤ) :
    ℕ → SkewHeap Node → Option Node → Option Node → Outcome (Option Node × SkewHeap Node)
  | _, heap, none, b => .ok (b, heap)
  | _, heap, some a, none => .ok (some a, heap)
  | 0, _, some _, some _ => .error .fuel
  | fuel + 1, heap, some a, some b =>
    if comp a b = -1 then do
      let r := (heap a).left
      let (l, heap) ← skewHeapMerge comp fuel heap (heap a).right (some b)
      .ok (some a, ((heap.setLeft a l).setRight a r).setParentOf l (some a))
    else do
      let r := (heap b).left
      let (l, heap) ← skewHeapMerge comp fuel heap (some a) (heap b).right
      .ok (some b, ((heap.setLeft b l).setRight b r).setParentOf l (some b))

/-- `skew_heap_insert`. -/
def skewHeapInsert (comp : Node → Node → ℤ) (fuel : ℕ) (heap : SkewHeap Node) (a : Option Node)
    (b : Node) : Outcome (Option Node × SkewHeap Node) :=
  skewHeapMerge comp fuel (skewHeapInit heap b) a (some b)

/-- `skew_heap_remove`. -/
def skewHeapRemove (comp : Node → Node → ℤ) (fuel : ℕ) (heap : SkewHeap Node) (a : Option Node)
    (b : Node) : Outcome (Option Node × SkewHeap Node) := do
  let p := (heap b).parent
  let (rep, heap) ← skewHeapMerge comp fuel heap (heap b).left (heap b).right
  let heap := heap.setParentOf rep p
  match p with
  | some p =>
    if (heap p).left = some b then .ok (a, heap.setLeft p rep)
    else .ok (a, heap.setRight p rep)
  | none => .ok (rep, heap)

end Code

/-! ## Linked trees -/

namespace SkewHeap

/-- The pointers below the root of the tree. -/
def Linked (heap : SkewHeap Node) : BinaryTree Node → Prop
  | .nil => True
  | .node value left right => (heap value).left = left.root ∧ (heap value).right = right.root ∧
      (∀ child ∈ left.root, (heap child).parent = some value) ∧
      (∀ child ∈ right.root, (heap child).parent = some value) ∧
      heap.Linked left ∧ heap.Linked right

/-- `after` holds `tree` in place of the `nodes` it was built from. The root keeps its parent. -/
structure Rebuilt (heap : SkewHeap Node) (nodes : List Node) (tree : BinaryTree Node)
    (after : SkewHeap Node) : Prop where
  linked : after.Linked tree
  frame : ∀ node, node ∉ nodes → after node = heap node
  parent : ∀ node ∈ tree.root, (after node).parent = (heap node).parent

variable {heap other : SkewHeap Node} {tree : BinaryTree Node}

/-- The parent of the root is no part of the tree. -/
theorem Linked.congr (h : heap.Linked tree) (hnodup : tree.values.Nodup)
    (hleft : ∀ node ∈ tree.values, (other node).left = (heap node).left)
    (hright : ∀ node ∈ tree.values, (other node).right = (heap node).right)
    (hparent : ∀ node ∈ tree.values, node ∉ tree.root →
      (other node).parent = (heap node).parent) : other.Linked tree := by
  induction tree with
  | nil => trivial
  | node value left right ihleft ihright =>
    rcases h with ⟨hl, hr, hlp, hrp, hsubleft, hsubright⟩
    rw [BinaryTree.values_node, List.nodup_cons, List.nodup_append] at hnodup
    rcases hnodup with ⟨hvalue, hnodupLeft, hnodupRight, -⟩
    have hbelow : ∀ node ∈ left.values ++ right.values,
        (other node).parent = (heap node).parent := fun node hnode ↦ by
      refine hparent node (by simp only [BinaryTree.values_node, List.mem_cons, hnode, or_true]) ?_
      rw [BinaryTree.root_node, Option.mem_some_iff]
      exact fun heq ↦ hvalue (heq ▸ hnode)
    refine ⟨?_, ?_, fun child hchild ↦ ?_, fun child hchild ↦ ?_, ?_, ?_⟩
    · rw [hleft value (by simp), hl]
    · rw [hright value (by simp), hr]
    · rw [hbelow child (by simp [BinaryTree.mem_values_of_root hchild]), hlp child hchild]
    · rw [hbelow child (by simp [BinaryTree.mem_values_of_root hchild]), hrp child hchild]
    · exact ihleft hsubleft hnodupLeft (fun node hnode ↦ hleft node (by simp [hnode]))
        (fun node hnode ↦ hright node (by simp [hnode]))
        (fun node hnode _ ↦ hbelow node (by simp [hnode]))
    · exact ihright hsubright hnodupRight (fun node hnode ↦ hleft node (by simp [hnode]))
        (fun node hnode ↦ hright node (by simp [hnode]))
        (fun node hnode _ ↦ hbelow node (by simp [hnode]))

theorem Linked.congr_of_eq (h : heap.Linked tree) (hnodup : tree.values.Nodup)
    (heq : ∀ node ∈ tree.values, other node = heap node) : other.Linked tree :=
  h.congr hnodup (fun node hnode ↦ by rw [heq node hnode]) (fun node hnode ↦ by rw [heq node hnode])
    (fun node hnode _ ↦ by rw [heq node hnode])

variable [DecidableEq Node]

@[simp]
theorem setParentOf_left (heap : SkewHeap Node) (entry parent : Option Node) (node : Node) :
    (heap.setParentOf entry parent node).left = (heap node).left := by
  cases entry with
  | none => rfl
  | some value => by_cases h : node = value <;> simp [setParentOf, setParent, Function.update, h]

@[simp]
theorem setParentOf_right (heap : SkewHeap Node) (entry parent : Option Node) (node : Node) :
    (heap.setParentOf entry parent node).right = (heap node).right := by
  cases entry with
  | none => rfl
  | some value => by_cases h : node = value <;> simp [setParentOf, setParent, Function.update, h]

theorem setParentOf_of_mem {entry : Option Node} {node : Node} (h : node ∈ entry)
    (heap : SkewHeap Node) (parent : Option Node) :
    (heap.setParentOf entry parent node).parent = parent := by
  rw [Option.mem_def.mp h]
  simp [setParentOf, setParent]

theorem setParentOf_of_notMem {entry : Option Node} {node : Node} (h : node ∉ entry)
    (heap : SkewHeap Node) (parent : Option Node) :
    heap.setParentOf entry parent node = heap node := by
  cases entry with
  | none => rfl
  | some value =>
    have hne : node ≠ value := fun heq ↦ h (by simp [heq])
    simp [setParentOf, setParent, hne]

/-- Setting the parent of the root. -/
theorem Linked.setParentOf (h : heap.Linked tree) (hnodup : tree.values.Nodup)
    (parent : Option Node) : (heap.setParentOf tree.root parent).Linked tree :=
  h.congr hnodup (fun node _ ↦ setParentOf_left heap _ _ node)
    (fun node _ ↦ setParentOf_right heap _ _ node)
    (fun node _ hroot ↦ by rw [setParentOf_of_notMem hroot])

/-- A node is hung over a tree on its left and one on its right that already points to it. -/
theorem Rebuilt.hang {nodes : List Node} {value : Node} {left right : BinaryTree Node}
    (hleft : heap.Linked left) (hright : heap.Linked right)
    (hparent : ∀ child ∈ right.root, (heap child).parent = some value)
    (hnodup : (value :: (left.values ++ right.values)).Nodup)
    (hnodes : ∀ node ∈ value :: left.values, node ∈ nodes) :
    Rebuilt heap nodes (.node value left right)
      (((heap.setLeft value left.root).setRight value right.root).setParentOf left.root
        (some value)) := by
  rw [List.nodup_cons, List.nodup_append] at hnodup
  rcases hnodup with ⟨hvalue, hnodupLeft, hnodupRight, hapart⟩
  simp only [List.mem_append, not_or] at hvalue
  have hvalueRoot : value ∉ left.root := fun hroot ↦
    hvalue.1 (BinaryTree.mem_values_of_root hroot)
  have hself : ((heap.setLeft value left.root).setRight value right.root) value =
      ⟨(heap value).parent, left.root, right.root⟩ := by
    simp [setLeft, setRight]
  have hne : ∀ node, node ≠ value →
      ((heap.setLeft value left.root).setRight value right.root) node = heap node :=
    fun node hnode ↦ by simp [setLeft, setRight, hnode]
  have hnotRoot : ∀ node ∈ right.values, node ∉ left.root := fun node hnode hroot ↦
    hapart node (BinaryTree.mem_values_of_root hroot) node hnode rfl
  refine ⟨⟨?_, ?_, fun child hchild ↦ ?_, fun child hchild ↦ ?_, ?_, ?_⟩, fun node hnode ↦ ?_,
    fun node hnode ↦ ?_⟩
  · rw [setParentOf_left, hself]
  · rw [setParentOf_right, hself]
  · rw [setParentOf_of_mem hchild]
  · have hmem := BinaryTree.mem_values_of_root hchild
    rw [setParentOf_of_notMem (hnotRoot child hmem), hne child fun heq ↦ hvalue.2 (heq ▸ hmem)]
    exact hparent child hchild
  · refine Linked.setParentOf ?_ hnodupLeft (some value)
    exact hleft.congr_of_eq hnodupLeft fun node hnode ↦ hne node fun heq ↦ hvalue.1 (heq ▸ hnode)
  · refine hright.congr_of_eq hnodupRight fun node hnode ↦ ?_
    rw [setParentOf_of_notMem (hnotRoot node hnode), hne node fun heq ↦ hvalue.2 (heq ▸ hnode)]
  · have hroot : node ∉ left.root := fun hroot ↦
      hnode (hnodes node (List.mem_cons_of_mem _ (BinaryTree.mem_values_of_root hroot)))
    have hvalueNe : node ≠ value := fun heq ↦ hnode (hnodes node (heq ▸ List.mem_cons_self))
    rw [setParentOf_of_notMem hroot, hne node hvalueNe]
  · rw [BinaryTree.root_node, Option.mem_some_iff] at hnode
    subst hnode
    rw [setParentOf_of_notMem hvalueRoot, hself]

/-- One round of a merge: the tree under `value` gives up its right subtree for the merged tree
`sub`, and its subtrees change sides. -/
theorem Rebuilt.round {nodes all : List Node} {value : Node} {left right sub : BinaryTree Node}
    {middle : SkewHeap Node} (h : heap.Linked (.node value left right))
    (hsub : Rebuilt heap nodes sub middle) (hvalues : sub.values.Perm nodes)
    (hnodup : (value :: (nodes ++ left.values)).Nodup) (hvalue : value ∈ all)
    (hall : ∀ node ∈ nodes, node ∈ all) :
    Rebuilt heap all (.node value sub left)
      (((middle.setLeft value sub.root).setRight value left.root).setParentOf sub.root
        (some value)) := by
  rcases h with ⟨-, -, hlp, -, hleft, -⟩
  have hparts := hnodup
  rw [List.nodup_cons, List.nodup_append] at hparts
  rcases hparts with ⟨hfresh, hnodupNodes, hnodupLeft, hapart⟩
  simp only [List.mem_append, not_or] at hfresh
  have hkept : ∀ node ∈ left.values, middle node = heap node := fun node hnode ↦
    hsub.frame node fun hmem ↦ hapart node hmem node hnode rfl
  have hhang : Rebuilt middle all (.node value sub left)
      (((middle.setLeft value sub.root).setRight value left.root).setParentOf sub.root
        (some value)) := by
    refine Rebuilt.hang hsub.linked (hleft.congr_of_eq hnodupLeft hkept) (fun child hchild ↦ ?_)
      ?_ (fun node hnode ↦ ?_)
    · rw [hkept child (BinaryTree.mem_values_of_root hchild)]
      exact hlp child hchild
    · exact ((hvalues.append_right left.values).cons value).nodup_iff.mpr hnodup
    · rcases List.mem_cons.mp hnode with rfl | hnode
      · exact hvalue
      · exact hall node (hvalues.mem_iff.mp hnode)
  refine ⟨hhang.linked, fun node hnode ↦ ?_, fun node hnode ↦ ?_⟩
  · rw [hhang.frame node hnode, hsub.frame node fun hmem ↦ hnode (hall node hmem)]
  · rw [hhang.parent node hnode]
    rw [BinaryTree.root_node, Option.mem_some_iff] at hnode
    rw [hsub.frame node (hnode ▸ hfresh.1)]

end SkewHeap

/-! ## The operations on linked trees -/

/-- The test that a merge branches on. -/
def SkewHeap.Before (comp : Node → Node → ℤ) (a b : Node) : Prop := comp a b = -1

instance (comp : Node → Node → ℤ) : DecidableRel (SkewHeap.Before comp) :=
  fun a b ↦ inferInstanceAs (Decidable (comp a b = -1))

open SkewHeap

section Specification

variable [DecidableEq Node] (comp : Node → Node → ℤ) {heap : SkewHeap Node}

/-- `skew_heap_merge` melds two separate trees. -/
theorem skewHeapMerge_spec {first second : BinaryTree Node} (hfirst : heap.Linked first)
    (hsecond : heap.Linked second) (hnodup : (first.values ++ second.values).Nodup) :
    ∃ after, Rebuilt heap (first.values ++ second.values)
        (first.meld (Before comp) second) after ∧
      ∀ fuel, first.numNodes + second.numNodes ≤ fuel →
        skewHeapMerge comp fuel heap first.root second.root =
          .ok ((first.meld (Before comp) second).root, after) := by
  induction first, second using BinaryTree.meld.induct (Before comp)
      generalizing heap with
  | case1 second =>
    refine ⟨heap, ⟨by simpa using hsecond, fun _ _ ↦ rfl, fun _ _ ↦ rfl⟩, fun fuel _ ↦ ?_⟩
    simp [skewHeapMerge]
  | case2 a left right =>
    refine ⟨heap, ⟨by simpa using hfirst, fun _ _ ↦ rfl, fun _ _ ↦ rfl⟩, fun fuel _ ↦ ?_⟩
    simp [skewHeapMerge]
  | case3 a leftA rightA b leftB rightB h ih =>
    have hperm : ((BinaryTree.node a leftA rightA).values ++
        (BinaryTree.node b leftB rightB).values).Perm
        (a :: ((rightA.values ++ (BinaryTree.node b leftB rightB).values) ++ leftA.values)) := by
      rw [BinaryTree.values_node a, List.cons_append, List.append_assoc leftA.values]
      exact List.Perm.cons a List.perm_append_comm
    have hparts := hperm.nodup_iff.mp hnodup
    rcases ih hfirst.2.2.2.2.2 hsecond (List.nodup_append.mp (List.nodup_cons.mp hparts).2).1 with
      ⟨middle, hmiddle, hcall⟩
    rw [BinaryTree.meld_of_before (Before comp) h]
    refine ⟨_, hmiddle.round hfirst (BinaryTree.values_meld_perm _ _ _) hparts (by simp)
      (fun node hnode ↦ hperm.mem_iff.mpr (List.mem_cons_of_mem _ (List.mem_append_left _ hnode))),
      fun fuel hfuel ↦ ?_⟩
    rcases fuel with _ | fuel
    · simp only [BinaryTree.numNodes] at hfuel
      omega
    · simp only [BinaryTree.numNodes] at hfuel
      have hsub := hcall fuel (by simp only [BinaryTree.numNodes]; omega)
      rw [BinaryTree.root_node] at hsub
      rw [BinaryTree.root_node, BinaryTree.root_node, skewHeapMerge, if_pos (show comp a b = -1 from h),
        hfirst.2.1, hsub]
      simp [hfirst.1]
  | case4 a leftA rightA b leftB rightB h ih =>
    have hperm : ((BinaryTree.node a leftA rightA).values ++
        (BinaryTree.node b leftB rightB).values).Perm
        (b :: (((BinaryTree.node a leftA rightA).values ++ rightB.values) ++ leftB.values)) := by
      rw [BinaryTree.values_node b]
      refine List.perm_middle.trans (List.Perm.cons b ?_)
      rw [List.append_assoc]
      exact List.perm_append_comm.append_left _
    have hparts := hperm.nodup_iff.mp hnodup
    rcases ih hfirst hsecond.2.2.2.2.2 (List.nodup_append.mp (List.nodup_cons.mp hparts).2).1 with
      ⟨middle, hmiddle, hcall⟩
    rw [BinaryTree.meld_of_not_before (Before comp) h]
    refine ⟨_, hmiddle.round hsecond (BinaryTree.values_meld_perm _ _ _) hparts (by simp)
      (fun node hnode ↦ hperm.mem_iff.mpr (List.mem_cons_of_mem _ (List.mem_append_left _ hnode))),
      fun fuel hfuel ↦ ?_⟩
    rcases fuel with _ | fuel
    · simp only [BinaryTree.numNodes] at hfuel
      omega
    · simp only [BinaryTree.numNodes] at hfuel
      have hsub := hcall fuel (by simp only [BinaryTree.numNodes]; omega)
      rw [BinaryTree.root_node] at hsub
      rw [BinaryTree.root_node, BinaryTree.root_node, skewHeapMerge,
        if_neg (show ¬comp a b = -1 from h), hsecond.2.1, hsub]
      simp [hsecond.1]

/-- `skew_heap_insert` of a node that is not in the tree. -/
theorem skewHeapInsert_spec {tree : BinaryTree Node} {b : Node} (htree : heap.Linked tree)
    (hroot : ∀ node ∈ tree.root, (heap node).parent = none) (hnodup : (b :: tree.values).Nodup) :
    ∃ after, after.Linked (tree.meld (Before comp) (.node b .nil .nil)) ∧
      (∀ node ∈ (tree.meld (Before comp) (.node b .nil .nil)).root,
        (after node).parent = none) ∧
      Returns (fun fuel ↦ skewHeapInsert comp fuel heap tree.root b)
        ((tree.meld (Before comp) (.node b .nil .nil)).root, after) := by
  rcases List.nodup_cons.mp hnodup with ⟨hfresh, htreeNodup⟩
  have hother : ∀ node ∈ tree.values, skewHeapInit heap b node = heap node := by
    intro node hnode
    have hne : node ≠ b := fun heq ↦ hfresh (heq ▸ hnode)
    exact Function.update_of_ne hne _ _
  have hself : skewHeapInit heap b b = ⟨none, none, none⟩ := Function.update_self ..
  have hleaf : (skewHeapInit heap b).Linked (.node b .nil .nil) := by
    simp [SkewHeap.Linked, hself]
  rcases skewHeapMerge_spec comp (htree.congr_of_eq htreeNodup hother) hleaf
    (List.perm_append_singleton b tree.values |>.nodup_iff.mpr hnodup) with ⟨after, hafter, hcall⟩
  refine ⟨after, hafter.linked, fun node hnode ↦ ?_, ⟨_, hcall⟩⟩
  rw [hafter.parent node hnode]
  rcases BinaryTree.mem_root_meld _ hnode with hnode | hnode
  · rw [hother node (BinaryTree.mem_values_of_root hnode), hroot node hnode]
  · rw [BinaryTree.root_node, Option.mem_some_iff] at hnode
    rw [← hnode, hself]

/-- `skew_heap_remove` of the root. -/
theorem skewHeapRemove_root_spec {left right : BinaryTree Node} {b : Node} {a : Option Node}
    (htree : heap.Linked (.node b left right)) (hroot : (heap b).parent = none)
    (hnodup : (left.values ++ right.values).Nodup) :
    ∃ after, after.Linked (left.meld (Before comp) right) ∧
      (∀ node ∈ (left.meld (Before comp) right).root, (after node).parent = none) ∧
      Returns (fun fuel ↦ skewHeapRemove comp fuel heap a b)
        ((left.meld (Before comp) right).root, after) := by
  rcases htree with ⟨hl, hr, -, -, hleft, hright⟩
  rcases skewHeapMerge_spec comp hleft hright hnodup with ⟨after, hafter, hcall⟩
  refine ⟨after.setParentOf (left.meld (Before comp) right).root none, ?_, ?_,
    left.numNodes + right.numNodes, fun fuel hfuel ↦ ?_⟩
  · exact hafter.linked.setParentOf ((BinaryTree.nodup_values_meld _).mpr hnodup) none
  · exact fun node hnode ↦ setParentOf_of_mem hnode after none
  · simp only [skewHeapRemove, hl, hr, hcall fuel hfuel, Outcome.ok_bind, hroot]

theorem settles_skewHeapMerge (comp : Node → Node → ℤ) (heap : SkewHeap Node) (a b : Option Node) :
    Settles fun fuel ↦ skewHeapMerge comp fuel heap a b := by
  intro fuel value h
  induction fuel generalizing heap a b value with
  | zero => rcases a with _ | a <;> rcases b with _ | b <;> simp_all [skewHeapMerge]
  | succ fuel ih =>
    rcases a with _ | a
    · simpa [skewHeapMerge] using h
    · rcases b with _ | b
      · simpa [skewHeapMerge] using h
      · beta_reduce at h ⊢
        rw [skewHeapMerge] at h ⊢
        split at h
        · rw [if_pos (by assumption)]
          rcases Outcome.bind_eq_ok.mp h with ⟨merged, hmerged, h⟩
          exact Outcome.bind_eq_ok.mpr ⟨merged, ih _ _ _ _ hmerged, h⟩
        · rw [if_neg (by assumption)]
          rcases Outcome.bind_eq_ok.mp h with ⟨merged, hmerged, h⟩
          exact Outcome.bind_eq_ok.mpr ⟨merged, ih _ _ _ _ hmerged, h⟩

theorem settles_skewHeapInsert (comp : Node → Node → ℤ) (heap : SkewHeap Node) (a : Option Node)
    (b : Node) : Settles fun fuel ↦ skewHeapInsert comp fuel heap a b :=
  settles_skewHeapMerge comp _ a (some b)

theorem settles_skewHeapRemove (comp : Node → Node → ℤ) (heap : SkewHeap Node) (a : Option Node)
    (b : Node) : Settles fun fuel ↦ skewHeapRemove comp fuel heap a b :=
  (settles_skewHeapMerge comp heap _ _).bind fun _ ↦ Settles.of_constant _

end Specification

end Ucore

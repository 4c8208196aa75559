import Mathlib.Data.Tree.Basic
import Mathlib.Data.List.Perm.Basic

/-!
# Skew heaps as binary trees

Two trees are melded along their right spines, and every node on the way changes the sides of its
subtrees. Melding rearranges the values of the two trees and keeps the heap order of any relation
that agrees with the test it branches on.
-/

namespace BinaryTree

variable {α : Type*}

def root : BinaryTree α → Option α
  | .nil => none
  | .node value _ _ => some value

def values : BinaryTree α → List α
  | .nil => []
  | .node value left right => value :: (left.values ++ right.values)

@[simp]
theorem root_nil : (nil : BinaryTree α).root = none := rfl

@[simp]
theorem root_node (value : α) (left right : BinaryTree α) :
    (node value left right).root = some value := rfl

@[simp]
theorem values_nil : (nil : BinaryTree α).values = [] := rfl

@[simp]
theorem values_node (value : α) (left right : BinaryTree α) :
    (node value left right).values = value :: (left.values ++ right.values) := rfl

theorem mem_values_of_root {tree : BinaryTree α} {value : α} (h : value ∈ tree.root) :
    value ∈ tree.values := by
  cases tree with
  | nil => simp at h
  | node top left right =>
    rw [root_node, Option.mem_some_iff] at h
    simp [h]

theorem length_values (tree : BinaryTree α) : tree.values.length = tree.numNodes := by
  induction tree with
  | nil => rfl
  | node value left right ihleft ihright =>
    simp only [values_node, List.length_cons, List.length_append, ihleft, ihright, numNodes]

/-! ## Melding -/

section Meld

variable (before : α → α → Prop) [DecidableRel before]

/-- The tree whose root comes first stays on top: the other one goes into its right subtree, and
its subtrees change sides. -/
def meld : BinaryTree α → BinaryTree α → BinaryTree α
  | .nil, second => second
  | .node a left right, .nil => .node a left right
  | .node a leftA rightA, .node b leftB rightB =>
    if before a b then .node a (meld rightA (.node b leftB rightB)) leftA
    else .node b (meld (.node a leftA rightA) rightB) leftB
termination_by first second => first.numNodes + second.numNodes

@[simp]
theorem nil_meld (second : BinaryTree α) : meld before .nil second = second := by
  rw [meld]

@[simp]
theorem meld_nil (first : BinaryTree α) : meld before first .nil = first := by
  cases first <;> rw [meld]

theorem meld_of_before {a b : α} {leftA rightA leftB rightB : BinaryTree α} (h : before a b) :
    meld before (.node a leftA rightA) (.node b leftB rightB) =
      .node a (meld before rightA (.node b leftB rightB)) leftA := by
  rw [meld, if_pos h]

theorem meld_of_not_before {a b : α} {leftA rightA leftB rightB : BinaryTree α}
    (h : ¬before a b) : meld before (.node a leftA rightA) (.node b leftB rightB) =
      .node b (meld before (.node a leftA rightA) rightB) leftB := by
  rw [meld, if_neg h]

/-- Melding loses no value and adds none. -/
theorem values_meld_perm (first second : BinaryTree α) :
    (meld before first second).values.Perm (first.values ++ second.values) := by
  induction first, second using meld.induct before with
  | case1 second => simp
  | case2 a left right => simp
  | case3 a leftA rightA b leftB rightB h ih =>
    rw [meld_of_before before h, values_node, values_node a, List.cons_append]
    refine List.Perm.cons a ?_
    rw [List.append_assoc leftA.values]
    exact (ih.append_right _).trans List.perm_append_comm
  | case4 a leftA rightA b leftB rightB h ih =>
    rw [meld_of_not_before before h, values_node, values_node b]
    refine List.Perm.trans (List.Perm.cons b ?_) List.perm_middle.symm
    rw [← List.append_assoc]
    refine (ih.append_right _).trans ?_
    rw [List.append_assoc, List.append_assoc]
    exact List.perm_append_comm.append_left _

theorem mem_values_meld {first second : BinaryTree α} {value : α} :
    value ∈ (meld before first second).values ↔ value ∈ first.values ∨ value ∈ second.values := by
  rw [(values_meld_perm before first second).mem_iff, List.mem_append]

theorem nodup_values_meld {first second : BinaryTree α} :
    (meld before first second).values.Nodup ↔ (first.values ++ second.values).Nodup :=
  (values_meld_perm before first second).nodup_iff

theorem mem_root_meld {first second : BinaryTree α} {value : α}
    (h : value ∈ (meld before first second).root) : value ∈ first.root ∨ value ∈ second.root := by
  cases first with
  | nil => exact Or.inr (by simpa using h)
  | node a leftA rightA =>
    cases second with
    | nil => exact Or.inl (by simpa using h)
    | node b leftB rightB =>
      by_cases hbefore : before a b
      · exact Or.inl (by simpa [meld_of_before before hbefore] using h)
      · exact Or.inr (by simpa [meld_of_not_before before hbefore] using h)

end Meld

/-! ## Taking out a value -/

section Splice

variable [DecidableEq α] (before : α → α → Prop) [DecidableRel before] {target value : α}
  {tree : BinaryTree α}

/-- The two subtrees of the target melded in its place. -/
def splice (target : α) : BinaryTree α → BinaryTree α
  | .nil => .nil
  | .node value left right =>
    if value = target then meld before left right
    else .node value (splice target left) (splice target right)

theorem splice_self (target : α) (left right : BinaryTree α) :
    splice before target (.node target left right) = meld before left right := by
  rw [splice, if_pos rfl]

theorem splice_of_ne (h : value ≠ target) (left right : BinaryTree α) :
    splice before target (.node value left right) =
      .node value (splice before target left) (splice before target right) := by
  rw [splice, if_neg h]

theorem splice_of_notMem (h : target ∉ tree.values) : tree.splice before target = tree := by
  induction tree with
  | nil => rfl
  | node value left right ihleft ihright =>
    simp only [values_node, List.mem_cons, List.mem_append, not_or] at h
    rw [splice_of_ne before (Ne.symm h.1), ihleft h.2.1, ihright h.2.2]

theorem mem_values_splice (h : value ∈ (tree.splice before target).values) : value ∈ tree.values := by
  induction tree with
  | nil => exact h
  | node top left right ihleft ihright =>
    by_cases htop : top = target
    · rw [htop, splice_self, mem_values_meld] at h
      simp only [values_node, List.mem_cons, List.mem_append]
      exact Or.inr h
    · rw [splice_of_ne before htop] at h
      simp only [values_node, List.mem_cons, List.mem_append] at h ⊢
      exact h.imp_right (Or.imp ihleft ihright)

theorem root_splice (h : target ∉ tree.root) : (tree.splice before target).root = tree.root := by
  cases tree with
  | nil => rfl
  | node top left right =>
    have hne : top ≠ target := fun heq ↦ h (by simp [heq])
    rw [splice_of_ne before hne, root_node, root_node]

/-- Exactly the target is lost. -/
theorem values_splice_perm (hnodup : tree.values.Nodup) :
    (tree.splice before target).values.Perm (tree.values.erase target) := by
  induction tree with
  | nil => exact List.Perm.refl []
  | node value left right ihleft ihright =>
    rw [values_node, List.nodup_cons, List.nodup_append] at hnodup
    rcases hnodup with ⟨hvalue, hleft, hright, hapart⟩
    by_cases htop : value = target
    · rw [htop, splice_self, values_node, List.erase_cons_head]
      exact values_meld_perm before left right
    · rw [splice_of_ne before htop, values_node, values_node, List.erase_cons_tail (by simpa using htop)]
      refine List.Perm.cons value ?_
      by_cases hmem : target ∈ left.values
      · have hother : target ∉ right.values := fun hright ↦ hapart target hmem target hright rfl
        rw [splice_of_notMem before hother, List.erase_append_left _ hmem]
        exact (ihleft hleft).append_right _
      · rw [splice_of_notMem before hmem, List.erase_append_right _ hmem]
        exact (ihright hright).append_left _

end Splice

/-! ## Heap order -/

/-- No child comes before its parent. -/
def IsHeap (le : α → α → Prop) : BinaryTree α → Prop
  | .nil => True
  | .node value left right => (∀ child ∈ left.root, le value child) ∧
      (∀ child ∈ right.root, le value child) ∧ left.IsHeap le ∧ right.IsHeap le

namespace IsHeap

variable {le other : α → α → Prop} {first second tree : BinaryTree α}

/-- The order of the values in the tree is all that matters. -/
theorem mono (h : tree.IsHeap le)
    (hle : ∀ a ∈ tree.values, ∀ b ∈ tree.values, le a b → other a b) : tree.IsHeap other := by
  induction tree with
  | nil => trivial
  | node value left right ihleft ihright =>
    rcases h with ⟨hleft, hright, hsubleft, hsubright⟩
    refine ⟨fun child hchild ↦ ?_, fun child hchild ↦ ?_, ihleft hsubleft ?_, ihright hsubright ?_⟩
    · exact hle _ (by simp) _ (by simp [mem_values_of_root hchild]) (hleft child hchild)
    · exact hle _ (by simp) _ (by simp [mem_values_of_root hchild]) (hright child hchild)
    · exact fun a ha b hb ↦ hle a (by simp [ha]) b (by simp [hb])
    · exact fun a ha b hb ↦ hle a (by simp [ha]) b (by simp [hb])

/-- A test that agrees with the order keeps the heap order. -/
theorem meld (before : α → α → Prop) [DecidableRel before]
    (hbefore : ∀ a b, before a b → le a b) (hnot : ∀ a b, ¬before a b → le b a)
    (hfirst : first.IsHeap le) (hsecond : second.IsHeap le) :
    (first.meld before second).IsHeap le := by
  induction first, second using meld.induct before with
  | case1 second => simpa using hsecond
  | case2 a left right => simpa using hfirst
  | case3 a leftA rightA b leftB rightB h ih =>
    rcases hfirst with ⟨hleft, hright, hsubleft, hsubright⟩
    rw [meld_of_before before h]
    refine ⟨fun child hchild ↦ ?_, hleft, ih hsubright hsecond, hsubleft⟩
    rcases mem_root_meld before hchild with hchild | hchild
    · exact hright child hchild
    · rw [root_node, Option.mem_some_iff] at hchild
      exact hchild ▸ hbefore a b h
  | case4 a leftA rightA b leftB rightB h ih =>
    rcases hsecond with ⟨hleft, hright, hsubleft, hsubright⟩
    rw [meld_of_not_before before h]
    refine ⟨fun child hchild ↦ ?_, hleft, ih hfirst hsubright, hsubleft⟩
    rcases mem_root_meld before hchild with hchild | hchild
    · rw [root_node, Option.mem_some_iff] at hchild
      exact hchild ▸ hnot a b h
    · exact hright child hchild

/-- Where the order is reflexive and transitive on the values, the root is a least one. -/
theorem root_le (h : tree.IsHeap le) (hrefl : ∀ a ∈ tree.values, le a a)
    (htrans : ∀ a ∈ tree.values, ∀ b ∈ tree.values, ∀ c ∈ tree.values,
      le a b → le b c → le a c) {top value : α} (htop : top ∈ tree.root)
    (hvalue : value ∈ tree.values) : le top value := by
  induction tree generalizing top value with
  | nil => simp at htop
  | node a left right ihleft ihright =>
    rcases h with ⟨hleft, hright, hsubleft, hsubright⟩
    rw [root_node, Option.mem_some_iff] at htop
    subst htop
    -- a value below the root is below the root of its subtree
    have hbelow : ∀ subtree : BinaryTree α, (∀ x ∈ subtree.values, x ∈ (node a left right).values) →
        (∀ child ∈ subtree.root, le a child) →
        (∀ child ∈ subtree.root, ∀ x ∈ subtree.values, le child x) →
        value ∈ subtree.values → le a value := by
      intro subtree hsub hchild hroot hmem
      cases subtree with
      | nil => simp at hmem
      | node child low high =>
        exact htrans a (by simp) child (hsub child (by simp)) value (hsub value hmem)
          (hchild child rfl) (hroot child rfl value hmem)
    simp only [values_node, List.mem_cons, List.mem_append] at hvalue
    rcases hvalue with rfl | hvalue | hvalue
    · exact hrefl _ (by simp)
    · refine hbelow left (fun x hx ↦ by simp [hx]) hleft (fun child hchild x hx ↦ ?_) hvalue
      exact ihleft hsubleft (fun x hx ↦ hrefl x (by simp [hx]))
        (fun x hx y hy z hz ↦ htrans x (by simp [hx]) y (by simp [hy]) z (by simp [hz])) hchild hx
    · refine hbelow right (fun x hx ↦ by simp [hx]) hright (fun child hchild x hx ↦ ?_) hvalue
      exact ihright hsubright (fun x hx ↦ hrefl x (by simp [hx]))
        (fun x hx y hy z hz ↦ htrans x (by simp [hx]) y (by simp [hy]) z (by simp [hz])) hchild hx

/-- Taking out a value keeps a heap of a reflexive and transitive order. -/
theorem splice [DecidableEq α] (before : α → α → Prop) [DecidableRel before]
    (hbefore : ∀ a b, before a b → le a b) (hnot : ∀ a b, ¬before a b → le b a)
    (hrefl : ∀ a, le a a) (htrans : ∀ a b c, le a b → le b c → le a c) (h : tree.IsHeap le)
    (target : α) : (tree.splice before target).IsHeap le := by
  induction tree with
  | nil => exact h
  | node value left right ihleft ihright =>
    have hroot : ∀ other ∈ (node value left right).values, le value other := fun other hother ↦
      h.root_le (fun a _ ↦ hrefl a) (fun a _ b _ c _ ↦ htrans a b c) rfl hother
    rcases h with ⟨-, -, hsubleft, hsubright⟩
    by_cases htop : value = target
    · rw [htop, splice_self]
      exact hsubleft.meld before hbefore hnot hsubright
    · rw [splice_of_ne before htop]
      refine ⟨fun child hchild ↦ hroot child ?_, fun child hchild ↦ hroot child ?_,
        ihleft hsubleft, ihright hsubright⟩
      · have hmem := mem_values_splice before (mem_values_of_root hchild)
        simp [hmem]
      · have hmem := mem_values_splice before (mem_values_of_root hchild)
        simp [hmem]

end IsHeap

end BinaryTree

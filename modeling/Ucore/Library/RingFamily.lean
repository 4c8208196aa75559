import Ucore.Library.CircularList

/-!
# Several rings in one memory

An array of list headers makes a family of rings that have no node in common. A node that is linked
into one of them or unlinked from it changes the links of nodes of this ring only, so that all
others stay as they are.
-/

namespace Ucore.Library

open Links

/-- The links hold one ring for each of the indices, and no node is in two of them. -/
structure RingFamily {Index Node : Type} (links : Links Node) (head : Index → Node)
    (indices : Set Index) (lists : Index → List Node) : Prop where
  ring : ∀ i ∈ indices, Ring links (head i) (lists i)
  disjoint : ∀ i ∈ indices, ∀ j ∈ indices, i ≠ j →
    (head i :: lists i).Disjoint (head j :: lists j)

namespace RingFamily

variable {Index Node : Type} {links : Links Node} {head : Index → Node} {indices : Set Index}
  {lists : Index → List Node} {left right : List Node} {i : Index} {elm : Node}

/-- A change of links in one ring, of a node that no other ring has. -/
theorem update [DecidableEq Index] {other : Links Node} {nodes : List Node}
    (h : RingFamily links head indices lists) (hi : i ∈ indices)
    (hring : Ring other (head i) nodes)
    (hother : ∀ j ∈ indices, j ≠ i → ∀ node ∈ head j :: lists j, other node = links node)
    (hnodes : ∀ node ∈ nodes, node ∈ lists i ∨ ∀ j ∈ indices, node ∉ head j :: lists j) :
    RingFamily other head indices (Function.update lists i nodes) := by
  have hapart : ∀ j ∈ indices, j ≠ i → (head i :: nodes).Disjoint (head j :: lists j) := by
    intro j hj hne node hnode hthere
    rcases List.mem_cons.mp hnode with rfl | hnode
    · exact h.disjoint i hi j hj hne.symm List.mem_cons_self hthere
    · rcases hnodes node hnode with hold | hfresh
      · exact h.disjoint i hi j hj hne.symm (List.mem_cons_of_mem _ hold) hthere
      · exact hfresh j hj hthere
  refine ⟨fun j hj ↦ ?_, fun j hj k hk hne ↦ ?_⟩
  · by_cases heq : j = i
    · subst heq
      rw [Function.update_self]
      exact hring
    · rw [Function.update_of_ne heq]
      exact (h.ring j hj).congr (hother j hj heq)
  · by_cases hji : j = i
    · subst hji
      rw [Function.update_self, Function.update_of_ne hne.symm]
      exact hapart k hk hne.symm
    · by_cases hki : k = i
      · subst hki
        rw [Function.update_self, Function.update_of_ne hji]
        exact fun node hnode hthere ↦ hapart j hj hji hthere hnode
      · rw [Function.update_of_ne hji, Function.update_of_ne hki]
        exact h.disjoint j hj k hk hne

/-- Nodes that are in no ring do not matter. -/
theorem congr {other : Links Node} (h : RingFamily links head indices lists)
    (hother : ∀ j ∈ indices, ∀ node ∈ head j :: lists j, other node = links node) :
    RingFamily other head indices lists :=
  ⟨fun j hj ↦ (h.ring j hj).congr (hother j hj), h.disjoint⟩

theorem notMem (h : RingFamily links head indices lists) (hi : i ∈ indices) {j : Index}
    (hj : j ∈ indices) (hne : j ≠ i) {node : Node} (hnode : node ∈ head i :: lists i) :
    node ∉ head j :: lists j := fun hthere ↦ h.disjoint i hi j hj hne.symm hnode hthere

theorem getLastD_mem_of_subset {nodes : List Node} {first : Node} (hsubset : left ⊆ nodes) :
    left.getLastD first ∈ first :: nodes := by
  rcases List.mem_cons.mp (Ring.getLastD_mem left first) with heq | hmem
  · rw [heq]
    exact List.mem_cons_self
  · exact List.mem_cons_of_mem _ (hsubset hmem)

theorem headD_mem_of_subset {nodes : List Node} {first : Node} (hsubset : right ⊆ nodes) :
    right.headD first ∈ first :: nodes := by
  rcases List.mem_cons.mp (Ring.headD_mem right first) with heq | hmem
  · rw [heq]
    exact List.mem_cons_self
  · exact List.mem_cons_of_mem _ (hsubset hmem)

theorem linkBetween [DecidableEq Index] [DecidableEq Node]
    (h : RingFamily links head indices lists) (hi : i ∈ indices) (hlists : lists i = left ++ right)
    (hfresh : ∀ j ∈ indices, elm ∉ head j :: lists j) :
    RingFamily (links.linkBetween elm (left.getLastD (head i)) (right.headD (head i))) head indices
      (Function.update lists i (left ++ elm :: right)) := by
  have hring := h.ring i hi
  rw [hlists] at hring
  have hprev : left.getLastD (head i) ∈ head i :: lists i :=
    getLastD_mem_of_subset (hlists ▸ List.subset_append_left left right)
  have hnext : right.headD (head i) ∈ head i :: lists i :=
    headD_mem_of_subset (hlists ▸ List.subset_append_right left right)
  refine h.update hi (hring.linkBetween (hlists ▸ hfresh i hi)) (fun j hj hne node hnode ↦ ?_)
    fun node hnode ↦ ?_
  · refine linkBetween_of_ne links ?_ ?_ ?_
    · rintro rfl
      exact hfresh j hj hnode
    · rintro rfl
      exact h.notMem hi hj hne hprev hnode
    · rintro rfl
      exact h.notMem hi hj hne hnext hnode
  · rw [hlists]
    rcases List.mem_append.mp hnode with hleft | hrest
    · exact Or.inl (List.mem_append_left _ hleft)
    · rcases List.mem_cons.mp hrest with rfl | hright
      · exact Or.inr hfresh
      · exact Or.inl (List.mem_append_right _ hright)

theorem joinAround [DecidableEq Index] [DecidableEq Node]
    (h : RingFamily links head indices lists) (hi : i ∈ indices)
    (hlists : lists i = left ++ elm :: right) :
    RingFamily (links.joinAround (left.getLastD (head i)) (right.headD (head i))) head indices
      (Function.update lists i (left ++ right)) := by
  have hring := h.ring i hi
  rw [hlists] at hring
  have hprev : left.getLastD (head i) ∈ head i :: lists i :=
    getLastD_mem_of_subset (hlists ▸ List.subset_append_left left (elm :: right))
  have hafter : right ⊆ left ++ elm :: right :=
    List.Subset.trans (List.subset_cons_self elm right)
      (List.subset_append_right left (elm :: right))
  have hnext : right.headD (head i) ∈ head i :: lists i :=
    headD_mem_of_subset (hlists ▸ hafter)
  refine h.update hi hring.joinAround (fun j hj hne node hnode ↦ ?_) fun node hnode ↦ Or.inl ?_
  · refine joinAround_of_ne links ?_ ?_
    · rintro rfl
      exact h.notMem hi hj hne hprev hnode
    · rintro rfl
      exact h.notMem hi hj hne hnext hnode
  · rw [hlists]
    rcases List.mem_append.mp hnode with hleft | hright
    · exact List.mem_append_left _ hleft
    · exact List.mem_append_right _ (List.mem_cons_of_mem _ hright)

end RingFamily

/-- The links determine what is in a ring. -/
theorem Ring.unique {Node : Type} {links : Links Node} {head : Node} {nodes others : List Node}
    (h : Ring links head nodes) (hothers : Ring links head others) : nodes = others := by
  -- both lists follow the `next` links, up to the first node that leads back to the head
  have hwalk : ∀ (first : Node) (nodes others : List Node),
      (first :: nodes ++ [head]).IsChain (Adjacent links) →
      (first :: others ++ [head]).IsChain (Adjacent links) → head ∉ nodes → head ∉ others →
      nodes = others := by
    intro first nodes
    induction nodes generalizing first with
    | nil =>
      intro others hchain hother _ hnot
      cases others with
      | nil => rfl
      | cons second rest =>
        have hnext : (links first).next = head := (List.isChain_cons_cons.mp hchain).1.1
        have hsecond : (links first).next = second := (List.isChain_cons_cons.mp hother).1.1
        rw [hnext.symm.trans hsecond] at hnot
        exact absurd List.mem_cons_self hnot
    | cons node nodes ih =>
      intro others hchain hother hnode hnot
      rw [List.cons_append, List.cons_append, List.isChain_cons_cons] at hchain
      have hnext : (links first).next = node := hchain.1.1
      cases others with
      | nil =>
        have hhead : (links first).next = head := (List.isChain_cons_cons.mp hother).1.1
        rw [hhead.symm.trans hnext] at hnode
        exact absurd List.mem_cons_self hnode
      | cons second rest =>
        rw [List.cons_append, List.cons_append, List.isChain_cons_cons] at hother
        have hsecond : node = second := hnext.symm.trans hother.1.1
        subst hsecond
        rw [ih node rest hchain.2 hother.2 (fun hmem ↦ hnode (List.mem_cons_of_mem _ hmem))
          fun hmem ↦ hnot (List.mem_cons_of_mem _ hmem)]
  exact hwalk head nodes others h.chain hothers.chain h.head_notMem hothers.head_notMem

end Ucore.Library

import Ucore.Library.CircularList

/-!
# `libs/list.h`

The list operations of the kernel under their own names, on a memory of links.
-/

namespace Ucore

open Library Library.Links

section

variable {Node : Type} [DecidableEq Node]

def listInit (links : Links Node) (elm : Node) : Links Node := selfLink links elm

def listNext (links : Links Node) (listelm : Node) : Node := (links listelm).next

def listPrev (links : Links Node) (listelm : Node) : Node := (links listelm).prev

/-- `__list_add`, the stores in the order of the source. -/
def listAddBetween (links : Links Node) (elm prev next : Node) : Links Node :=
  linkBetween links elm prev next

/-- `__list_del`. -/
def listDelBetween (links : Links Node) (prev next : Node) : Links Node := joinAround links prev next

def listAddBefore (links : Links Node) (listelm elm : Node) : Links Node :=
  listAddBetween links elm (links listelm).prev listelm

def listAddAfter (links : Links Node) (listelm elm : Node) : Links Node :=
  listAddBetween links elm listelm (links listelm).next

def listAdd (links : Links Node) (listelm elm : Node) : Links Node := listAddAfter links listelm elm

def listDel (links : Links Node) (listelm : Node) : Links Node :=
  listDelBetween links (links listelm).prev (links listelm).next

def listDelInit (links : Links Node) (listelm : Node) : Links Node :=
  listInit (listDel links listelm) listelm

def listEmpty {Node : Type} (links : Links Node) (list : Node) : Prop := (links list).next = list

instance (links : Links Node) (list : Node) : Decidable (listEmpty links list) :=
  inferInstanceAs (Decidable ((links list).next = list))

end

variable {Node : Type} {links : Links Node} {head elm : Node} {nodes left right : List Node}

theorem listEmpty_iff (h : Ring links head nodes) : listEmpty links head ↔ nodes = [] :=
  h.next_head_eq_self_iff

variable [DecidableEq Node]

theorem ring_listInit (links : Links Node) (head : Node) : Ring (listInit links head) head [] :=
  Ring.selfLink links head

/-- Adding after the head puts the element first. -/
theorem ring_listAdd_head (h : Ring links head nodes) (hfresh : elm ∉ head :: nodes) :
    Ring (listAdd links head elm) head (elm :: nodes) := by
  have hsplit : Ring links head ([] ++ nodes) := h
  have hring := hsplit.linkBetween hfresh
  rw [← h.next_head] at hring
  exact hring

/-- Adding before the head puts the element last. -/
theorem ring_listAddBefore_head (h : Ring links head nodes) (hfresh : elm ∉ head :: nodes) :
    Ring (listAddBefore links head elm) head (nodes ++ [elm]) := by
  have hsplit : Ring links head (nodes ++ []) := by simpa using h
  have hring := hsplit.linkBetween
    (by simpa using hfresh)
  rw [← h.prev_head] at hring
  exact hring

/-- Adding after a listed node, or after the head when nothing is before the gap. -/
theorem ring_listAdd (h : Ring links head (left ++ right)) (hfresh : elm ∉ head :: (left ++ right)) :
    Ring (listAdd links (left.getLastD head) elm) head (left ++ elm :: right) := by
  have hnext := (Ring.split_iff.mp h).2.2.2.1
  have hring := h.linkBetween hfresh
  rw [← hnext] at hring
  exact hring

theorem ring_listAddBefore (h : Ring links head (left ++ right))
    (hfresh : elm ∉ head :: (left ++ right)) :
    Ring (listAddBefore links (right.headD head) elm) head (left ++ elm :: right) := by
  have hprev := (Ring.split_iff.mp h).2.2.2.2
  have hring := h.linkBetween hfresh
  rw [← hprev] at hring
  exact hring

theorem ring_listDel (h : Ring links head (left ++ elm :: right)) :
    Ring (listDel links elm) head (left ++ right) := by
  have hring := h.joinAround
  rw [← h.next_eq, ← h.prev_eq] at hring
  exact hring

/-- Adding and deleting leave the links of other nodes alone. -/
theorem listAddBefore_of_notMem {other : Node} (h : Ring links head (left ++ right))
    (hother : other ∉ elm :: head :: (left ++ right)) :
    listAddBefore links (right.headD head) elm other = links other := by
  have hprev := Ring.getLastD_mem left head
  have hnext := Ring.headD_mem right head
  rw [← (Ring.split_iff.mp h).2.2.2.2] at hprev
  have hsub : ∀ node, node ∈ head :: left ∨ node ∈ head :: right →
      node ∈ elm :: head :: (left ++ right) := fun node hnode ↦ by
    simp only [List.mem_cons, List.mem_append] at hnode ⊢
    tauto
  exact linkBetween_of_ne links (fun heq ↦ hother (heq ▸ List.mem_cons_self))
    (fun heq ↦ hother (heq ▸ hsub _ (Or.inl hprev)))
    fun heq ↦ hother (heq ▸ hsub _ (Or.inr hnext))

theorem listDelInit_of_notMem {other : Node} (h : Ring links head (left ++ elm :: right))
    (hother : other ∉ head :: (left ++ elm :: right)) :
    listDelInit links elm other = links other := by
  have hprev := Ring.getLastD_mem left head
  have hnext := Ring.headD_mem right head
  rw [← h.prev_eq] at hprev
  rw [← h.next_eq] at hnext
  have hsub : ∀ node, node ∈ head :: left ∨ node ∈ head :: right →
      node ∈ head :: (left ++ elm :: right) := fun node hnode ↦ by
    simp only [List.mem_cons, List.mem_append] at hnode ⊢
    tauto
  have hne : other ≠ elm := fun heq ↦ hother (by simp [heq])
  refine (selfLink_of_ne _ hne).trans (joinAround_of_ne links ?_ ?_)
  · exact fun heq ↦ hother (heq ▸ hsub _ (Or.inl hprev))
  · exact fun heq ↦ hother (heq ▸ hsub _ (Or.inr hnext))

/-- Two lists in one memory: adding to one leaves the other alone. -/
theorem ring_listAdd_other {other : Node} {others : List Node} (h : Ring links head nodes)
    (hother : Ring links other others) (hfresh : elm ∉ other :: others)
    (hdisjoint : ∀ node ∈ head :: nodes, node ∉ other :: others) :
    Ring (listAdd links head elm) other others := by
  refine hother.congr fun value hvalue ↦ linkBetween_of_ne links ?_ ?_ ?_
  · exact fun heq ↦ hfresh (heq ▸ hvalue)
  · exact fun heq ↦ hdisjoint head (by simp) (heq ▸ hvalue)
  · intro heq
    rw [h.next_head] at heq
    exact hdisjoint _ (Ring.headD_mem nodes head) (heq ▸ hvalue)

theorem ring_listDel_other {other : Node} {others : List Node}
    (h : Ring links head (left ++ elm :: right)) (hother : Ring links other others)
    (hdisjoint : ∀ node ∈ head :: (left ++ elm :: right), node ∉ other :: others) :
    Ring (listDel links elm) other others := by
  have hprev := Ring.getLastD_mem left head
  have hnext := Ring.headD_mem right head
  rw [← h.prev_eq] at hprev
  rw [← h.next_eq] at hnext
  refine hother.congr fun value hvalue ↦ joinAround_of_ne links ?_ ?_
  · refine fun heq ↦ hdisjoint _ ?_ (heq ▸ hvalue)
    simp only [List.mem_cons, List.mem_append] at hprev ⊢
    tauto
  · refine fun heq ↦ hdisjoint _ ?_ (heq ▸ hvalue)
    simp only [List.mem_cons, List.mem_append] at hnext ⊢
    tauto

/-- After `list_del_init` the element is a list of its own. -/
theorem ring_listDelInit (h : Ring links head (left ++ elm :: right)) :
    Ring (listDelInit links elm) head (left ++ right) ∧ listDelInit links elm elm = ⟨elm, elm⟩ := by
  refine ⟨(ring_listDel h).congr fun value hvalue ↦ ?_, selfLink_self _ _⟩
  exact selfLink_of_ne _ fun heq ↦ h.node_notMem (heq ▸ hvalue)

end Ucore

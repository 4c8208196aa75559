import Ucore.Library.Outcome
import Mathlib.Data.Finset.Max
import Mathlib.Logic.Function.Iterate

/-!
# Circular lists in the order of their nodes

A set of places in a linear order, each of which leads to the next higher one, and the highest to
the lowest. Inserting a place where it belongs and taking one out keep the order. Following the
links leads from every place to every other one, and a place that is not in the list belongs
between two neighbours.
-/

namespace Ucore.Library

variable {Place : Type} [LinearOrder Place]

/-- On the way up from `left` to `right` lies `place`. A way that does not lead up goes round. -/
def Between (left place right : Place) : Prop :=
  (left < place ∧ place < right) ∨ (right ≤ left ∧ (left < place ∨ place < right))

instance (left place right : Place) : Decidable (Between left place right) :=
  inferInstanceAs (Decidable (_ ∨ _))

/-- Each node leads to the next one. -/
structure InOrder (nodes : Finset Place) (next : Place → Place) : Prop where
  mem : ∀ node ∈ nodes, next node ∈ nodes
  none : ∀ node ∈ nodes, ∀ other ∈ nodes, ¬Between node other (next node)

namespace InOrder

variable {nodes : Finset Place} {next next' : Place → Place} {left place node other : Place}

theorem congr (h : InOrder nodes next) (heq : ∀ node ∈ nodes, next' node = next node) :
    InOrder nodes next' where
  mem node hnode := by
    rw [heq node hnode]
    exact h.mem node hnode
  none node hnode := by
    rw [heq node hnode]
    exact h.none node hnode

theorem singleton (h : next node = node) : InOrder {node} next where
  mem other hother := by
    rw [Finset.mem_singleton.mp hother, h]
    exact Finset.mem_singleton_self node
  none other hother place hplace := by
    rw [Finset.mem_singleton.mp hother, Finset.mem_singleton.mp hplace, h, Between]
    simp

/-- Two nodes do not lead to the same one. -/
theorem injective (h : InOrder nodes next) (hnode : node ∈ nodes) (hother : other ∈ nodes)
    (heq : next node = next other) : node = other := by
  have hforth := h.none node hnode other hother
  have hback := h.none other hother node hnode
  unfold Between at hforth hback
  rw [heq] at hforth
  grind

theorem notMem_of_between (h : InOrder nodes next) (hleft : left ∈ nodes)
    (hplace : Between left place (next left)) : place ∉ nodes :=
  fun hmem ↦ h.none left hleft place hmem hplace

/-- A node that leads to itself is the only one. -/
theorem eq_of_next_self (h : InOrder nodes next) (hnode : node ∈ nodes) (hself : next node = node)
    (hother : other ∈ nodes) : other = node := by
  have hnone := h.none node hnode other hother
  rw [hself, Between] at hnone
  grind

/-- A place goes in behind the node that leads beyond it. -/
theorem insert (h : InOrder nodes next) (hleft : left ∈ nodes)
    (hplace : Between left place (next left)) :
    InOrder (insert place nodes) (Function.update (Function.update next place (next left)) left place) := by
  have hfresh := h.notMem_of_between hleft hplace
  have hne : left ≠ place := ne_of_mem_of_not_mem hleft hfresh
  have hnext : ∀ node ∈ nodes, node ≠ left →
      Function.update (Function.update next place (next left)) left place node = next node := by
    intro node hnode hother
    rw [Function.update_of_ne hother, Function.update_of_ne (ne_of_mem_of_not_mem hnode hfresh)]
  have hself : Function.update (Function.update next place (next left)) left place place = next left := by
    rw [Function.update_of_ne hne.symm, Function.update_self]
  constructor
  · intro node hnode
    rcases Finset.mem_insert.mp hnode with rfl | hnode
    · rw [hself]
      exact Finset.mem_insert_of_mem (h.mem left hleft)
    · by_cases hother : node = left
      · rw [hother, Function.update_self]
        exact Finset.mem_insert_self ..
      · rw [hnext node hnode hother]
        exact Finset.mem_insert_of_mem (h.mem node hnode)
  · intro node hnode other hother
    rcases Finset.mem_insert.mp hnode with rfl | hmem
    · rw [hself]
      rcases Finset.mem_insert.mp hother with rfl | hother
      · grind [Between]
      · have hnone := h.none left hleft other hother
        grind [Between]
    · by_cases hsame : node = left
      · rw [hsame, Function.update_self]
        rcases Finset.mem_insert.mp hother with rfl | hother
        · grind [Between]
        · have hnone := h.none left hleft other hother
          grind [Between]
      · rw [hnext node hmem hsame]
        rcases Finset.mem_insert.mp hother with rfl | hother
        · -- the two ways, from `left` and from `node`, have nothing in common
          have hforth := h.none left hleft node hmem
          have hback := h.none node hmem left hleft
          have hend := h.none node hmem (next left) (h.mem left hleft)
          have hstart := h.none left hleft (next node) (h.mem node hmem)
          grind [Between]
        · exact h.none node hmem other hother

/-- A node is taken out behind the one that leads to it. -/
theorem erase (h : InOrder nodes next) (hleft : left ∈ nodes) (hne : next left ≠ left) :
    InOrder (nodes.erase (next left)) (Function.update next left (next (next left))) := by
  have hmem := h.mem left hleft
  have hnext : ∀ node ∈ nodes, node ≠ left → next node ≠ next left :=
    fun node hnode hother heq ↦ hother (h.injective hnode hleft heq)
  have hself : next (next left) ≠ next left := by
    intro heq
    exact hne (h.eq_of_next_self hmem heq hleft).symm
  constructor
  · intro node hnode
    rcases Finset.mem_erase.mp hnode with ⟨-, hnode⟩
    by_cases hother : node = left
    · rw [hother, Function.update_self]
      exact Finset.mem_erase.mpr ⟨hself, h.mem _ hmem⟩
    · rw [Function.update_of_ne hother]
      exact Finset.mem_erase.mpr ⟨hnext node hnode hother, h.mem node hnode⟩
  · intro node hnode other hother
    rcases Finset.mem_erase.mp hnode with ⟨-, hnode⟩
    rcases Finset.mem_erase.mp hother with ⟨hout, hother⟩
    by_cases hsame : node = left
    · have hnone := h.none left hleft other hother
      have hnone' := h.none (next left) hmem other hother
      have hback := h.none (next left) hmem left hleft
      rw [hsame, Function.update_self]
      grind [Between]
    · rw [Function.update_of_ne hsame]
      exact h.none node hnode other hother

/-- There is one node that does not lead upwards. -/
theorem exists_wrap (h : InOrder nodes next) (hne : nodes.Nonempty) :
    ∃ wrap ∈ nodes, next wrap ≤ wrap ∧ ∀ node ∈ nodes, node ≠ wrap → node < next node := by
  refine ⟨nodes.max' hne, nodes.max'_mem hne, nodes.le_max' _ (h.mem _ (nodes.max'_mem hne)),
    fun node hnode hother ↦ ?_⟩
  by_contra hdown
  have hlt : node < nodes.max' hne := lt_of_le_of_ne (nodes.le_max' node hnode) hother
  exact h.none node hnode _ (nodes.max'_mem hne) (Or.inr ⟨not_lt.mp hdown, Or.inl hlt⟩)

/-! ## Following the links -/

/-- A place that is not in the list belongs behind one of the nodes. -/
theorem exists_between (h : InOrder nodes next) (hne : nodes.Nonempty) (hplace : place ∉ nodes) :
    ∃ left ∈ nodes, Between left place (next left) := by
  by_cases hlow : (nodes.filter (· < place)).Nonempty
  · -- the highest node below the place
    have hleft := Finset.max'_mem _ hlow
    rcases Finset.mem_filter.mp hleft with ⟨hmem, hlt⟩
    refine ⟨_, hmem, ?_⟩
    have hup : next ((nodes.filter (· < place)).max' hlow) < place →
        next ((nodes.filter (· < place)).max' hlow) ≤ (nodes.filter (· < place)).max' hlow :=
      fun hnext ↦ Finset.le_max' _ _ (Finset.mem_filter.mpr ⟨h.mem _ hmem, hnext⟩)
    have hout := ne_of_mem_of_not_mem (h.mem _ hmem) hplace
    generalize (nodes.filter (· < place)).max' hlow = left at *
    grind [Between]
  · -- the highest node of all
    have hmem := nodes.max'_mem hne
    refine ⟨_, hmem, ?_⟩
    have hle := nodes.le_max' _ (h.mem _ hmem)
    have hnone : ∀ node ∈ nodes, place < node := by
      intro node hnode
      by_contra hge
      exact hlow ⟨node, Finset.mem_filter.mpr ⟨hnode, lt_of_le_of_ne (not_lt.mp hge)
        (ne_of_mem_of_not_mem hnode hplace)⟩⟩
    have hlt := hnone _ (h.mem _ hmem)
    exact Or.inr ⟨hle, Or.inr hlt⟩

/-- A part of the list that the links do not leave is the whole list. -/
theorem eq_of_closed (h : InOrder nodes next) {part : Finset Place} (hpart : part ⊆ nodes)
    (hne : part.Nonempty) (hclosed : ∀ node ∈ part, next node ∈ part) : part = nodes := by
  have horder : InOrder part next :=
    ⟨hclosed, fun node hnode other hother ↦ h.none node (hpart hnode) other (hpart hother)⟩
  refine Finset.Subset.antisymm hpart fun node hnode ↦ ?_
  by_contra hout
  rcases horder.exists_between hne hout with ⟨left, hleft, hbetween⟩
  exact h.none left (hpart hleft) node hnode hbetween

theorem exists_iterate (h : InOrder nodes next) (hnode : node ∈ nodes) (hother : other ∈ nodes) :
    ∃ k, next^[k] node = other := by
  classical
  let part := nodes.filter fun place ↦ ∃ k, next^[k] node = place
  have hpart : part = nodes := by
    refine h.eq_of_closed (Finset.filter_subset _ _) ⟨node, ?_⟩ fun place hplace ↦ ?_
    · exact Finset.mem_filter.mpr ⟨hnode, 0, rfl⟩
    · rcases Finset.mem_filter.mp hplace with ⟨hmem, k, hk⟩
      refine Finset.mem_filter.mpr ⟨h.mem place hmem, k + 1, ?_⟩
      rw [Function.iterate_succ_apply', hk]
  rw [← hpart] at hother
  exact (Finset.mem_filter.mp hother).2

theorem iterate_mem (h : InOrder nodes next) (hnode : node ∈ nodes) (k : ℕ) :
    next^[k] node ∈ nodes := by
  induction k with
  | zero => exact hnode
  | succ k ih =>
    rw [Function.iterate_succ_apply']
    exact h.mem _ ih

/-- The links say which nodes there are. -/
theorem unique {nodes' : Finset Place} (h : InOrder nodes next) (h' : InOrder nodes' next)
    (hnode : node ∈ nodes) (hnode' : node ∈ nodes') : nodes = nodes' := by
  refine Finset.Subset.antisymm (fun other hother ↦ ?_) fun other hother ↦ ?_
  · rcases h.exists_iterate hnode hother with ⟨k, rfl⟩
    exact h'.iterate_mem hnode' k
  · rcases h'.exists_iterate hnode' hother with ⟨k, rfl⟩
    exact h.iterate_mem hnode k

/-- A walk comes to a first node with a property that some node has. -/
theorem exists_first (h : InOrder nodes next) (hnode : node ∈ nodes) {Stops : Place → Prop}
    (hstops : ∃ place ∈ nodes, Stops place) :
    ∃ k, Stops (next^[k] node) ∧ ∀ i < k, ¬Stops (next^[i] node) := by
  classical
  rcases hstops with ⟨place, hplace, hstop⟩
  rcases h.exists_iterate hnode hplace with ⟨k, hk⟩
  have hexists : ∃ k, Stops (next^[k] node) := ⟨k, hk ▸ hstop⟩
  exact ⟨Nat.find hexists, Nat.find_spec hexists, fun i ↦ Nat.find_min hexists⟩

/-- A walk that has come back to where it started has been everywhere. -/
theorem exists_of_round (h : InOrder nodes next) (hnode : node ∈ nodes) {k : ℕ}
    (hround : next^[k] (next node) = node) (hother : other ∈ nodes) :
    ∃ i ≤ k, next^[i] (next node) = other := by
  classical
  let part := nodes.filter fun place ↦ ∃ i ≤ k, next^[i] (next node) = place
  have hfirst := h.mem node hnode
  have hpart : part = nodes := by
    refine h.eq_of_closed (Finset.filter_subset _ _) ⟨next node, ?_⟩ fun place hplace ↦ ?_
    · exact Finset.mem_filter.mpr ⟨hfirst, 0, Nat.zero_le k, rfl⟩
    · rcases Finset.mem_filter.mp hplace with ⟨hmem, i, hi, heq⟩
      refine Finset.mem_filter.mpr ⟨h.mem place hmem, ?_⟩
      by_cases hlast : i = k
      · -- the last step leads back to the first node
        rw [hlast, hround] at heq
        exact ⟨0, Nat.zero_le k, congrArg next heq⟩
      · refine ⟨i + 1, lt_of_le_of_ne hi hlast, ?_⟩
        rw [Function.iterate_succ_apply', heq]
  rw [← hpart] at hother
  exact (Finset.mem_filter.mp hother).2

end InOrder

end Ucore.Library

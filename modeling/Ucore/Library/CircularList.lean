import Ucore.Library.Outcome
import Mathlib.Data.List.Basic
import Mathlib.Data.List.Chain
import Mathlib.Logic.Function.Basic

/-!
# Intrusive circular doubly linked lists

The links of all nodes live in one memory. A list is named by its head node, which carries no
data, and its contents are the other nodes in the order of the `next` links. `Ring` says that a
memory holds such a list: every `prev` link mirrors the `next` link before it, and no node occurs
twice. Linking a node between two neighbours and unlinking a node keep a ring, and change
the links of the neighbours only. A loop that follows the `next` links from the head is the
recursion over the contents, as long as its body keeps the ring.
-/

namespace Ucore.Library

/-- The two links stored in a node. -/
structure Link (Node : Type) where
  prev : Node
  next : Node
  deriving DecidableEq, Repr

/-- The links of all nodes. -/
abbrev Links (Node : Type) := Node → Link Node

namespace Links

variable {Node : Type}

/-- Two nodes that are neighbours in both directions. -/
def Adjacent (links : Links Node) (left right : Node) : Prop :=
  (links left).next = right ∧ (links right).prev = left

/-- Links outside the first and the last node of a stretch do not matter to it. -/
theorem isChain_congr {links other : Links Node} {stretch : List Node}
    (hnext : ∀ node ∈ stretch.dropLast, (other node).next = (links node).next)
    (hprev : ∀ node ∈ stretch.tail, (other node).prev = (links node).prev)
    (h : stretch.IsChain (Adjacent links)) : stretch.IsChain (Adjacent other) := by
  induction stretch with
  | nil => exact List.IsChain.nil
  | cons first rest ih =>
    cases rest with
    | nil => exact List.IsChain.singleton first
    | cons second rest =>
      rw [List.isChain_cons_cons] at h ⊢
      refine ⟨⟨?_, ?_⟩, ih ?_ ?_ h.2⟩
      · rw [hnext first (by simp), h.1.1]
      · rw [hprev second (by simp), h.1.2]
      · exact fun node hnode ↦ hnext node (by simp [hnode])
      · exact fun node hnode ↦ hprev node (by simp [List.mem_of_mem_tail hnode])

/-- The links with the two directions exchanged. -/
def mirror (links : Links Node) : Links Node := fun node ↦ ⟨(links node).next, (links node).prev⟩

variable [DecidableEq Node]

def setPrev (links : Links Node) (node target : Node) : Links Node :=
  Function.update links node { links node with prev := target }

def setNext (links : Links Node) (node target : Node) : Links Node :=
  Function.update links node { links node with next := target }

@[simp]
theorem setPrev_prev (links : Links Node) (node target other : Node) :
    (setPrev links node target other).prev = if other = node then target else (links other).prev := by
  by_cases h : other = node <;> simp [setPrev, h]

@[simp]
theorem setPrev_next (links : Links Node) (node target other : Node) :
    (setPrev links node target other).next = (links other).next := by
  by_cases h : other = node <;> simp [setPrev, h]

@[simp]
theorem setNext_next (links : Links Node) (node target other : Node) :
    (setNext links node target other).next = if other = node then target else (links other).next := by
  by_cases h : other = node <;> simp [setNext, h]

@[simp]
theorem setNext_prev (links : Links Node) (node target other : Node) :
    (setNext links node target other).prev = (links other).prev := by
  by_cases h : other = node <;> simp [setNext, h]

/-- A node whose two links lead back to itself. -/
def selfLink (links : Links Node) (node : Node) : Links Node :=
  Function.update links node ⟨node, node⟩

@[simp]
theorem selfLink_self (links : Links Node) (node : Node) :
    selfLink links node node = ⟨node, node⟩ := Function.update_self ..

theorem selfLink_of_ne (links : Links Node) {node other : Node} (h : other ≠ node) :
    selfLink links node other = links other := Function.update_of_ne h ..

/-- The four stores that put `node` between `prev` and `next`, in the usual order. -/
def linkBetween (links : Links Node) (node prev next : Node) : Links Node :=
  setPrev (setNext (setNext (setPrev links next node) prev node) node next) node prev

/-- The two stores that make `prev` and `next` neighbours. -/
def joinAround (links : Links Node) (prev next : Node) : Links Node :=
  setPrev (setNext links prev next) next prev

@[simp]
theorem linkBetween_next (links : Links Node) (node prev next other : Node) :
    (linkBetween links node prev next other).next =
      if other = node then next else if other = prev then node else (links other).next := by
  simp [linkBetween]

@[simp]
theorem linkBetween_prev (links : Links Node) (node prev next other : Node) :
    (linkBetween links node prev next other).prev =
      if other = node then prev else if other = next then node else (links other).prev := by
  simp [linkBetween]

@[simp]
theorem joinAround_next (links : Links Node) (prev next other : Node) :
    (joinAround links prev next other).next = if other = prev then next else (links other).next := by
  simp [joinAround]

@[simp]
theorem joinAround_prev (links : Links Node) (prev next other : Node) :
    (joinAround links prev next other).prev = if other = next then prev else (links other).prev := by
  simp [joinAround]

/-- Linking in changes the new node and its neighbours only. -/
theorem linkBetween_of_ne (links : Links Node) {node prev next other : Node} (hnode : other ≠ node)
    (hprev : other ≠ prev) (hnext : other ≠ next) :
    linkBetween links node prev next other = links other := by
  simp [linkBetween, setPrev, setNext, hnode, hprev, hnext]

theorem joinAround_of_ne (links : Links Node) {prev next other : Node} (hprev : other ≠ prev)
    (hnext : other ≠ next) : joinAround links prev next other = links other := by
  simp [joinAround, setPrev, setNext, hprev, hnext]

end Links

open Links

/-- The memory holds the circular list of `nodes` under `head`. -/
structure Ring {Node : Type} (links : Links Node) (head : Node)
    (nodes : List Node) : Prop where
  nodup : (head :: nodes).Nodup
  chain : (head :: nodes ++ [head]).IsChain (Adjacent links)

namespace Ring

variable {Node : Type} {links other : Links Node} {head node : Node}
  {nodes left right : List Node}

/-- Following the `prev` links, the contents come in reverse. -/
theorem mirror (h : Ring links head nodes) : Ring links.mirror head nodes.reverse where
  nodup := by
    have hnodup := h.nodup
    rw [List.nodup_cons] at hnodup ⊢
    exact ⟨mt List.mem_reverse.mp hnodup.1, List.pairwise_reverse.mpr (hnodup.2.imp Ne.symm)⟩
  chain := by
    have hreverse : head :: nodes.reverse ++ [head] = (head :: nodes ++ [head]).reverse := by simp
    rw [hreverse, List.isChain_reverse]
    exact h.chain.imp fun left right hadjacent ↦ ⟨hadjacent.2, hadjacent.1⟩

/-- A ring seen from the gap between two stretches of its contents. -/
theorem split_iff : Ring links head (left ++ right) ↔ (head :: (left ++ right)).Nodup ∧
    (head :: left).IsChain (Adjacent links) ∧ (right ++ [head]).IsChain (Adjacent links) ∧
    Adjacent links (left.getLastD head) (right.headD head) := by
  have hlast : ∀ value ∈ (head :: left).getLast?, value = left.getLastD head := by
    simp [List.getLast?_cons, List.getLastD_eq_getLast?]
  have hfirst : ∀ value ∈ (right ++ [head]).head?, value = right.headD head := by
    cases right <;> simp
  have hchain : (head :: (left ++ right) ++ [head]).IsChain (Adjacent links) ↔
      (head :: left).IsChain (Adjacent links) ∧ (right ++ [head]).IsChain (Adjacent links) ∧
        Adjacent links (left.getLastD head) (right.headD head) := by
    rw [show head :: (left ++ right) ++ [head] = (head :: left) ++ (right ++ [head]) by simp,
      List.isChain_append]
    constructor
    · rintro ⟨hleft, hright, hgap⟩
      refine ⟨hleft, hright, hgap _ ?_ _ ?_⟩
      · simp [List.getLast?_cons, List.getLastD_eq_getLast?]
      · cases right <;> simp
    · rintro ⟨hleft, hright, hgap⟩
      refine ⟨hleft, hright, fun last hl first hf ↦ ?_⟩
      rw [hlast last hl, hfirst first hf]
      exact hgap
  exact ⟨fun h ↦ ⟨h.nodup, hchain.mp h.chain⟩, fun h ↦ ⟨h.1, hchain.mpr h.2⟩⟩

theorem of_split (hnodup : (head :: (left ++ right)).Nodup)
    (hleft : (head :: left).IsChain (Adjacent links))
    (hright : (right ++ [head]).IsChain (Adjacent links))
    (hgap : Adjacent links (left.getLastD head) (right.headD head)) :
    Ring links head (left ++ right) := split_iff.mpr ⟨hnodup, hleft, hright, hgap⟩

theorem head_notMem (h : Ring links head nodes) : head ∉ nodes := (List.nodup_cons.mp h.nodup).1

theorem nodes_nodup (h : Ring links head nodes) : nodes.Nodup := (List.nodup_cons.mp h.nodup).2

theorem perm_middle (head node : Node) (left right : List Node) :
    (head :: (left ++ node :: right)).Perm (node :: head :: (left ++ right)) :=
  @List.perm_middle _ node (head :: left) right

theorem node_notMem (h : Ring links head (left ++ node :: right)) :
    node ∉ head :: (left ++ right) :=
  (List.nodup_cons.mp ((perm_middle head node left right).nodup_iff.mp h.nodup)).1

/-- What is left of a list without repetitions when one of its elements is taken out. -/
theorem mem_remove_iff {value other : Node} (hnodup : (left ++ value :: right).Nodup) :
    other ∈ left ++ right ↔ other ∈ left ++ value :: right ∧ other ≠ value := by
  rw [List.perm_middle.nodup_iff, List.nodup_cons] at hnodup
  rw [List.perm_middle.mem_iff, List.mem_cons]
  constructor
  · exact fun hother ↦ ⟨Or.inr hother, fun heq ↦ hnodup.1 (heq ▸ hother)⟩
  · rintro ⟨heq | hother, hne⟩
    · exact absurd heq hne
    · exact hother

/-- The neighbours of a gap are the head or listed nodes, on their own side of the gap. -/
theorem getLastD_mem (left : List Node) (head : Node) : left.getLastD head ∈ head :: left := by
  rcases List.eq_nil_or_concat left with rfl | ⟨init, last, rfl⟩ <;> simp

theorem headD_mem (right : List Node) (head : Node) : right.headD head ∈ head :: right := by
  cases right <;> simp

/-- Following the links of a node that splits the contents. -/
theorem next_eq (h : Ring links head (left ++ node :: right)) :
    (links node).next = right.headD head := by
  rw [List.append_cons] at h
  simpa using (split_iff.mp h).2.2.2.1

theorem prev_eq (h : Ring links head (left ++ node :: right)) :
    (links node).prev = left.getLastD head := by
  simpa using (split_iff.mp h).2.2.2.2

theorem next_head (h : Ring links head nodes) : (links head).next = nodes.headD head := by
  have h : Ring links head ([] ++ nodes) := h
  simpa using (split_iff.mp h).2.2.2.1

theorem prev_head (h : Ring links head nodes) : (links head).prev = nodes.getLastD head := by
  rw [← List.append_nil nodes] at h
  simpa using (split_iff.mp h).2.2.2.2

/-- The head points to itself exactly when the list is empty. -/
theorem next_head_eq_self_iff (h : Ring links head nodes) : (links head).next = head ↔ nodes = [] := by
  rw [h.next_head]
  cases nodes with
  | nil => simp
  | cons first rest =>
    have hne := h.head_notMem
    simp only [List.mem_cons, not_or] at hne
    simpa using Ne.symm hne.1

/-- No listed node points to itself. -/
theorem next_ne_self (h : Ring links head nodes) (hnode : node ∈ nodes) : (links node).next ≠ node := by
  rcases List.append_of_mem hnode with ⟨left, right, rfl⟩
  rw [h.next_eq]
  have hnodup := h.nodup
  cases right with
  | nil =>
    intro heq
    simp only [List.headD_nil] at heq
    simp [heq] at hnodup
  | cons first rest =>
    intro heq
    simp only [List.headD_cons] at heq
    subst heq
    simp [List.nodup_append] at hnodup

theorem prev_ne_self (h : Ring links head nodes) (hnode : node ∈ nodes) :
    (links node).prev ≠ node := by
  rcases List.append_of_mem hnode with ⟨left, right, rfl⟩
  intro heq
  have hmem := getLastD_mem left head
  rw [← h.prev_eq, heq] at hmem
  refine h.node_notMem ?_
  simp only [List.mem_cons, List.mem_append] at hmem ⊢
  tauto

/-- Only the links of the head and of the contents matter. -/
theorem congr (h : Ring links head nodes)
    (heq : ∀ value ∈ head :: nodes, other value = links value) : Ring other head nodes where
  nodup := h.nodup
  chain := isChain_congr
    (fun value hvalue ↦ by
      rw [heq value]
      simpa [or_comm] using List.dropLast_subset _ hvalue)
    (fun value hvalue ↦ by
      rw [heq value]
      simpa [or_comm] using hvalue) h.chain

theorem selfLink [DecidableEq Node] (links : Links Node) (head : Node) : Ring (links.selfLink head) head [] where
  nodup := by simp
  chain := by simp [Adjacent]

theorem ne_getLastD {value : Node} (hnodup : (head :: left).Nodup)
    (hvalue : value ∈ (head :: left).dropLast) : value ≠ left.getLastD head := by
  rcases List.eq_nil_or_concat left with rfl | ⟨init, last, rfl⟩
  · simp at hvalue
  · rw [List.concat_eq_append] at *
    rintro rfl
    rw [← List.cons_append, List.dropLast_concat, List.getLastD_concat] at hvalue
    rw [← List.cons_append] at hnodup
    exact (List.nodup_append.mp hnodup).2.2 _ hvalue _ (List.mem_singleton.mpr rfl) rfl

theorem ne_headD {value : Node} (hnodup : (head :: right).Nodup)
    (hvalue : value ∈ (right ++ [head]).tail) : value ≠ right.headD head := by
  cases right with
  | nil => simp at hvalue
  | cons first rest =>
    rintro rfl
    simp_all [eq_comm]

/-- What a change of the links must leave alone to leave both sides of a gap alone. -/
theorem sides_congr (other : Links Node) (hnodup : (head :: (left ++ right)).Nodup)
    (hleft : (head :: left).IsChain (Adjacent links))
    (hright : (right ++ [head]).IsChain (Adjacent links))
    (hnext : ∀ value ∈ head :: (left ++ right), value ≠ left.getLastD head →
      (other value).next = (links value).next)
    (hprev : ∀ value ∈ head :: (left ++ right), value ≠ right.headD head →
      (other value).prev = (links value).prev) :
    (head :: left).IsChain (Adjacent other) ∧ (right ++ [head]).IsChain (Adjacent other) := by
  have hnodupLeft : (head :: left).Nodup := hnodup.sublist (by simp)
  have hnodupRight : (head :: right).Nodup := hnodup.sublist (by simp)
  have hdisjoint : ∀ value ∈ left, value ≠ right.headD head := by
    rintro value hvalue rfl
    have hmem := headD_mem right head
    simp only [List.nodup_cons, List.mem_append, List.nodup_append] at hnodup
    rcases List.mem_cons.mp hmem with heq | hmem
    · exact hnodup.1 (Or.inl (heq ▸ hvalue))
    · exact hnodup.2.2.2 _ hvalue _ hmem rfl
  have hdisjoint' : ∀ value ∈ right, value ≠ left.getLastD head := by
    rintro value hvalue rfl
    have hmem := getLastD_mem left head
    simp only [List.nodup_cons, List.mem_append, List.nodup_append] at hnodup
    rcases List.mem_cons.mp hmem with heq | hmem
    · exact hnodup.1 (Or.inr (heq ▸ hvalue))
    · exact hnodup.2.2.2 _ hmem _ hvalue rfl
  constructor
  · refine isChain_congr (fun value hvalue ↦ ?_) (fun value hvalue ↦ ?_) hleft
    · have hmem : value ∈ head :: left := List.dropLast_subset _ hvalue
      exact hnext value (by simp only [List.mem_cons, List.mem_append] at hmem ⊢; tauto)
        (ne_getLastD hnodupLeft hvalue)
    · exact hprev value (by simp_all) (hdisjoint value hvalue)
  · refine isChain_congr (fun value hvalue ↦ ?_) (fun value hvalue ↦ ?_) hright
    · rw [List.dropLast_concat] at hvalue
      exact hnext value (by simp_all) (hdisjoint' value hvalue)
    · have hmem : value ∈ right ++ [head] := List.mem_of_mem_tail hvalue
      refine hprev value (by simp only [List.mem_cons, List.mem_append] at hmem ⊢; tauto)
        (ne_headD hnodupRight hvalue)

/-- Linking a new node into a gap. -/
theorem linkBetween [DecidableEq Node] (h : Ring links head (left ++ right)) (hfresh : node ∉ head :: (left ++ right)) :
    Ring (links.linkBetween node (left.getLastD head) (right.headD head)) head
      (left ++ node :: right) := by
  have hne : ∀ value ∈ head :: (left ++ right), value ≠ node := fun value hvalue heq ↦
    hfresh (heq ▸ hvalue)
  have hprevNe : left.getLastD head ≠ node := by
    refine hne _ ?_
    have hmem := getLastD_mem left head
    simp only [List.mem_cons, List.mem_append] at hmem ⊢
    tauto
  have hnextNe : right.headD head ≠ node := by
    refine hne _ ?_
    have hmem := headD_mem right head
    simp only [List.mem_cons, List.mem_append] at hmem ⊢
    tauto
  rcases split_iff.mp h with ⟨hnodup, hleft, hright, -⟩
  rcases sides_congr (links.linkBetween node (left.getLastD head) (right.headD head)) hnodup
    hleft hright
    (fun value hvalue hlast ↦ by rw [linkBetween_next, if_neg (hne value hvalue), if_neg hlast])
    (fun value hvalue hfirst ↦ by rw [linkBetween_prev, if_neg (hne value hvalue), if_neg hfirst])
    with ⟨hleft, hright⟩
  have hnodup : (head :: (left ++ node :: right)).Nodup :=
    (perm_middle head node left right).nodup_iff.mpr (List.nodup_cons.mpr ⟨hfresh, h.nodup⟩)
  have hafter : Adjacent (links.linkBetween node (left.getLastD head) (right.headD head)) node
      (right.headD head) := by
    constructor
    · rw [linkBetween_next, if_pos rfl]
    · rw [linkBetween_prev, if_neg hnextNe, if_pos rfl]
  refine of_split hnodup hleft ?_ ?_
  · cases right <;> exact List.isChain_cons_cons.mpr ⟨hafter, hright⟩
  · simp only [List.headD_cons]
    constructor
    · rw [linkBetween_next, if_neg hprevNe, if_pos rfl]
    · rw [linkBetween_prev, if_pos rfl]

/-- Unlinking a listed node. -/
theorem joinAround [DecidableEq Node] (h : Ring links head (left ++ node :: right)) :
    Ring (links.joinAround (left.getLastD head) (right.headD head)) head (left ++ right) := by
  have hnodup : (head :: (left ++ right)).Nodup := h.nodup.sublist (by simp)
  rcases split_iff.mp h with ⟨-, hleft, -, -⟩
  have hafter : Ring links head ((left ++ [node]) ++ right) := by simpa using h
  rcases split_iff.mp hafter with ⟨-, -, hright, -⟩
  rcases sides_congr (links.joinAround (left.getLastD head) (right.headD head)) hnodup hleft hright
    (fun value _ hlast ↦ by rw [joinAround_next, if_neg hlast])
    (fun value _ hfirst ↦ by rw [joinAround_prev, if_neg hfirst]) with ⟨hleft, hright⟩
  refine of_split hnodup hleft hright ⟨?_, ?_⟩
  · rw [joinAround_next, if_pos rfl]
  · rw [joinAround_prev, if_pos rfl]

end Ring

/-! ## Passes over a list -/

section Walk

variable {Node State Value : Type}

/-- One pass over a list. The cursor moves along the `next` links until it is back at the head;
the body sees each node on the way, and goes on from a new state or leaves with a value. -/
def walk [DecidableEq Node] (linksOf : State → Links Node) (head : Node)
    (body : State → Node → Outcome (State ⊕ Value)) (finish : State → Outcome Value) :
    ℕ → State → Node → Outcome Value
  | 0, _, _ => .error .fuel
  | fuel + 1, state, cursor =>
    let node := (linksOf state cursor).next
    if node = head then finish state
    else do
      match ← body state node with
      | .inl state => walk linksOf head body finish fuel state node
      | .inr value => .ok value

theorem settles_walk [DecidableEq Node] (linksOf : State → Links Node) (head : Node)
    (body : State → Node → Outcome (State ⊕ Value)) (finish : State → Outcome Value)
    (state : State) (cursor : Node) :
    Settles fun fuel ↦ walk linksOf head body finish fuel state cursor := by
  intro fuel value h
  induction fuel generalizing state cursor with
  | zero => cases h
  | succ fuel ih =>
    beta_reduce at h ⊢
    rw [walk] at h ⊢
    by_cases hend : (linksOf state cursor).next = head
    · rw [if_pos hend] at h ⊢
      exact h
    · rw [if_neg hend] at h ⊢
      rcases Outcome.bind_eq_ok.mp h with ⟨result, hresult, h⟩
      refine Outcome.bind_eq_ok.mpr ⟨result, hresult, ?_⟩
      cases result with
      | inl next => exact ih next _ h
      | inr value => exact h

/-- The same pass over given contents. -/
def scan (body : State → Node → Outcome (State ⊕ Value)) (finish : State → Outcome Value) :
    List Node → State → Outcome Value
  | [], state => finish state
  | node :: rest, state => do
    match ← body state node with
    | .inl state => scan body finish rest state
    | .inr value => .ok value

/-- While the body keeps the ring, the pass is the scan of the contents. -/
theorem walk_eq_scan [DecidableEq Node] {linksOf : State → Links Node} {head : Node}
    {body : State → Node → Outcome (State ⊕ Value)} {finish : State → Outcome Value}
    {nodes : List Node} (Invariant : State → Prop)
    (hring : ∀ state, Invariant state → Ring (linksOf state) head nodes)
    (hbody : ∀ state node next, node ∈ nodes → Invariant state →
      body state node = .ok (.inl next) → Invariant next)
    {left right : List Node} (hnodes : nodes = left ++ right) {state : State}
    (hstate : Invariant state) {fuel : ℕ} (hfuel : right.length < fuel) :
    walk linksOf head body finish fuel state (left.getLastD head) = scan body finish right state := by
  -- induction on the contents still ahead of the cursor
  induction right generalizing left state fuel with
  | nil =>
    rcases fuel with _ | fuel
    · omega
    · have hnext := (Ring.split_iff.mp (hnodes ▸ hring state hstate)).2.2.2.1
      simp only [walk, scan, hnext, List.headD_nil, if_true]
  | cons node rest ih =>
    rcases fuel with _ | fuel
    · omega
    · have hsplit := hnodes ▸ hring state hstate
      have hnext := (Ring.split_iff.mp hsplit).2.2.2.1
      have hhead : node ≠ head := fun heq ↦ hsplit.head_notMem (by simp [heq])
      simp only [walk, scan, hnext, List.headD_cons, if_neg hhead]
      cases hresult : body state node with
      | error stop => rfl
      | ok result =>
        cases result with
        | inr value => rfl
        | inl next =>
          have hinvariant := hbody state node next (by simp [hnodes]) hstate hresult
          have hsplit : nodes = (left ++ [node]) ++ rest := by simp [hnodes]
          have hrest := ih hsplit hinvariant (by simpa using hfuel)
          simpa only [List.getLastD_concat, Outcome.ok_bind] using hrest

theorem returns_walk [DecidableEq Node] {linksOf : State → Links Node} {head : Node}
    {body : State → Node → Outcome (State ⊕ Value)} {finish : State → Outcome Value}
    {nodes : List Node} (Invariant : State → Prop)
    (hring : ∀ state, Invariant state → Ring (linksOf state) head nodes)
    (hbody : ∀ state node next, node ∈ nodes → Invariant state →
      body state node = .ok (.inl next) → Invariant next)
    {state : State} (hstate : Invariant state) {value : Value}
    (hscan : scan body finish nodes state = .ok value) :
    Returns (fun fuel ↦ walk linksOf head body finish fuel state head) value :=
  ⟨nodes.length + 1, fun fuel hfuel ↦ by
    have hsplit : nodes = [] ++ nodes := rfl
    rw [← hscan]
    exact walk_eq_scan Invariant hring hbody hsplit hstate hfuel⟩

end Walk

end Ucore.Library

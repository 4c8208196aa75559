import Ucore.Mm.BuddyFreeLists

/-!
# Allocation from the buddy system

What `buddy_alloc_pages` does in a state whose lists are in order: it takes the first block of the
lowest list that has one large enough, or finds that there are too few free pages, or runs into the
assertion of `buddy_split` when there are enough pages but no block of this size.
-/

namespace Ucore.BuddySystem

open Library
open DefaultPmm (Page PG_property)

variable {s s' : Buddy} {lists : ℕ → List ℕ} {live : List Allocation} {rest : List ℕ}
  {order page k n : ℕ}

/-- The state after the first block of a list is taken. -/
def takeState (s : Buddy) (page pn : ℕ) : Buddy :=
  let s := s.listDel (.pageLink page)
  let s := s.clearPageProperty page
  { s with nrFree := uint32 (uint64Sub s.nrFree pn) }

/-- The lists after an allocation from the list of order `k`. -/
def allocLists (lists : ℕ → List ℕ) (low k page : ℕ) (rest : List ℕ) (order : ℕ) : List ℕ :=
  if low ≤ order ∧ order < k then [page + 2 ^ order] else if order = k then rest else lists order

/-- What an allocation changes. -/
structure Taken (s s' : Buddy) (lists lists' : ℕ → List ℕ) (live : List Allocation)
    (use : Allocation) : Prop where
  holds : Holds s' lists' (use :: live)
  maxOrder : s'.maxOrder = s.maxOrder
  nrFree : s'.nrFree = uint32 (uint64Sub s.nrFree (2 ^ use.order))
  units : units lists' + 2 ^ use.order = units lists
  heads : Heads s lists → Heads s' lists'

theorem taken_takeState (h : Holds s lists live) (hlists : lists (Nat.clog 2 n) = page :: rest) :
    Taken s (takeState s page (2 ^ Nat.clog 2 n)) lists
      (Function.update lists (Nat.clog 2 n) rest) live ⟨page, n⟩ := by
  have hpage : page ∈ lists (Nat.clog 2 n) := hlists ▸ List.mem_cons_self
  have hsmall : Nat.clog 2 n < MAX_ORDER := (h.lt_max hpage).trans_lt h.small
  have hmem := h.unrepeated.mem_delFirst hlists
  have hproperty : ∀ other, ((takeState s page (2 ^ Nat.clog 2 n)).pages other).property =
      (s.pages other).property := by
    intro other
    simp [takeState]
  have hflag : ∀ other, ((takeState s page (2 ^ Nat.clog 2 n)).pages other).Property ↔
      other ≠ page ∧ (s.pages other).Property := by
    intro other
    simp [takeState]
  refine ⟨⟨h.small, h.links.delFirst hsmall hlists, fun order hlt ↦ ?_,
    fun order other hother ↦ ?_, fun order order' other other' hother hother' ↦ ?_,
    fun order other hother use huse ↦ ?_, List.pairwise_cons.mpr ⟨fun use huse ↦ ?_, h.apart⟩,
    fun use huse ↦ ?_⟩, rfl, rfl, ?_, fun hheads other ↦ ?_⟩
  · have hlt' : s.maxOrder < order := hlt
    have hle := h.lt_max hpage
    rw [Function.update_of_ne (by omega)]
    exact h.above order hlt
  · rw [hproperty]
    exact h.property order other ((hmem order other).mp hother).1
  · exact h.separate order order' other other' ((hmem _ _).mp hother).1 ((hmem _ _).mp hother').1
  · rcases (hmem order other).mp hother with ⟨hold, hne⟩
    rcases List.mem_cons.mp huse with rfl | huse
    · exact h.separate order _ other page hold hpage hne
    · exact h.used order other hold use huse
  · exact h.used _ page hpage use huse
  · rw [hproperty]
    rcases List.mem_cons.mp huse with rfl | huse
    · exact h.property _ page hpage
    · exact h.usedProperty use huse
  · have hunits := units_update lists hsmall rest
    rw [hlists, List.length_cons, Nat.add_mul] at hunits
    change units _ + 2 ^ Nat.clog 2 n = _
    omega
  · rw [hflag, hheads]
    constructor
    · rintro ⟨hne, order, hold⟩
      exact ⟨order, (hmem order other).mpr ⟨hold, hne⟩⟩
    · rintro ⟨order, hnew⟩
      rcases (hmem order other).mp hnew with ⟨hold, hne⟩
      exact ⟨hne, order, hold⟩

/-- Too few free pages. -/
theorem alloc_none (hn : 0 < n) (hfew : s.nrFree < n) :
    buddyAllocPages s n = .ok (none, s) := by
  rw [buddyAllocPages, Outcome.require_of_true hn, Outcome.ok_bind, if_pos hfew]
  rfl

theorem buddyAllocPages_eq (hn : 0 < n) (hfew : n ≤ s.nrFree) : buddyAllocPages s n =
    ((if listEmpty s.links (.freeArray (Nat.clog 2 n)) then buddySplit s (Nat.clog 2 n + 1)
      else .ok s) >>= fun s ↦
    match listNext s.links (.freeArray (Nat.clog 2 n)) with
    | .freeArray _ => .error .panic
    | .pageLink ret => .ok (some ret, takeState s ret (2 ^ Nat.clog 2 n))) := by
  rw [buddyAllocPages, Outcome.require_of_true hn, Outcome.ok_bind, if_neg (not_lt.mpr hfew)]
  dsimp only
  rw [log2_roundUpPowerOf2 hn, roundUpPowerOf2_eq hn]
  split <;> rfl

/-- The lowest list with a block gives one. -/
theorem alloc_some (h : Holds s lists live) (hn : 0 < n) (hfew : n ≤ s.nrFree)
    (hk : Nat.clog 2 n ≤ k) (hnone : ∀ order, Nat.clog 2 n ≤ order → order < k → lists order = [])
    (hlists : lists k = page :: rest) :
    ∃ s', buddyAllocPages s n = .ok (some page, s') ∧
      Taken s s' lists (allocLists lists (Nat.clog 2 n) k page rest) live ⟨page, n⟩ := by
  have hpage : page ∈ lists k := hlists ▸ List.mem_cons_self
  have hsmall : Nat.clog 2 n < MAX_ORDER := (hk.trans (h.lt_max hpage)).trans_lt h.small
  rw [buddyAllocPages_eq hn hfew]
  rcases eq_or_lt_of_le hk with rfl | hlt
  · have hempty : ¬listEmpty s.links (.freeArray (Nat.clog 2 n)) := by
      rw [h.links.empty_iff hsmall, hlists]
      exact List.cons_ne_nil _ _
    refine ⟨takeState s page (2 ^ Nat.clog 2 n), ?_, ?_⟩
    · rw [if_neg hempty, Outcome.ok_bind, h.links.next_eq hsmall hlists]
    · have hsame : allocLists lists (Nat.clog 2 n) (Nat.clog 2 n) page rest =
          Function.update lists (Nat.clog 2 n) rest := by
        funext order
        rw [allocLists, if_neg (by omega)]
        by_cases heq : order = Nat.clog 2 n
        · rw [if_pos heq, heq, Function.update_self]
        · rw [if_neg heq, Function.update_of_ne heq]
      rw [hsame]
      exact taken_takeState h hlists
  · rcases Nat.exists_eq_add_of_lt hlt with ⟨count, rfl⟩
    have hstop : Nat.clog 2 n + count + 1 = Nat.clog 2 n + 1 + count := by omega
    rw [hstop] at hlists hnone hlt ⊢
    have hnil : lists (Nat.clog 2 n) = [] := hnone _ le_rfl hlt
    have hempty : listEmpty s.links (.freeArray (Nat.clog 2 n)) :=
      (h.links.empty_iff hsmall).mpr hnil
    rcases buddySplit_spec h (fun order hlow ↦ hnone order hlow.le) hlists with ⟨s₁, heq, hcut⟩
    have hfirst : chainLists lists (Nat.clog 2 n) (Nat.clog 2 n + 1 + count) page rest
        (Nat.clog 2 n) = page :: [page + 2 ^ Nat.clog 2 n] := by
      rw [chainLists, if_pos rfl, hnil]
    have htaken := taken_takeState hcut.holds hfirst
    refine ⟨takeState s₁ page (2 ^ Nat.clog 2 n), ?_, ?_⟩
    · rw [if_pos hempty, heq, Outcome.ok_bind, hcut.holds.links.next_eq hsmall hfirst]
    · have hsame : allocLists lists (Nat.clog 2 n) (Nat.clog 2 n + 1 + count) page rest =
          Function.update (chainLists lists (Nat.clog 2 n) (Nat.clog 2 n + 1 + count) page rest)
            (Nat.clog 2 n) [page + 2 ^ Nat.clog 2 n] := by
        funext order
        rw [allocLists]
        rcases eq_or_ne order (Nat.clog 2 n) with rfl | hne
        · rw [Function.update_self, if_pos ⟨le_rfl, hlt⟩]
        · rw [Function.update_of_ne hne, chainLists, if_neg hne]
          have hiff : (Nat.clog 2 n ≤ order ∧ order < Nat.clog 2 n + 1 + count) ↔
              (Nat.clog 2 n < order ∧ order < Nat.clog 2 n + 1 + count) := by omega
          simp only [hiff]
      rw [hsame]
      exact ⟨htaken.holds, htaken.maxOrder.trans hcut.maxOrder, by rw [htaken.nrFree, hcut.nrFree],
        htaken.units.trans hcut.units, fun hheads ↦ htaken.heads (hcut.heads hheads)⟩

/-- Enough free pages, but no block of this size. -/
theorem alloc_panic (h : Holds s lists live) (hn : 0 < n) (hfew : n ≤ s.nrFree)
    (hlow : Nat.clog 2 n < MAX_ORDER)
    (hnone : ∀ order, Nat.clog 2 n ≤ order → lists order = []) :
    buddyAllocPages s n = .error .panic := by
  have hempty : listEmpty s.links (.freeArray (Nat.clog 2 n)) :=
    (h.links.empty_iff hlow).mpr (hnone _ le_rfl)
  rw [buddyAllocPages_eq hn hfew, if_pos hempty,
    buddySplit_panic h fun order hlt ↦ hnone order hlt.le]
  rfl

/-! ## The right answer -/

/-- What a call has to answer: `NULL` if no list of a large enough order has a block, and otherwise
the first block of the lowest one, with one block left in each list below it. -/
def AllocRight (s : Buddy) (lists : ℕ → List ℕ) (n : ℕ) : Prop :=
  ((∀ order, Nat.clog 2 n ≤ order → lists order = []) → buddyAllocPages s n = .ok (none, s)) ∧
  ((∃ order, Nat.clog 2 n ≤ order ∧ lists order ≠ []) → ∃ k page rest s',
    Nat.clog 2 n ≤ k ∧ (∀ order, Nat.clog 2 n ≤ order → order < k → lists order = []) ∧
    lists k = page :: rest ∧ buddyAllocPages s n = .ok (some page, s') ∧
    FreeLists s'.links (allocLists lists (Nat.clog 2 n) k page rest))

/-- The listed pages are free, and with the pages in use they are at most those of the one block
at the beginning. -/
structure Accounted (s : Buddy) (lists : ℕ → List ℕ) (live : List Allocation) : Prop where
  listed : units lists ≤ s.nrFree
  total : s.nrFree + Extent.total (live.map Allocation.extent) = 2 ^ s.maxOrder

theorem allocRight_iff (h : Holds s lists live) (haccounted : Accounted s lists live)
    (hn : 0 < n) : AllocRight s lists n ↔
      s.nrFree < n ∨ ∃ order, Nat.clog 2 n ≤ order ∧ lists order ≠ [] := by
  -- a block that is large enough has no more pages than are free
  have hfits : ∀ order, Nat.clog 2 n ≤ order → lists order ≠ [] → n ≤ s.nrFree := by
    intro order hle hne
    rcases List.exists_cons_of_ne_nil hne with ⟨page, rest, hlists⟩
    have hpage : page ∈ lists order := hlists ▸ List.mem_cons_self
    have hunits := le_units ((h.lt_max hpage).trans_lt h.small) hlists
    rw [List.length_cons, Nat.add_mul, Nat.one_mul] at hunits
    have hpow : n ≤ 2 ^ order := (Nat.clog_le_iff_le_pow (by decide)).mp hle
    exact hpow.trans ((Nat.le_add_left _ _).trans (hunits.trans haccounted.listed))
  by_cases hsome : ∃ order, Nat.clog 2 n ≤ order ∧ lists order ≠ []
  · refine iff_of_true ⟨fun hnone ↦ ?_, fun _ ↦ ?_⟩ (Or.inr hsome)
    · rcases hsome with ⟨order, hle, hne⟩
      exact absurd (hnone order hle) hne
    · rcases Nat.find_spec hsome with ⟨hle, hne⟩
      have hbelow : ∀ order, Nat.clog 2 n ≤ order → order < Nat.find hsome → lists order = [] := by
        intro order hlow hlt
        by_contra hne
        exact Nat.find_min hsome hlt ⟨hlow, hne⟩
      rcases List.exists_cons_of_ne_nil hne with ⟨page, rest, hlists⟩
      rcases alloc_some h hn (hfits _ hle hne) hle hbelow hlists with ⟨s', heq, htaken⟩
      exact ⟨_, page, rest, s', hle, hbelow, hlists, heq, htaken.holds.links⟩
  · have hnone : ∀ order, Nat.clog 2 n ≤ order → lists order = [] := by
      intro order hle
      by_contra hne
      exact hsome ⟨order, hle, hne⟩
    rw [or_iff_left hsome]
    constructor
    · intro hright
      by_contra hfew
      have hle : n ≤ 2 ^ s.maxOrder := (not_lt.mp hfew).trans
        (haccounted.total ▸ Nat.le_add_right _ _)
      have hlow : Nat.clog 2 n < MAX_ORDER := (Nat.clog_le_of_le_pow hle).trans_lt h.small
      have hpanic := alloc_panic h hn (not_lt.mp hfew) hlow hnone
      have hnull := hright.1 hnone
      rw [hpanic] at hnull
      cases hnull
    · exact fun hfew ↦ ⟨fun _ ↦ alloc_none hn hfew, fun hex ↦ absurd hex hsome⟩

/-- An allocation that returns. -/
theorem alloc_cases (h : Holds s lists live) (haccounted : Accounted s lists live) {ret : Option ℕ}
    (hcall : buddyAllocPages s n = .ok (ret, s')) :
    (ret = none ∧ s' = s) ∨ ∃ k page rest, ret = some page ∧ Nat.clog 2 n ≤ k ∧
      lists k = page :: rest ∧
      Taken s s' lists (allocLists lists (Nat.clog 2 n) k page rest) live ⟨page, n⟩ := by
  have hn : 0 < n := by
    rcases Outcome.bind_eq_ok.mp hcall with ⟨_, hrequire, -⟩
    exact Outcome.require_eq_ok.mp hrequire
  by_cases hfew : s.nrFree < n
  · rw [alloc_none hn hfew] at hcall
    cases hcall
    exact Or.inl ⟨rfl, rfl⟩
  by_cases hsome : ∃ order, Nat.clog 2 n ≤ order ∧ lists order ≠ []
  · rcases Nat.find_spec hsome with ⟨hle, hne⟩
    have hbelow : ∀ order, Nat.clog 2 n ≤ order → order < Nat.find hsome → lists order = [] := by
      intro order hlow hlt
      by_contra hne
      exact Nat.find_min hsome hlt ⟨hlow, hne⟩
    rcases List.exists_cons_of_ne_nil hne with ⟨page, rest, hlists⟩
    rcases alloc_some h hn (not_lt.mp hfew) hle hbelow hlists with ⟨s₁, heq, htaken⟩
    rw [heq] at hcall
    cases hcall
    exact Or.inr ⟨_, page, rest, rfl, hle, hlists, htaken⟩
  · have hle : n ≤ 2 ^ s.maxOrder := (not_lt.mp hfew).trans
      (haccounted.total ▸ Nat.le_add_right _ _)
    have hlow : Nat.clog 2 n < MAX_ORDER := (Nat.clog_le_of_le_pow hle).trans_lt h.small
    have hpanic := alloc_panic h hn (not_lt.mp hfew) hlow fun order hle ↦ by
      by_contra hne
      exact hsome ⟨order, hle, hne⟩
    rw [hpanic] at hcall
    cases hcall

theorem uint32_uint64Sub {nrFree pn : ℕ} (hle : pn ≤ nrFree) (hlt : nrFree < 2 ^ 32) :
    uint32 (uint64Sub nrFree pn) = nrFree - pn := by
  rw [uint64Sub, uint64, uint32]
  omega

theorem Accounted.alloc {lists' : ℕ → List ℕ} {use : Allocation}
    (haccounted : Accounted s lists live) (hsmall : s.maxOrder < MAX_ORDER)
    (htaken : Taken s s' lists lists' live use) : Accounted s' lists' (use :: live) := by
  have hunits := htaken.units
  have hlisted := haccounted.listed
  have htotal := haccounted.total
  have hbound : 2 ^ s.maxOrder < 2 ^ MAX_ORDER := Nat.pow_lt_pow_right (by decide) hsmall
  have hmax : 2 ^ MAX_ORDER = 1048576 := rfl
  have hnrFree : s'.nrFree = s.nrFree - 2 ^ use.order := by
    rw [htaken.nrFree, uint32_uint64Sub (by omega) (by omega)]
  have hextent : use.extent.length = 2 ^ use.order := rfl
  refine ⟨by omega, ?_⟩
  rw [List.map_cons, Extent.total_cons, htaken.maxOrder, hextent, hnrFree]
  omega

end Ucore.BuddySystem

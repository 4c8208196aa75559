import Ucore.Fs.SfsLifetime

/-!
# Runs of loads and reclaims

Each step keeps the counters of an inode equal to what the processes hold and wait for. From this it
follows that no assertion fails, and that an inode is freed once its last reference is gone.
-/

namespace Ucore.Fs

open Library

theorem int32_of_lt {value : ℤ} (hnonneg : 0 ≤ value) (hlt : value ≤ INT_MAX) :
    int32 value = value := by
  unfold int32
  unfold INT_MAX at hlt
  omega

/-! ## The table -/

section Table

variable {t : InodeTable} {n m ino : ℕ} {node other : Node}

theorem InodeTable.node_eq (h : t.nodes n = some node) : t.node n = .ok node := by
  rw [InodeTable.node, h]

@[simp]
theorem InodeTable.set_nodes_self (t : InodeTable) (n : ℕ) (node : Node) :
    (t.set n node).nodes n = some node := Function.update_self ..

theorem InodeTable.set_nodes_of_ne (t : InodeTable) (h : m ≠ n) (node : Node) :
    (t.set n node).nodes m = t.nodes m := Function.update_of_ne h ..

@[simp]
theorem InodeTable.set_set (t : InodeTable) (n : ℕ) (node other : Node) :
    (t.set n node).set n other = t.set n other := by
  simp only [InodeTable.set, Function.update_idem]

/-- One inode in memory for each number, in the hash list of its number, and nothing in memory that
was freed. -/
structure InodeTable.Consistent (t : InodeTable) : Prop where
  node_iff : ∀ n, (t.nodes n).isSome ↔ n < t.next ∧ t.freed n = 0
  freed_le : ∀ n, t.freed n ≤ 1
  fresh : ∀ n, t.next ≤ n → t.freed n = 0
  linked : ∀ slot n, n ∈ t.hashList slot ↔ ∃ node, t.nodes n = some node ∧ sinHashfn node.ino = slot
  nodup : ∀ slot, (t.hashList slot).Nodup
  unique : ∀ n m node other, t.nodes n = some node → t.nodes m = some other →
    node.ino = other.ino → n = m

theorem InodeTable.Consistent.set (h : t.Consistent) (hnode : t.nodes n = some node)
    (hino : other.ino = node.ino) : (t.set n other).Consistent := by
  -- the number of an inode does not change, and this is all that the table depends on
  have hiff : ∀ m new, (t.set n other).nodes m = some new →
      ∃ old, t.nodes m = some old ∧ new.ino = old.ino := by
    intro m new hnew
    by_cases hm : m = n
    · subst hm
      rw [set_nodes_self] at hnew
      cases hnew
      exact ⟨node, hnode, hino⟩
    · rw [set_nodes_of_ne t hm] at hnew
      exact ⟨new, hnew, rfl⟩
  have hsome : ∀ m, ((t.set n other).nodes m).isSome = (t.nodes m).isSome := by
    intro m
    by_cases hm : m = n
    · subst hm
      rw [set_nodes_self, hnode]
      rfl
    · rw [set_nodes_of_ne t hm]
  constructor
  · intro m
    rw [hsome]
    exact h.node_iff m
  · exact h.freed_le
  · exact h.fresh
  · intro slot m
    refine (h.linked slot m).trans ⟨?_, ?_⟩
    · rintro ⟨old, hold, hslot⟩
      rcases Option.isSome_iff_exists.mp ((hsome m).trans (hold ▸ rfl)) with ⟨new, hnew⟩
      rcases hiff m new hnew with ⟨same, hsame, heq⟩
      cases hold.symm.trans hsame
      exact ⟨new, hnew, heq ▸ hslot⟩
    · rintro ⟨new, hnew, hslot⟩
      rcases hiff m new hnew with ⟨old, hold, heq⟩
      exact ⟨old, hold, heq ▸ hslot⟩
  · exact h.nodup
  · intro m k new twin hnew htwin heq
    rcases hiff m new hnew with ⟨old, hold, hsame⟩
    rcases hiff k twin htwin with ⟨brother, hbrother, hboth⟩
    exact h.unique m k old brother hold hbrother (hsame ▸ hboth ▸ heq)

theorem InodeTable.Consistent.setSfs (h : t.Consistent) (sfs : SfsFs) :
    InodeTable.Consistent { t with sfs } := { h with }

/-! ### Lookups -/

/-- An inode after `lookup_sfs_nolock` has found it. -/
def Node.taken (node : Node) : Node :=
  let refCount := int32 (node.refCount + 1)
  { node with
    refCount
    reclaimCount := if refCount = 1 then int32 (node.reclaimCount + 1) else node.reclaimCount }

theorem lookupTake_eq (h : t.nodes n = some node) : lookupTake t n = .ok (t.set n node.taken) := by
  rw [lookupTake, inodeRefInc, InodeTable.node_eq h]
  simp only [Outcome.ok_bind, Outcome.pure_eq_ok, Node.taken]
  split
  · rw [InodeTable.node_eq (InodeTable.set_nodes_self ..)]
    simp only [Outcome.ok_bind, InodeTable.set_set]
  · rfl

theorem lookupFrom_found (hnode : t.nodes n = some node) {list : List ℕ} (hmem : n ∈ list)
    (hlinked : ∀ m ∈ list, ∃ other, t.nodes m = some other ∧ (other.ino = node.ino → m = n)) :
    lookupFrom t node.ino list = .ok (some n, t.set n node.taken) := by
  induction list with
  | nil => cases hmem
  | cons m rest ih =>
    rcases hlinked m (List.mem_cons_self ..) with ⟨other, hother, hunique⟩
    rw [lookupFrom, InodeTable.node_eq hother, Outcome.ok_bind]
    by_cases hino : other.ino = node.ino
    · have heq := hunique hino
      subst heq
      cases hother.symm.trans hnode
      rw [if_pos rfl, lookupTake_eq hnode]
      rfl
    · rw [if_neg hino]
      apply ih
      · apply (List.mem_cons.mp hmem).resolve_left
        intro heq
        subst heq
        cases hother.symm.trans hnode
        exact hino rfl
      · intro k hk
        exact hlinked k (List.mem_cons_of_mem _ hk)

theorem lookupFrom_missing {list : List ℕ}
    (hlinked : ∀ m ∈ list, ∃ other, t.nodes m = some other ∧ other.ino ≠ ino) :
    lookupFrom t ino list = .ok (none, t) := by
  induction list with
  | nil => rfl
  | cons m rest ih =>
    rcases hlinked m (List.mem_cons_self ..) with ⟨other, hother, hne⟩
    rw [lookupFrom, InodeTable.node_eq hother, Outcome.ok_bind, if_neg hne]
    apply ih
    intro k hk
    exact hlinked k (List.mem_cons_of_mem _ hk)

theorem loadStart_found (h : t.Consistent) (hnode : t.nodes n = some node) (memory : Bool) :
    loadStart t memory node.ino = .ok (some (.ok n), t.set n node.taken) := by
  have hlookup : lookupSfsNolock t node.ino = .ok (some n, t.set n node.taken) := by
    apply lookupFrom_found hnode ((h.linked _ n).mpr ⟨node, hnode, rfl⟩)
    intro m hm
    rcases (h.linked _ m).mp hm with ⟨other, hother, -⟩
    exact ⟨other, hother, h.unique m n other node hother hnode⟩
  rw [loadStart, hlookup]
  rfl

theorem loadStart_missing (h : t.Consistent) (hno : ∀ n node, t.nodes n = some node → node.ino ≠ ino)
    (hinuse : sfsBlockInuse t.sfs ino = .ok true) (memory : Bool) :
    loadStart t memory ino = .ok (if memory then none else some (.error .noMem), t) := by
  have hlookup : lookupSfsNolock t ino = .ok (none, t) := by
    apply lookupFrom_missing
    intro m hm
    rcases (h.linked _ m).mp hm with ⟨other, hother, -⟩
    exact ⟨other, hother, hno m other hother⟩
  rw [loadStart, hlookup]
  cases memory with
  | false => rfl
  | true =>
    simp only [Outcome.ok_bind, hinuse, if_true]
    rfl

/-! ### New inodes and freed ones -/

theorem sfsSetLinks_eq (hnode : t.nodes n = some node) :
    sfsSetLinks t n = .ok { t with
      inodeList := n :: t.inodeList
      hashList := Function.update t.hashList (sinHashfn node.ino)
        (n :: t.hashList (sinHashfn node.ino)) } := by
  rw [sfsSetLinks, InodeTable.node_eq hnode]
  rfl

theorem sfsRemoveLinks_eq (hnode : t.nodes n = some node) :
    sfsRemoveLinks t n = .ok { t with
      inodeList := t.inodeList.erase n
      hashList := Function.update t.hashList (sinHashfn node.ino)
        ((t.hashList (sinHashfn node.ino)).erase n) } := by
  rw [sfsRemoveLinks, InodeTable.node_eq hnode]
  rfl

theorem inodeKill_eq (hnode : t.nodes n = some node) (href : node.refCount = 0)
    (hopen : node.openCount = 0) :
    inodeKill t n = .ok { t with
      nodes := Function.update t.nodes n none
      freed := Function.update t.freed n (t.freed n + 1) } := by
  rw [inodeKill, InodeTable.node_eq hnode, Outcome.ok_bind, Outcome.require_of_true href,
    Outcome.ok_bind, Outcome.require_of_true hopen]
  rfl

/-- A table with a new inode, linked. -/
def InodeTable.enter (t : InodeTable) (node : Node) : InodeTable :=
  { t with
    nodes := Function.update t.nodes t.next (some node)
    next := t.next + 1
    inodeList := t.next :: t.inodeList
    hashList := Function.update t.hashList (sinHashfn node.ino)
      (t.next :: t.hashList (sinHashfn node.ino)) }

theorem loadRead_eq {din : Bytes} (hread : sfsRbuf t.sfs 64 ino 0 = .ok (.ok din))
    (hvalid : ValidInode din) (memory : Bool) :
    loadRead t memory ino = .ok (if memory then (.ok t.next, t.enter ⟨ino, din, false, 1, 1, 0⟩)
      else (.error .noMem, t)) := by
  rw [loadRead, hread]
  dsimp only [Outcome.ok_bind]
  rw [Outcome.require_of_true hvalid.1, Outcome.ok_bind]
  cases memory with
  | false => rfl
  | true =>
    rw [sfsCreateInode, if_pos rfl, Outcome.require_of_true hvalid.2]
    let node : Node := ⟨ino, din, false, 1, 1, 0⟩
    have hnode : InodeTable.nodes { t.set t.next node with next := t.next + 1 } t.next = some node :=
      InodeTable.set_nodes_self ..
    exact Outcome.bind_eq_ok.mpr ⟨(.ok t.next, { t.set t.next node with next := t.next + 1 }), rfl,
      Outcome.bind_eq_ok.mpr ⟨_, sfsSetLinks_eq hnode, rfl⟩⟩

theorem InodeTable.Consistent.none_of_le (h : t.Consistent) (hle : t.next ≤ n) : t.nodes n = none := by
  apply Option.not_isSome_iff_eq_none.mp
  intro hsome
  exact absurd ((h.node_iff n).mp hsome).1 hle.not_gt

theorem InodeTable.Consistent.enter (h : t.Consistent)
    (hno : ∀ n other, t.nodes n = some other → other.ino ≠ node.ino) : (t.enter node).Consistent := by
  have hnone : t.nodes t.next = none := h.none_of_le le_rfl
  have hself : (t.enter node).nodes t.next = some node := Function.update_self ..
  have hne : ∀ m, m ≠ t.next → (t.enter node).nodes m = t.nodes m :=
    fun m hm ↦ Function.update_of_ne hm ..
  constructor
  · intro m
    by_cases hm : m = t.next
    · subst hm
      rw [hself]
      exact iff_of_true rfl ⟨Nat.lt_succ_self _, h.fresh _ le_rfl⟩
    · rw [hne m hm, h.node_iff m]
      change m < t.next ∧ t.freed m = 0 ↔ m < t.next + 1 ∧ t.freed m = 0
      rw [Nat.lt_succ_iff_lt_or_eq, or_iff_left hm]
  · exact h.freed_le
  · exact fun m hm ↦ h.fresh m (Nat.le_of_succ_le hm)
  · intro slot m
    have hold : m ∈ t.hashList slot → m ≠ t.next := by
      rintro hmem rfl
      rcases (h.linked slot _).mp hmem with ⟨other, hother, -⟩
      cases hother.symm.trans hnone
    by_cases hm : m = t.next
    · subst hm
      rw [hself]
      by_cases hslot : slot = sinHashfn node.ino
      · subst hslot
        simp [InodeTable.enter]
      · have hmem : t.next ∉ t.hashList slot := fun hmem ↦ hold hmem rfl
        simp [InodeTable.enter, Function.update_of_ne hslot, hmem, Ne.symm hslot]
    · rw [hne m hm, ← h.linked slot m]
      by_cases hslot : slot = sinHashfn node.ino
      · subst hslot
        simp [InodeTable.enter, hm]
      · simp [InodeTable.enter, Function.update_of_ne hslot]
  · intro slot
    by_cases hslot : slot = sinHashfn node.ino
    · subst hslot
      have hmem : t.next ∉ t.hashList (sinHashfn node.ino) := by
        intro hmem
        rcases (h.linked _ _).mp hmem with ⟨other, hother, -⟩
        cases hother.symm.trans hnone
      simpa [InodeTable.enter] using ⟨hmem, h.nodup _⟩
    · simpa [InodeTable.enter, Function.update_of_ne hslot] using h.nodup slot
  · intro m k new twin hnew htwin heq
    by_cases hm : m = t.next
    · by_cases hk : k = t.next
      · exact hm.trans hk.symm
      · subst hm
        cases hself.symm.trans hnew
        rw [hne k hk] at htwin
        exact absurd heq.symm (hno k twin htwin)
    · rw [hne m hm] at hnew
      by_cases hk : k = t.next
      · subst hk
        cases hself.symm.trans htwin
        exact absurd heq (hno m new hnew)
      · rw [hne k hk] at htwin
        exact h.unique m k new twin hnew htwin heq

/-- A table without an inode, which was freed. -/
def InodeTable.leave (t : InodeTable) (n ino : ℕ) : InodeTable :=
  { t with
    nodes := Function.update t.nodes n none
    freed := Function.update t.freed n (t.freed n + 1)
    inodeList := t.inodeList.erase n
    hashList := Function.update t.hashList (sinHashfn ino) ((t.hashList (sinHashfn ino)).erase n) }

theorem reclaimFinish_eq (hnode : t.nodes n = some node) (hlinks : diskNlinks node.din ≠ 0)
    (href : node.refCount = 0) (hopen : node.openCount = 0) :
    reclaimFinish t n = .ok (.done (.ok ()), t.leave n node.ino) := by
  rw [reclaimFinish, InodeTable.node_eq hnode, Outcome.ok_bind, sfsRemoveLinks_eq hnode,
    Outcome.ok_bind, if_neg hlinks]
  exact Outcome.bind_eq_ok.mpr ⟨_, inodeKill_eq hnode href hopen, rfl⟩

theorem InodeTable.Consistent.leave (h : t.Consistent) (hnode : t.nodes n = some node) :
    (t.leave n node.ino).Consistent := by
  have hself : (t.leave n node.ino).nodes n = none := Function.update_self ..
  have hne : ∀ m, m ≠ n → (t.leave n node.ino).nodes m = t.nodes m :=
    fun m hm ↦ Function.update_of_ne hm ..
  have hfreed : ∀ m, m ≠ n → (t.leave n node.ino).freed m = t.freed m :=
    fun m hm ↦ Function.update_of_ne hm ..
  have hdone : (t.leave n node.ino).freed n = t.freed n + 1 := Function.update_self ..
  have hlive := (h.node_iff n).mp (hnode ▸ rfl)
  constructor
  · intro m
    by_cases hm : m = n
    · subst hm
      rw [hself, hdone]
      simp
    · rw [hne m hm, hfreed m hm]
      exact h.node_iff m
  · intro m
    by_cases hm : m = n
    · subst hm
      rw [hdone, hlive.2]
    · rw [hfreed m hm]
      exact h.freed_le m
  · intro m hm
    have hlt : n < m := lt_of_lt_of_le hlive.1 hm
    rw [hfreed m hlt.ne']
    exact h.fresh m hm
  · intro slot m
    by_cases hm : m = n
    · subst hm
      rw [hself]
      by_cases hslot : slot = sinHashfn node.ino
      · subst hslot
        simp [InodeTable.leave, (h.nodup _).mem_erase_iff]
      · have hmem : m ∉ t.hashList slot := by
          intro hmem
          rcases (h.linked slot m).mp hmem with ⟨same, hsame, heq⟩
          cases hnode.symm.trans hsame
          exact hslot heq.symm
        simp [InodeTable.leave, Function.update_of_ne hslot, hmem]
    · rw [hne m hm, ← h.linked slot m]
      by_cases hslot : slot = sinHashfn node.ino
      · subst hslot
        simp [InodeTable.leave, List.mem_erase_of_ne hm]
      · simp [InodeTable.leave, Function.update_of_ne hslot]
  · intro slot
    by_cases hslot : slot = sinHashfn node.ino
    · subst hslot
      simpa [InodeTable.leave] using (h.nodup _).erase n
    · simpa [InodeTable.leave, Function.update_of_ne hslot] using h.nodup slot
  · intro m k new twin hnew htwin heq
    have hm : m ≠ n := by
      rintro rfl
      cases hself.symm.trans hnew
    have hk : k ≠ n := by
      rintro rfl
      cases hself.symm.trans htwin
    rw [hne m hm] at hnew
    rw [hne k hk] at htwin
    exact h.unique m k new twin hnew htwin heq

end Table

/-! ## What every step keeps -/

section Accounting

variable {Pid : Type} {inos : List ℕ} {w next : Holding Pid} {n : ℕ} {node new : Node}

/-- The counters of an inode in memory, and why it is still there. -/
structure Tended (inos : List ℕ) (w : Holding Pid) (n : ℕ) (node : Node) : Prop where
  ino_mem : node.ino ∈ inos
  valid : ValidInode node.din
  refCount : node.refCount = w.held n
  refCount_le : node.refCount ≤ INT_MAX
  openCount : node.openCount = w.opened n
  reclaimCount : node.reclaimCount = w.pending n + if 0 < node.refCount then 1 else 0
  alive : 0 < w.held n ∨ 0 < w.pending n ∨ w.Freeing n

/-- What the holder of the lock relies on while it waits for the device. -/
def StageKept (inos : List ℕ) (t : InodeTable) : Stage → Prop
  | .read ino => ino ∈ inos ∧ ∀ n node, t.nodes n = some node → node.ino ≠ ino
  | .truncate _ => False
  | .sync n => ∃ node, t.nodes n = some node ∧ node.refCount = 0 ∧ node.reclaimCount = 0

structure Accounted (inos : List ℕ) (w : Holding Pid) : Prop where
  stored : Stored inos w.table.sfs
  consistent : w.table.Consistent
  opens_le : w.opens ≤ w.refs
  tended : ∀ n node, w.table.nodes n = some node → Tended inos w n node
  live : ∀ n, 0 < w.held n ∨ 0 < w.pending n → ∃ node, w.table.nodes n = some node
  loads : ∀ p ino, (p, Call.load ino) ∈ w.waiting → ino ∈ inos
  inside : ∀ p stage, w.inside = some (p, stage) → StageKept inos w.table stage

/-- Nothing that concerns an inode has changed. -/
structure SameFor (m : ℕ) (w next : Holding Pid) : Prop where
  held : next.held m = w.held m
  opened : next.opened m = w.opened m
  pending : next.pending m = w.pending m
  freeing : w.Freeing m → next.Freeing m

theorem Tended.same (h : Tended inos w n node) (hsame : SameFor n w next) :
    Tended inos next n node := by
  refine ⟨h.ino_mem, h.valid, ?_, h.refCount_le, ?_, ?_, ?_⟩
  · rw [hsame.held]
    exact h.refCount
  · rw [hsame.opened]
    exact h.openCount
  · rw [hsame.pending]
    exact h.reclaimCount
  · rw [hsame.held, hsame.pending]
    exact h.alive.imp_right (Or.imp_right hsame.freeing)

theorem Tended.openCount_le (h : Tended inos w n node) (hopens : w.opens ≤ w.refs) :
    0 ≤ node.openCount ∧ node.openCount ≤ node.refCount := by
  have hle := tally_mono hopens n
  rw [h.openCount, h.refCount]
  exact ⟨Int.natCast_nonneg _, Int.ofNat_le.mpr hle⟩

theorem Accounted.openCount_eq (h : Accounted inos w) (hnode : w.table.nodes n = some node)
    (href : node.refCount = 0) : node.openCount = 0 := by
  rcases (h.tended n node hnode).openCount_le h.opens_le with ⟨hnonneg, hle⟩
  exact le_antisymm (hle.trans href.le) hnonneg

/-- A reference keeps an inode from being freed. -/
theorem Accounted.not_sync (h : Accounted inos w) (hheld : 0 < w.held n) {p : Pid} {stage : Stage}
    (hinside : w.inside = some (p, stage)) : stage ≠ .sync n := by
  rintro rfl
  rcases h.inside p _ hinside with ⟨node, hnode, href, -⟩
  rw [(h.tended n node hnode).refCount] at href
  exact hheld.ne' (Int.ofNat_eq_zero.mp href)

theorem StageKept.set {t : InodeTable} {stage : Stage} (h : StageKept inos t stage)
    (hnode : t.nodes n = some node) (hino : new.ino = node.ino) (hne : stage ≠ .sync n)
    (sfs : SfsFs) : StageKept inos ({ t with sfs }.set n new) stage := by
  cases stage with
  | truncate m => exact h
  | sync m =>
    rcases h with ⟨old, hold, hcounts⟩
    have hm : m ≠ n := fun heq ↦ hne (congrArg Stage.sync heq)
    exact ⟨old, (InodeTable.set_nodes_of_ne _ hm new).trans hold, hcounts⟩
  | read ino =>
    refine ⟨h.1, fun m other hother ↦ ?_⟩
    by_cases hm : m = n
    · subst hm
      rw [InodeTable.set_nodes_self] at hother
      cases hother
      rw [hino]
      exact h.2 m node hnode
    · rw [InodeTable.set_nodes_of_ne _ hm] at hother
      exact h.2 m other hother

theorem Accounted.stage_set (h : Accounted inos w) (hheld : 0 < w.held n)
    (hnode : w.table.nodes n = some node) (hino : new.ino = node.ino) (sfs : SfsFs) {p : Pid}
    {stage : Stage} (hinside : w.inside = some (p, stage)) :
    StageKept inos ({ w.table with sfs }.set n new) stage :=
  (h.inside p stage hinside).set hnode hino (h.not_sync hheld hinside) sfs

/-- The rule for a step that changes one inode, and the references and reclaims of it alone. -/
theorem Accounted.set (h : Accounted inos w) (hnode : w.table.nodes n = some node) {sfs : SfsFs}
    (htable : next.table = { w.table with sfs }.set n new) (hstored : Stored inos sfs)
    (hino : new.ino = node.ino) (hopens : next.opens ≤ next.refs)
    (htended : Tended inos next n new) (hothers : ∀ m, m ≠ n → SameFor m w next)
    (hloads : ∀ p ino, (p, Call.load ino) ∈ next.waiting → (p, Call.load ino) ∈ w.waiting)
    (hinside : ∀ p stage, next.inside = some (p, stage) → StageKept inos next.table stage) :
    Accounted inos next := by
  have hself : next.table.nodes n = some new := htable ▸ InodeTable.set_nodes_self ..
  have hne : ∀ m, m ≠ n → next.table.nodes m = w.table.nodes m :=
    fun m hm ↦ htable ▸ InodeTable.set_nodes_of_ne _ hm new
  constructor
  · rw [htable]
    exact hstored
  · rw [htable]
    exact (h.consistent.setSfs sfs).set hnode hino
  · exact hopens
  · intro m other hother
    by_cases hm : m = n
    · subst hm
      cases hself.symm.trans hother
      exact htended
    · rw [hne m hm] at hother
      exact (h.tended m other hother).same (hothers m hm)
  · intro m hlive
    by_cases hm : m = n
    · exact ⟨new, hm ▸ hself⟩
    · rw [(hothers m hm).held, (hothers m hm).pending] at hlive
      rw [hne m hm]
      exact h.live m hlive
  · exact fun p ino hmem ↦ h.loads p ino (hloads p ino hmem)
  · exact hinside

/-- The rule for a step that changes no inode. -/
theorem Accounted.same (h : Accounted inos w) (htable : next.table = w.table) (hrefs : next.refs = w.refs)
    (hopens : next.opens = w.opens) (hsame : ∀ m, SameFor m w next)
    (hloads : ∀ p ino, (p, Call.load ino) ∈ next.waiting → ino ∈ inos)
    (hinside : ∀ p stage, next.inside = some (p, stage) → StageKept inos next.table stage) :
    Accounted inos next where
  stored := htable ▸ h.stored
  consistent := htable ▸ h.consistent
  opens_le := hopens ▸ hrefs ▸ h.opens_le
  tended m node hnode := (h.tended m node (htable ▸ hnode)).same (hsame m)
  live m hlive := by
    rw [(hsame m).held, (hsame m).pending] at hlive
    rw [htable]
    exact h.live m hlive
  loads := hloads
  inside := hinside

/-- The rule for a step that frees an inode. -/
theorem Accounted.leave (h : Accounted inos w) (hnode : w.table.nodes n = some node) {sfs : SfsFs}
    (htable : next.table = { w.table with sfs }.leave n node.ino) (hstored : Stored inos sfs)
    (hopens : next.opens ≤ next.refs) (hgone : next.held n = 0 ∧ next.pending n = 0)
    (hothers : ∀ m, m ≠ n → SameFor m w next)
    (hloads : ∀ p ino, (p, Call.load ino) ∈ next.waiting → (p, Call.load ino) ∈ w.waiting)
    (hinside : next.inside = none) : Accounted inos next := by
  have hself : next.table.nodes n = none := htable ▸ Function.update_self ..
  have hne : ∀ m, m ≠ n → next.table.nodes m = w.table.nodes m :=
    fun m hm ↦ htable ▸ Function.update_of_ne hm ..
  constructor
  · rw [htable]
    exact hstored
  · rw [htable]
    exact (h.consistent.setSfs sfs).leave hnode
  · exact hopens
  · intro m other hother
    have hm : m ≠ n := by
      rintro rfl
      cases hself.symm.trans hother
    rw [hne m hm] at hother
    exact (h.tended m other hother).same (hothers m hm)
  · intro m hlive
    have hm : m ≠ n := by
      rintro rfl
      rw [hgone.1, hgone.2] at hlive
      exact absurd hlive (by decide)
    rw [(hothers m hm).held, (hothers m hm).pending] at hlive
    rw [hne m hm]
    exact h.live m hlive
  · exact fun p ino hmem ↦ h.loads p ino (hloads p ino hmem)
  · intro p stage hsome
    cases hinside.symm.trans hsome

theorem Accounted.none_next (h : Accounted inos w) :
    w.held w.table.next = 0 ∧ w.opened w.table.next = 0 ∧ w.pending w.table.next = 0 := by
  have hnone : w.table.nodes w.table.next = none := h.consistent.none_of_le le_rfl
  have hidle : ¬(0 < w.held w.table.next ∨ 0 < w.pending w.table.next) := by
    intro hlive
    rcases h.live _ hlive with ⟨node, hnode⟩
    cases hnode.symm.trans hnone
  have hopened : w.opened w.table.next ≤ w.held w.table.next := tally_mono h.opens_le _
  omega

/-- The rule for a step that loads an inode, with its first reference. -/
theorem Accounted.enter (h : Accounted inos w) {p : Pid}
    (hread : w.inside = some (p, .read node.ino)) (hvalid : ValidInode node.din)
    (hcounts : node.refCount = 1 ∧ node.reclaimCount = 1 ∧ node.openCount = 0) :
    Accounted inos { w with
      table := w.table.enter node
      inside := none
      refs := (p, w.table.next) ::ₘ w.refs } := by
  rcases h.inside p _ hread with ⟨hino, hno⟩
  rcases h.none_next with ⟨hheld, hopened, hpending⟩
  have hself : (w.table.enter node).nodes w.table.next = some node := Function.update_self ..
  have hne : ∀ m, m ≠ w.table.next → (w.table.enter node).nodes m = w.table.nodes m :=
    fun m hm ↦ Function.update_of_ne hm ..
  have hcons : ∀ m, tally ((p, w.table.next) ::ₘ w.refs) m =
      w.held m + if m = w.table.next then 1 else 0 := tally_cons w.refs p w.table.next
  constructor
  · exact h.stored
  · exact h.consistent.enter hno
  · exact h.opens_le.trans (Multiset.le_cons_self ..)
  · intro m other hother
    by_cases hm : m = w.table.next
    · subst hm
      cases hself.symm.trans hother
      have hone : tally ((p, w.table.next) ::ₘ w.refs) w.table.next = 1 := by
        rw [hcons, hheld, if_pos rfl]
      refine ⟨hino, hvalid, ?_, ?_, ?_, ?_, Or.inl ?_⟩
      · rw [hcounts.1, Holding.held, hone]
        rfl
      · rw [hcounts.1]
        decide
      · rw [hcounts.2.2]
        exact (congrArg Nat.cast hopened).symm
      · rw [hcounts.2.1, hcounts.1, if_pos one_pos]
        exact congrArg (fun count : ℕ ↦ (count : ℤ) + 1) hpending.symm
      · rw [Holding.held, hone]
        exact one_pos
    · rw [hne m hm] at hother
      apply (h.tended m other hother).same
      refine ⟨?_, rfl, rfl, ?_⟩
      · rw [Holding.held, hcons, if_neg hm, Nat.add_zero]
      · rintro ⟨q, hstage | hstage⟩ <;> cases hread.symm.trans hstage
  · intro m hlive
    by_cases hm : m = w.table.next
    · exact ⟨node, hm ▸ hself⟩
    · rw [Holding.held, hcons, if_neg hm, Nat.add_zero] at hlive
      rw [hne m hm]
      exact h.live m hlive
  · exact h.loads
  · exact fun q stage hsome ↦ by cases hsome

/-! ### The steps, label by label -/

variable [DecidableEq Pid]

/-- A step that is due is taken, and keeps the account as long as the counters can hold it. -/
def Progresses (inos : List ℕ) (w : Holding Pid) (label : Label Pid) : Prop :=
  ∃ next, w.step label = .ok next ∧ (Countable w label → Accounted inos next)

theorem Accounted.refInc (h : Accounted inos w) {p : Pid} (other : Pid) (hmem : (p, n) ∈ w.refs) :
    Progresses inos w (.refInc p n other) := by
  have hheld : 0 < w.held n := tally_pos hmem
  rcases h.live n (Or.inl hheld) with ⟨node, hnode⟩
  have htended := h.tended n node hnode
  have hstep : w.step (.refInc p n other) = .ok { w with
      table := w.table.set n { node with refCount := int32 (node.refCount + 1) }
      refs := (other, n) ::ₘ w.refs } := by
    rw [Holding.step, inodeRefInc, InodeTable.node_eq hnode]
    rfl
  refine ⟨_, hstep, fun hcountable ↦ ?_⟩
  have hlt : node.refCount < INT_MAX := hcountable node hnode
  have hpos : 0 < node.refCount := by
    rw [htended.refCount]
    exact Int.natCast_pos.mpr hheld
  have hcount : int32 (node.refCount + 1) = node.refCount + 1 := int32_of_lt (by omega) (by omega)
  have hcons : ∀ m, tally ((other, n) ::ₘ w.refs) m = w.held m + if m = n then 1 else 0 :=
    tally_cons w.refs other n
  refine h.set hnode rfl h.stored rfl (h.opens_le.trans (Multiset.le_cons_self ..)) ?_ ?_ ?_ ?_
  · refine ⟨htended.ino_mem, htended.valid, ?_, ?_, htended.openCount, ?_, Or.inl ?_⟩
    · rw [hcount, Holding.held, hcons, if_pos rfl, htended.refCount]
      rfl
    · exact hcount.trans_le hlt
    · have hmore : 0 < node.refCount + 1 := by omega
      rw [hcount, if_pos hmore, htended.reclaimCount, if_pos hpos]
      rfl
    · rw [Holding.held, hcons, if_pos rfl]
      exact Nat.succ_pos _
  · intro m hm
    refine ⟨?_, rfl, rfl, id⟩
    rw [Holding.held, hcons, if_neg hm, Nat.add_zero]
  · exact fun _ _ hwaiting ↦ hwaiting
  · intro q stage hinside
    apply h.stage_set hheld hnode ?_ _ hinside
    rfl

theorem Accounted.refDec (h : Accounted inos w) {p : Pid}
    (hcount : w.opens.count (p, n) < w.refs.count (p, n)) :
    Progresses inos w (.refDec p n) := by
  have hmem : (p, n) ∈ w.refs := Multiset.count_pos.mp (Nat.zero_lt_of_lt hcount)
  have hheld : 0 < w.held n := tally_pos hmem
  rcases h.live n (Or.inl hheld) with ⟨node, hnode⟩
  have htended := h.tended n node hnode
  have hpos : 0 < node.refCount := by
    rw [htended.refCount]
    exact Int.natCast_pos.mpr hheld
  have herase : ∀ m, w.held m = tally (w.refs.erase (p, n)) m + if m = n then 1 else 0 :=
    tally_erase hmem
  have hopens : w.opens ≤ w.refs.erase (p, n) := by
    apply Multiset.le_iff_count.mpr
    intro owned
    by_cases howned : owned = (p, n)
    · subst howned
      rw [Multiset.count_erase_self]
      exact Nat.le_sub_one_of_lt hcount
    · rw [Multiset.count_erase_of_ne howned]
      exact Multiset.le_iff_count.mp h.opens_le owned
  have hself : w.held n = tally (w.refs.erase (p, n)) n + 1 := by rw [herase, if_pos rfl]
  have hothers : ∀ m, m ≠ n → tally (w.refs.erase (p, n)) m = w.held m := by
    intro m hm
    rw [herase, if_neg hm, Nat.add_zero]
  have href : node.refCount - 1 = tally (w.refs.erase (p, n)) n := by
    rw [htended.refCount, hself, Nat.cast_succ, Int.add_sub_cancel]
  let new : Node := { node with refCount := node.refCount - 1 }
  have hopened := tally_mono hopens n
  by_cases hlast : node.refCount - 1 = 0
  · -- the last reference: a reclaim waits for the lock from now on
    have hcheck : inodeCheck new = .ok () := by
      have hopen : node.openCount = 0 := by
        rw [htended.openCount]
        change ((tally w.opens n : ℕ) : ℤ) = 0
        omega
      apply Outcome.require_of_true
      simp only [new, hopen, hlast]
      decide
    have hstep : w.step (.refDec p n) = .ok { w with
        table := w.table.set n new
        refs := w.refs.erase (p, n)
        waiting := (p, .reclaim n) ::ₘ w.waiting } := by
      rw [Holding.step, inodeRefDec, InodeTable.node_eq hnode, Outcome.ok_bind,
        Outcome.require_of_true hpos, Outcome.ok_bind]
      dsimp only
      rw [if_pos hlast, hcheck]
      rfl
    refine ⟨_, hstep, fun _ ↦ ?_⟩
    have hcons : ∀ m, tally ((p, Call.reclaim n) ::ₘ w.waiting) (.reclaim m) =
        w.pending m + if m = n then 1 else 0 := by
      intro m
      rw [tally_cons, Holding.pending]
      simp only [Call.reclaim.injEq]
    refine h.set hnode rfl h.stored rfl hopens ?_ ?_ ?_ ?_
    · refine ⟨htended.ino_mem, htended.valid, href, ?_, htended.openCount, ?_, Or.inr (Or.inl ?_)⟩
      · exact hlast.trans_le (by decide)
      · have hnone : ¬0 < node.refCount - 1 := hlast.not_gt
        rw [Holding.pending, hcons, if_pos rfl, if_neg hnone, htended.reclaimCount, if_pos hpos,
          Nat.cast_succ, Int.add_zero]
      · rw [Holding.pending, hcons, if_pos rfl]
        exact Nat.succ_pos _
    · intro m hm
      refine ⟨hothers m hm, rfl, ?_, id⟩
      rw [Holding.pending, hcons, if_neg hm, Nat.add_zero]
    · intro q ino hwaiting
      exact (Multiset.mem_cons.mp hwaiting).resolve_left (fun heq ↦ by cases heq)
    · intro q stage hinside
      apply h.stage_set hheld hnode ?_ _ hinside
      rfl
  · have hstep : w.step (.refDec p n) = .ok { w with
        table := w.table.set n new
        refs := w.refs.erase (p, n) } := by
      rw [Holding.step, inodeRefDec, InodeTable.node_eq hnode, Outcome.ok_bind,
        Outcome.require_of_true hpos, Outcome.ok_bind]
      dsimp only
      rw [if_neg hlast]
      rfl
    refine ⟨_, hstep, fun _ ↦ ?_⟩
    refine h.set hnode rfl h.stored rfl hopens ?_ ?_ ?_ ?_
    · refine ⟨htended.ino_mem, htended.valid, href, ?_, htended.openCount, ?_, Or.inl ?_⟩
      · exact (Int.sub_le_self _ (by decide)).trans htended.refCount_le
      · have hmore : 0 < node.refCount - 1 := by omega
        rw [if_pos hmore, htended.reclaimCount, if_pos hpos]
        rfl
      · change 0 < tally (w.refs.erase (p, n)) n
        omega
    · exact fun m hm ↦ ⟨hothers m hm, rfl, rfl, id⟩
    · exact fun _ _ hwaiting ↦ hwaiting
    · intro q stage hinside
      apply h.stage_set hheld hnode ?_ _ hinside
      rfl

theorem Accounted.openInc (h : Accounted inos w) {p : Pid}
    (hcount : w.opens.count (p, n) < w.refs.count (p, n)) :
    Progresses inos w (.openInc p n) := by
  have hheld : 0 < w.held n := tally_pos (Multiset.count_pos.mp (Nat.zero_lt_of_lt hcount))
  rcases h.live n (Or.inl hheld) with ⟨node, hnode⟩
  have htended := h.tended n node hnode
  have hopens : (p, n) ::ₘ w.opens ≤ w.refs := by
    apply Multiset.le_iff_count.mpr
    intro owned
    rw [Multiset.count_cons]
    have hle := Multiset.le_iff_count.mp h.opens_le owned
    by_cases howned : owned = (p, n)
    · subst howned
      rw [if_pos rfl]
      exact hcount
    · rw [if_neg howned, Nat.add_zero]
      exact hle
  have hcons : ∀ m, tally ((p, n) ::ₘ w.opens) m = w.opened m + if m = n then 1 else 0 :=
    tally_cons w.opens p n
  have hself : tally ((p, n) ::ₘ w.opens) n = w.opened n + 1 := by rw [hcons, if_pos rfl]
  -- the count of the opens stays below the count of the references
  have hroom : int32 (node.openCount + 1) = node.openCount + 1 := by
    have hle := tally_mono hopens n
    have hopen := htended.openCount
    have href := htended.refCount
    have hmax := htended.refCount_le
    rw [hself] at hle
    change w.opened n + 1 ≤ w.held n at hle
    exact int32_of_lt (by omega) (by omega)
  have hstep : w.step (.openInc p n) = .ok { w with
      table := w.table.set n { node with openCount := int32 (node.openCount + 1) }
      opens := (p, n) ::ₘ w.opens } := by
    rw [Holding.step, inodeOpenInc, InodeTable.node_eq hnode]
    rfl
  refine ⟨_, hstep, fun _ ↦ ?_⟩
  refine h.set hnode rfl h.stored rfl hopens ?_ ?_ ?_ ?_
  · refine ⟨htended.ino_mem, htended.valid, htended.refCount, htended.refCount_le, ?_,
      htended.reclaimCount, Or.inl hheld⟩
    rw [hroom, Holding.opened, hself, htended.openCount, Nat.cast_succ]
  · intro m hm
    refine ⟨rfl, ?_, rfl, id⟩
    rw [Holding.opened, hcons, if_neg hm, Nat.add_zero]
  · exact fun _ _ hwaiting ↦ hwaiting
  · intro q stage hinside
    apply h.stage_set hheld hnode ?_ _ hinside
    rfl

theorem Accounted.openDec (h : Accounted inos w) {p : Pid} (hmem : (p, n) ∈ w.opens) :
    Progresses inos w (.openDec p n) := by
  have hheld : 0 < w.held n := tally_pos (Multiset.mem_of_le h.opens_le hmem)
  rcases h.live n (Or.inl hheld) with ⟨node, hnode⟩
  have htended := h.tended n node hnode
  have herase : ∀ m, w.opened m = tally (w.opens.erase (p, n)) m + if m = n then 1 else 0 :=
    tally_erase hmem
  have hself : w.opened n = tally (w.opens.erase (p, n)) n + 1 := by rw [herase, if_pos rfl]
  have hpos : 0 < node.openCount := by
    rw [htended.openCount, hself]
    exact Int.natCast_pos.mpr (Nat.succ_pos _)
  have hstep : w.step (.openDec p n) = .ok { w with
      table := w.table.set n { node with openCount := node.openCount - 1 }
      opens := w.opens.erase (p, n) } := by
    rw [Holding.step, inodeOpenDec, InodeTable.node_eq hnode, Outcome.ok_bind,
      Outcome.require_of_true hpos]
    rfl
  refine ⟨_, hstep, fun _ ↦ ?_⟩
  refine h.set hnode rfl h.stored rfl ((Multiset.erase_le ..).trans h.opens_le) ?_ ?_ ?_ ?_
  · refine ⟨htended.ino_mem, htended.valid, htended.refCount, htended.refCount_le, ?_,
      htended.reclaimCount, Or.inl hheld⟩
    rw [htended.openCount, hself, Nat.cast_succ, Int.add_sub_cancel]
    rfl
  · intro m hm
    refine ⟨rfl, ?_, rfl, id⟩
    rw [herase, if_neg hm, Nat.add_zero]
    rfl
  · exact fun _ _ hwaiting ↦ hwaiting
  · intro q stage hinside
    apply h.stage_set hheld hnode ?_ _ hinside
    rfl

theorem Accounted.load (h : Accounted inos w) (p : Pid) {ino : ℕ} (hino : ino ∈ inos) :
    Progresses inos w (.load p ino) := by
  refine ⟨_, rfl, fun _ ↦ ?_⟩
  refine h.same rfl rfl rfl ?_ ?_ h.inside
  · intro m
    refine ⟨rfl, rfl, ?_, id⟩
    exact tally_cons w.waiting p (Call.load ino) (.reclaim m)
  · intro q other hmem
    rcases Multiset.mem_cons.mp hmem with heq | hmem
    · cases heq
      exact hino
    · exact h.loads q other hmem

theorem SameKind.valid {din other : Bytes} (h : SameKind din other) :
    ValidInode other ↔ ValidInode din := by
  have hword : wordAt other 4 = wordAt din 4 := by
    simp only [wordAt, word32, h 4 (by decide) (by decide), h 5 (by decide) (by decide),
      h 6 (by decide) (by decide), h 7 (by decide) (by decide), Nat.add_zero, Nat.reduceAdd]
  rw [ValidInode, ValidInode, diskNlinks, diskNlinks, diskInode, diskInode, hword]

theorem KeepsInodes.stored {before after : SfsFs} (h : KeepsInodes inos before after)
    (hstored : Stored inos before) : Stored inos after where
  geometry := h.geometry
  range := h.blocks ▸ hstored.range
  inuse := h.inuse
  valid ino hino := (h.kind ino hino).valid.mpr (hstored.valid ino hino)

theorem Accounted.work (h : Accounted inos w) {p : Pid} {din : Bytes} {dirty : Bool} {sfs : SfsFs}
    (hmem : (p, n) ∈ w.refs) (hkeeps : KeepsInodes inos w.table.sfs sfs)
    (hkind : ∀ node, w.table.nodes n = some node → SameKind node.din din) :
    Progresses inos w (.work p n din dirty sfs) := by
  have hheld : 0 < w.held n := tally_pos hmem
  rcases h.live n (Or.inl hheld) with ⟨node, hnode⟩
  have htended := h.tended n node hnode
  have hstep : w.step (.work p n din dirty sfs) = .ok { w with
      table := { w.table with sfs }.set n { node with din, dirty } } := by
    rw [Holding.step, InodeTable.node_eq hnode]
    rfl
  refine ⟨_, hstep, fun _ ↦ ?_⟩
  refine h.set hnode rfl (hkeeps.stored h.stored) rfl h.opens_le ?_ ?_ ?_ ?_
  · exact { htended with valid := (hkind node hnode).valid.mpr htended.valid }
  · exact fun m _ ↦ ⟨rfl, rfl, rfl, id⟩
  · exact fun _ _ hwaiting ↦ hwaiting
  · intro q stage hinside
    apply h.stage_set hheld hnode ?_ _ hinside
    rfl

/-- A call that no longer waits. -/
theorem tally_waiting_load {p : Pid} {ino : ℕ} (hmem : (p, Call.load ino) ∈ w.waiting) (m : ℕ) :
    tally (w.waiting.erase (p, .load ino)) (.reclaim m) = w.pending m :=
  (tally_erase hmem (.reclaim m)).symm

theorem step_found (h : w.table.Consistent) (p : Pid) (memory : Bool) (hinside : w.inside = none)
    (hnode : w.table.nodes n = some node) :
    w.step (.enter p (.load node.ino) memory) = .ok { w with
      table := w.table.set n node.taken
      waiting := w.waiting.erase (p, .load node.ino)
      refs := (p, n) ::ₘ w.refs } := by
  rw [Holding.step, loadStart_found h hnode]
  simp only [Outcome.ok_bind, Outcome.pure_eq_ok, Holding.loaded, hinside]

theorem Accounted.enter_found (h : Accounted inos w) {p : Pid} (memory : Bool)
    (hmem : (p, Call.load node.ino) ∈ w.waiting) (hinside : w.inside = none)
    (hnode : w.table.nodes n = some node) :
    Progresses inos w (.enter p (.load node.ino) memory) := by
  have htended := h.tended n node hnode
  refine ⟨_, step_found h.consistent p memory hinside hnode, fun hcountable ↦ ?_⟩
  rcases hcountable n node hnode rfl with ⟨hlt, hreclaims⟩
  have hnonneg : 0 ≤ node.refCount := by
    rw [htended.refCount]
    exact Int.natCast_nonneg _
  have hnonneg' : 0 ≤ node.reclaimCount := by
    rw [htended.reclaimCount]
    split <;> omega
  have hcount : int32 (node.refCount + 1) = node.refCount + 1 := int32_of_lt (by omega) hlt
  have hcount' : int32 (node.reclaimCount + 1) = node.reclaimCount + 1 :=
    int32_of_lt (by omega) hreclaims
  have hcons : ∀ m, tally ((p, n) ::ₘ w.refs) m = w.held m + if m = n then 1 else 0 :=
    tally_cons w.refs p n
  have href : node.taken.refCount = node.refCount + 1 := hcount
  refine h.set hnode rfl h.stored rfl (h.opens_le.trans (Multiset.le_cons_self ..)) ?_ ?_ ?_ ?_
  · refine ⟨htended.ino_mem, htended.valid, ?_, href.trans_le hlt, htended.openCount, ?_, Or.inl ?_⟩
    · rw [href, Holding.held, hcons, if_pos rfl, htended.refCount, Nat.cast_succ]
    · rw [Holding.pending, tally_waiting_load hmem, if_pos (href ▸ Int.lt_add_one_of_le hnonneg)]
      -- a lookup that revives the inode takes another reclaim into account
      have hreclaim : node.taken.reclaimCount =
          if node.refCount + 1 = 1 then node.reclaimCount + 1 else node.reclaimCount := by
        rw [Node.taken, hcount, hcount']
      rw [hreclaim, htended.reclaimCount]
      by_cases hzero : node.refCount = 0
      · rw [if_pos (by omega), if_neg (by omega), Int.add_zero]
      · rw [if_neg (by omega), if_pos (by omega)]
    · rw [Holding.held, hcons, if_pos rfl]
      exact Nat.succ_pos _
  · intro m hm
    refine ⟨?_, rfl, tally_waiting_load hmem m, ?_⟩
    · rw [Holding.held, hcons, if_neg hm, Nat.add_zero]
    · rintro ⟨q, hstage | hstage⟩ <;> cases hinside.symm.trans hstage
  · exact fun _ _ hwaiting ↦ Multiset.mem_of_mem_erase hwaiting
  · intro q stage hstage
    cases hinside.symm.trans hstage

theorem Accounted.enter_missing (h : Accounted inos w) {p : Pid} {ino : ℕ} (memory : Bool)
    (hmem : (p, Call.load ino) ∈ w.waiting) (hinside : w.inside = none)
    (hno : ∀ n node, w.table.nodes n = some node → node.ino ≠ ino) :
    w.step (.enter p (.load ino) memory) = .ok { w with
      waiting := w.waiting.erase (p, .load ino)
      inside := if memory then some (p, .read ino) else none } ∧
    Progresses inos w (.enter p (.load ino) memory) := by
  have hino : ino ∈ inos := h.loads p ino hmem
  rcases h.stored.range ino hino with ⟨hpos, hblocks⟩
  have hinuse : sfsBlockInuse w.table.sfs ino = .ok true := by
    rw [sfsBlockInuse_eq h.stored.geometry hpos hblocks, decide_eq_false (h.stored.inuse ino hino)]
    rfl
  have hstep : w.step (.enter p (.load ino) memory) = .ok { w with
      waiting := w.waiting.erase (p, .load ino)
      inside := if memory then some (p, .read ino) else none } := by
    rw [Holding.step, loadStart_missing h.consistent hno hinuse]
    cases memory <;> rfl
  refine ⟨hstep, _, hstep, fun _ ↦ ?_⟩
  refine h.same rfl rfl rfl ?_ ?_ ?_
  · intro m
    refine ⟨rfl, rfl, tally_waiting_load hmem m, ?_⟩
    rintro ⟨q, hstage | hstage⟩ <;> cases hinside.symm.trans hstage
  · exact fun q other hwaiting ↦ h.loads q other (Multiset.mem_of_mem_erase hwaiting)
  · intro q stage hstage
    cases memory with
    | false => cases hstage
    | true =>
      cases hstage
      exact ⟨hino, hno⟩

theorem Accounted.resume_read (h : Accounted inos w) {p : Pid} {ino : ℕ} (memory : Bool)
    (hinside : w.inside = some (p, .read ino)) :
    let node : Node := ⟨ino, w.table.sfs.dev.block ino, false, 1, 1, 0⟩
    w.step (.resume memory) = .ok (if memory then { w with
        table := w.table.enter node
        inside := none
        refs := (p, w.table.next) ::ₘ w.refs } else { w with inside := none }) ∧
    Progresses inos w (.resume memory) := by
  intro node
  rcases h.inside p _ hinside with ⟨hino, hno⟩
  rcases h.stored.range ino hino with ⟨hpos, hblocks⟩
  have hread : sfsRbuf w.table.sfs 64 ino 0 = .ok (.ok (w.table.sfs.dev.block ino)) := by
    rw [sfsRbuf_eq h.stored.geometry hpos hblocks (by decide) (by decide)]
    simp only [Nat.zero_add]
  have hvalid : ValidInode node.din := h.stored.valid ino hino
  have hstep : w.step (.resume memory) = .ok (if memory then { w with
        table := w.table.enter node
        inside := none
        refs := (p, w.table.next) ::ₘ w.refs } else { w with inside := none }) := by
    rw [Holding.step]
    simp only [hinside]
    rw [loadRead_eq hread hvalid]
    cases memory <;> rfl
  refine ⟨hstep, _, hstep, fun _ ↦ ?_⟩
  cases memory with
  | true => exact h.enter hinside hvalid ⟨rfl, rfl, rfl⟩
  | false =>
    refine h.same rfl rfl rfl ?_ h.loads ?_
    · intro m
      refine ⟨rfl, rfl, rfl, ?_⟩
      rintro ⟨q, hstage | hstage⟩ <;> cases hinside.symm.trans hstage
    · exact fun _ _ hstage ↦ by cases hstage

theorem Accounted.enter_reclaim (h : Accounted inos w) {p : Pid} (memory : Bool)
    (hmem : (p, Call.reclaim n) ∈ w.waiting) (hinside : w.inside = none) :
    Progresses inos w (.enter p (.reclaim n) memory) := by
  rcases h.live n (Or.inr (tally_pos hmem)) with ⟨node, hnode⟩
  have htended := h.tended n node hnode
  have herase : ∀ m, w.pending m = tally (w.waiting.erase (p, .reclaim n)) (.reclaim m) +
      if m = n then 1 else 0 := by
    intro m
    rw [Holding.pending, tally_erase hmem]
    simp only [Call.reclaim.injEq]
  have hself : w.pending n = tally (w.waiting.erase (p, .reclaim n)) (.reclaim n) + 1 := by
    rw [herase, if_pos rfl]
  have hothers : ∀ m, m ≠ n → tally (w.waiting.erase (p, .reclaim n)) (.reclaim m) = w.pending m := by
    intro m hm
    rw [herase, if_neg hm, Nat.add_zero]
  have hcount : node.reclaimCount - 1 = tally (w.waiting.erase (p, .reclaim n)) (.reclaim n) +
      if 0 < node.refCount then 1 else 0 := by
    rw [htended.reclaimCount, hself]
    omega
  have hpos : 0 < node.reclaimCount := by
    have hnonneg : (0 : ℤ) ≤ if 0 < node.refCount then 1 else 0 := by split <;> omega
    omega
  let new : Node := { node with reclaimCount := node.reclaimCount - 1 }
  have hnew : (w.table.set n new).nodes n = some new := InodeTable.set_nodes_self ..
  have hstart : ∀ outcome table, (if new.reclaimCount ≠ 0 ∨ new.refCount ≠ 0 then
        .ok (.done (.error .busy), w.table.set n new)
      else reclaimFlush (w.table.set n new) n) = .ok (outcome, table) →
      w.step (.enter p (.reclaim n) memory) = .ok (({ w with
        table, waiting := w.waiting.erase (p, .reclaim n) } : Holding Pid).reclaimed p n outcome) := by
    intro outcome table hcall
    rw [Holding.step, reclaimStart, InodeTable.node_eq hnode, Outcome.ok_bind,
      Outcome.require_of_true hpos, Outcome.ok_bind]
    have hlinks : ¬diskNlinks new.din = 0 := htended.valid.1
    dsimp only
    rw [if_neg hlinks]
    change ((if new.reclaimCount ≠ 0 ∨ new.refCount ≠ 0 then
        .ok (.done (.error .busy), w.table.set n new)
      else reclaimFlush (w.table.set n new) n) >>= _) = _
    rw [hcall]
    rfl
  have hwaits : ∀ q ino, (q, Call.load ino) ∈ w.waiting.erase (p, .reclaim n) →
      (q, Call.load ino) ∈ w.waiting := fun _ _ hwaiting ↦ Multiset.mem_of_mem_erase hwaiting
  have hidle : ∀ m, ¬w.Freeing m := by
    rintro m ⟨q, hstage | hstage⟩ <;> cases hinside.symm.trans hstage
  by_cases hbusy : new.reclaimCount ≠ 0 ∨ new.refCount ≠ 0
  · -- somebody else reclaims the inode later
    refine ⟨_, hstart _ _ (if_pos hbusy), fun _ ↦ ?_⟩
    refine h.set hnode rfl h.stored rfl h.opens_le ?_ ?_ hwaits ?_
    · refine ⟨htended.ino_mem, htended.valid, htended.refCount, htended.refCount_le,
        htended.openCount, hcount, ?_⟩
      by_cases href : node.refCount = 0
      · right
        left
        have hleft : node.reclaimCount - 1 ≠ 0 := hbusy.resolve_right fun hne ↦ hne href
        rw [if_neg (by omega)] at hcount
        change 0 < tally (w.waiting.erase (p, .reclaim n)) (.reclaim n)
        omega
      · left
        have heq := htended.refCount
        change 0 < w.held n
        omega
    · exact fun m hm ↦ ⟨rfl, rfl, hothers m hm, fun hfreeing ↦ absurd hfreeing (hidle m)⟩
    · exact fun _ _ hstage ↦ by cases hstage
  · rw [not_or, not_not, not_not] at hbusy
    rcases hbusy with ⟨hreclaims, href⟩
    have hopen : node.openCount = 0 := h.openCount_eq hnode href
    have hnone : tally (w.waiting.erase (p, .reclaim n)) (.reclaim n) = 0 := by
      have hzero : node.reclaimCount - 1 = 0 := hreclaims
      have href : node.refCount = 0 := href
      rw [hzero, if_neg href.not_gt] at hcount
      omega
    have hheld : w.held n = 0 := Int.ofNat_eq_zero.mp (htended.refCount.symm.trans href)
    have hneg : ¬(new.reclaimCount ≠ 0 ∨ new.refCount ≠ 0) :=
      not_or.mpr ⟨not_not.mpr hreclaims, not_not.mpr href⟩
    by_cases hdirty : node.dirty
    · have hcheck : inodeCheck new = .ok () := by
        apply Outcome.require_of_true
        rw [href, show new.openCount = 0 from hopen]
        decide
      have hflush : reclaimFlush (w.table.set n new) n =
          .ok (.sync, w.table.set n { new with dirty := false }) := by
        rw [reclaimFlush, InodeTable.node_eq hnew, Outcome.ok_bind, if_pos hdirty, hcheck,
          InodeTable.set_set]
        rfl
      refine ⟨_, hstart _ _ ((if_neg hneg).trans hflush), fun _ ↦ ?_⟩
      refine h.set hnode rfl h.stored rfl h.opens_le ?_ ?_ hwaits ?_
      · exact ⟨htended.ino_mem, htended.valid, htended.refCount, htended.refCount_le,
          htended.openCount, hcount, Or.inr (Or.inr ⟨p, Or.inr rfl⟩)⟩
      · exact fun m hm ↦ ⟨rfl, rfl, hothers m hm, fun hfreeing ↦ absurd hfreeing (hidle m)⟩
      · intro q stage hstage
        cases hstage
        exact ⟨_, InodeTable.set_nodes_self .., href, hreclaims⟩
    · have hflush : reclaimFlush (w.table.set n new) n =
          .ok (.done (.ok ()), (w.table.set n new).leave n node.ino) := by
        have hfinish : reclaimFinish (w.table.set n new) n =
            .ok (.done (.ok ()), (w.table.set n new).leave n new.ino) :=
          reclaimFinish_eq hnew htended.valid.1 href hopen
        rw [reclaimFlush, InodeTable.node_eq hnew, Outcome.ok_bind, if_neg hdirty]
        exact hfinish
      have hleave : (w.table.set n new).leave n node.ino = w.table.leave n node.ino := by
        simp only [InodeTable.leave, InodeTable.set, Function.update_idem]
      refine ⟨_, hstart _ _ ((if_neg hneg).trans hflush), fun _ ↦ ?_⟩
      refine h.leave hnode hleave h.stored h.opens_le ⟨hheld, hnone⟩ ?_ hwaits rfl
      exact fun m hm ↦ ⟨rfl, rfl, hothers m hm, fun hfreeing ↦ absurd hfreeing (hidle m)⟩

theorem Stored.put {s : SfsFs} (h : Stored inos s) {ino : ℕ} {din : Bytes} (hvalid : ValidInode din) :
    Stored inos (s.put ino (overlay (s.dev.block ino) din 64 0)) where
  geometry := h.geometry.put ..
  range := h.range
  inuse := h.inuse
  valid other hother := by
    rw [put_block]
    split
    · have hkind : SameKind din (overlay (s.dev.block ino) din 64 0) := by
        intro index _ hindex
        have hinside : overlay (s.dev.block ino) din 64 0 (0 + index) = din index :=
          overlay_inside (hindex.trans (by decide))
        rwa [Nat.zero_add] at hinside
      exact hkind.valid.mpr hvalid
    · exact h.valid other hother

theorem Accounted.resume_sync (h : Accounted inos w) {p : Pid} (memory : Bool)
    (hinside : w.inside = some (p, .sync n)) : Progresses inos w (.resume memory) := by
  rcases h.inside p _ hinside with ⟨node, hnode, href, hreclaims⟩
  have htended := h.tended n node hnode
  rcases h.stored.range node.ino htended.ino_mem with ⟨hpos, hblocks⟩
  have hheld : w.held n = 0 := Int.ofNat_eq_zero.mp (htended.refCount.symm.trans href)
  have hnone : w.pending n = 0 := by
    have hcount := htended.reclaimCount
    rw [hreclaims, if_neg href.not_gt] at hcount
    omega
  have hwrite : sfsWbuf w.table.sfs node.din 64 node.ino 0 = .ok (.ok (),
      w.table.sfs.put node.ino (overlay (w.table.sfs.dev.block node.ino) node.din 64 0)) :=
    sfsWbuf_eq h.stored.geometry hpos hblocks (by decide) (by decide) node.din
  let sfs := w.table.sfs.put node.ino (overlay (w.table.sfs.dev.block node.ino) node.din 64 0)
  have hfinish : reclaimFinish { w.table with sfs } n =
      .ok (.done (.ok ()), InodeTable.leave { w.table with sfs } n node.ino) :=
    reclaimFinish_eq hnode htended.valid.1 href (h.openCount_eq hnode href)
  have hstep : w.step (.resume memory) = .ok { w with
      table := InodeTable.leave { w.table with sfs } n node.ino
      inside := none } := by
    rw [Holding.step]
    simp only [hinside]
    rw [reclaimSync, InodeTable.node_eq hnode, Outcome.ok_bind, hwrite]
    exact Outcome.bind_eq_ok.mpr ⟨_, hfinish, rfl⟩
  refine ⟨_, hstep, fun _ ↦ ?_⟩
  refine h.leave hnode rfl (h.stored.put htended.valid) h.opens_le ⟨hheld, hnone⟩ ?_ ?_ rfl
  · intro m hm
    refine ⟨rfl, rfl, rfl, ?_⟩
    rintro ⟨q, hstage | hstage⟩ <;> cases hinside.symm.trans hstage
    exact absurd rfl hm
  · exact fun _ _ hwaiting ↦ hwaiting

/-- The step lemma: every step that is due is taken, and the account is kept. -/
theorem Accounted.progresses (h : Accounted inos w) {label : Label Pid}
    (hentitled : Entitled inos w label) : Progresses inos w label := by
  cases label with
  | load p ino => exact h.load p hentitled
  | enter p call memory =>
    rcases hentitled with ⟨hmem, hinside⟩
    cases call with
    | reclaim n => exact h.enter_reclaim memory hmem hinside
    | load ino =>
      by_cases hfound : ∃ n node, w.table.nodes n = some node ∧ node.ino = ino
      · rcases hfound with ⟨n, node, hnode, rfl⟩
        exact h.enter_found memory hmem hinside hnode
      · refine (h.enter_missing memory hmem hinside fun n node hnode hino ↦ ?_).2
        exact hfound ⟨n, node, hnode, hino⟩
  | resume memory =>
    rcases Option.isSome_iff_exists.mp hentitled with ⟨⟨p, stage⟩, hinside⟩
    cases stage with
    | read ino => exact (h.resume_read memory hinside).2
    | truncate n => exact absurd (h.inside p _ hinside) id
    | sync n => exact h.resume_sync memory hinside
  | refInc p n other => exact h.refInc other hentitled
  | refDec p n => exact h.refDec hentitled
  | openInc p n => exact h.openInc hentitled
  | openDec p n => exact h.openDec hentitled
  | work p n din dirty sfs => exact h.work hentitled.1 hentitled.2.1 hentitled.2.2

theorem Accounted.step {label : Label Pid} (h : Accounted inos w)
    (hstep : CountableStep inos w label next) : Accounted inos next := by
  rcases hstep with ⟨⟨hentitled, hcall⟩, hcountable⟩
  rcases h.progresses hentitled with ⟨other, hother, hkept⟩
  cases hcall.symm.trans hother
  exact hkept hcountable

omit [DecidableEq Pid] in
theorem FreshlyMounted.accounted (h : FreshlyMounted inos w) : Accounted inos w := by
  have hnone : ∀ n node, w.table.nodes n ≠ some node := by
    intro n node hnode
    cases (h.nodes n).symm.trans hnode
  have hheld : ∀ n, w.held n = 0 := by
    intro n
    rw [Holding.held, h.refs]
    rfl
  have hpending : ∀ n, w.pending n = 0 := by
    intro n
    rw [Holding.pending, h.waiting]
    rfl
  refine ⟨h.stored, ⟨?_, ?_, ?_, ?_, ?_, ?_⟩, ?_, ?_, ?_, ?_, ?_⟩
  · intro n
    rw [h.nodes, h.next]
    simp
  · intro n
    rw [h.freed]
    exact zero_le_one
  · exact fun n _ ↦ h.freed n
  · intro slot n
    rw [h.hashList]
    exact iff_of_false (List.not_mem_nil) fun ⟨node, hnode, _⟩ ↦ hnone n node hnode
  · intro slot
    rw [h.hashList]
    exact List.nodup_nil
  · exact fun n _ node _ hnode ↦ absurd hnode (hnone n node)
  · rw [h.opens, h.refs]
  · exact fun n node hnode ↦ absurd hnode (hnone n node)
  · intro n hlive
    rw [hheld, hpending] at hlive
    exact absurd hlive (by decide)
  · intro p ino hmem
    rw [h.waiting] at hmem
    exact absurd hmem (Multiset.notMem_zero _)
  · intro p stage hstage
    cases h.inside.symm.trans hstage

/-- The run lemma. -/
theorem Accounted.runs (h : Accounted inos w) {labels : List (Label Pid)}
    (hruns : Runs (CountableStep inos) w labels next) : Accounted inos next := by
  induction hruns with
  | nil => exact h
  | cons hstep _ ih => exact ih (h.step hstep)

theorem Accounted.lifetimeRight (h : Accounted inos w) : LifetimeRight inos w := by
  have hlinks : ∀ slot n node, w.table.nodes n = some node → sinHashfn node.ino = slot →
      w.table.Links slot n node :=
    fun slot n node hnode hslot ↦ ⟨(h.consistent.linked slot n).mpr ⟨node, hnode, hslot⟩, hnode⟩
  constructor
  · intro slot other n m node twin hnode htwin hino
    have heq := h.consistent.unique n m node twin hnode.2 htwin.2 hino
    refine ⟨?_, heq⟩
    rcases (h.consistent.linked slot n).mp hnode.1 with ⟨same, hsame, rfl⟩
    rcases (h.consistent.linked other m).mp htwin.1 with ⟨same', hsame', rfl⟩
    cases hsame.symm.trans hnode.2
    cases hsame'.symm.trans htwin.2
    rw [hino]
  · exact h.consistent.nodup
  · intro slot n hmem
    rcases (h.consistent.linked slot n).mp hmem with ⟨node, hnode, -⟩
    exact ⟨node, hnode⟩
  · rintro p ino memory slot n node hmem hinside hlinked rfl
    exact ⟨_, step_found h.consistent p memory hinside hlinked.2, hinside, rfl⟩
  · intro p ino memory hmem hinside hno
    refine (h.enter_missing memory hmem hinside fun n node hnode ↦ ?_).1
    exact hno _ n node (hlinks _ n node hnode rfl)
  · intro p ino hinside
    have hstep := (h.resume_read true hinside).1
    refine ⟨_, ⟨ino, w.table.sfs.dev.block ino, false, 1, 1, 0⟩, hstep, rfl, ⟨?_, ?_⟩, rfl, rfl⟩
    · exact List.mem_of_mem_head? (by simp [InodeTable.enter])
    · exact Function.update_self ..
  · intro n node hnode
    have htended := h.tended n node hnode
    exact ⟨htended.refCount, htended.reclaimCount⟩
  · exact h.consistent.freed_le
  · intro n hlive
    rcases h.live n hlive with ⟨node, hnode⟩
    have hsome : (w.table.nodes n).isSome := by rw [hnode]; rfl
    exact ⟨((h.consistent.node_iff n).mp hsome).2, hsome⟩
  · intro n hlt hheld hpending hfreeing
    have hnone : ¬(w.table.nodes n).isSome := by
      intro hsome
      rcases Option.isSome_iff_exists.mp hsome with ⟨node, hnode⟩
      rcases (h.tended n node hnode).alive with hlive | hlive | hlive
      · exact hlive.ne' hheld
      · exact hlive.ne' hpending
      · exact hfreeing hlive
    have hne : w.table.freed n ≠ 0 := fun hzero ↦ hnone ((h.consistent.node_iff n).mpr ⟨hlt, hzero⟩)
    exact le_antisymm (h.consistent.freed_le n) (Nat.one_le_iff_ne_zero.mpr hne)
  · intro label hentitled
    rcases h.progresses hentitled with ⟨next, hstep, -⟩
    exact ⟨next, hstep⟩

/-- As long as no counter of an inode passes `INT_MAX`, an inode in memory is the only one of its
number, its counters are right, and it is freed once, when nobody refers to it any more. -/
theorem lifetimeRight_of_countable (inos : List ℕ) (start : Holding Pid)
    (hstart : FreshlyMounted inos start) :
    ∀ labels w, Runs (CountableStep inos) start labels w → LifetimeRight inos w :=
  fun _ _ hruns ↦ (hstart.accounted.runs hruns).lifetimeRight

end Accounting

/-! ### One file, opened over and over -/

/-- The disk of one empty file, with block 3 for its inode. -/
def oneFileSfs : SfsFs :=
  { emptySfs 7 with dev := ⟨7, fun _ index ↦ if index = 4 ∨ index = 6 then 1 else 0⟩ }

def oneFileMounted : Holding ℕ := ⟨⟨oneFileSfs, fun _ ↦ none, fun _ ↦ [], [], 0, fun _ ↦ 0⟩, 0, none, 0, 0⟩

theorem geometry_oneFileSfs : Geometry oneFileSfs :=
  have hgeometry : Geometry (emptySfs 7) := geometry_emptySfs (by decide)
  { hgeometry with }

theorem freshlyMounted_oneFile : FreshlyMounted [3] oneFileMounted := by
  refine ⟨⟨geometry_oneFileSfs, ?_, ?_, ?_⟩, fun _ ↦ rfl, fun _ ↦ rfl, rfl, rfl, fun _ ↦ rfl, rfl, rfl,
    rfl, rfl⟩
  · intro ino hino
    rw [List.mem_singleton.mp hino]
    decide
  · intro ino hino
    rw [List.mem_singleton.mp hino]
    exact fun hfree ↦ absurd ((emptySfs_free 7 3).mp hfree).1 (by decide)
  · intro ino hino
    rw [List.mem_singleton.mp hino]
    exact ⟨by decide, Or.inr (by decide)⟩

/-- The inode of the file, with as many references as fit in an `int`. -/
def oneFileNode (count : ℕ) : Node :=
  ⟨3, fun index ↦ if index = 4 ∨ index = 6 then 1 else 0, false, 1, int32 count, 0⟩

/-- One process has loaded the file `count` times. -/
def oneFileLoaded (count : ℕ) : Holding ℕ :=
  { oneFileMounted with
    table := oneFileMounted.table.enter (oneFileNode count)
    refs := Multiset.replicate count (0, 0) }

theorem runs_oneFile : ∃ labels, Runs (CountableStep [3]) oneFileMounted labels (oneFileLoaded 1) := by
  have hmounted := freshlyMounted_oneFile.accounted
  let waits : Holding ℕ := { oneFileMounted with waiting := {(0, .load 3)} }
  have hwaits : CountableStep [3] oneFileMounted (.load 0 3) waits :=
    ⟨⟨List.mem_singleton.mpr rfl, rfl⟩, trivial⟩
  have hkept : Accounted [3] waits := hmounted.step hwaits
  let reads : Holding ℕ := { oneFileMounted with inside := some (0, .read 3) }
  have hreads : CountableStep [3] waits (.enter 0 (.load 3) true) reads := by
    have hmem : (0, Call.load 3) ∈ waits.waiting := Multiset.mem_singleton_self _
    have hno : ∀ n node, waits.table.nodes n = some node → node.ino ≠ 3 :=
      fun _ _ hnode ↦ by cases hnode
    refine ⟨⟨⟨hmem, rfl⟩, ?_⟩, fun _ _ hnode ↦ by cases hnode⟩
    rw [(hkept.enter_missing true hmem rfl hno).1]
    simp only [waits, reads, Multiset.erase_singleton, if_true]
    rfl
  have hloads : CountableStep [3] reads (.resume true) (oneFileLoaded 1) :=
    ⟨⟨rfl, ((hkept.step hreads).resume_read true rfl).1⟩, trivial⟩
  exact ⟨_, .cons hwaits (.cons hreads (.cons hloads .nil))⟩

theorem lifetimeRight_of_countable_oneFile : LifetimeRight [3] (oneFileLoaded 1) := by
  rcases runs_oneFile with ⟨labels, hruns⟩
  exact lifetimeRight_of_countable [3] oneFileMounted freshlyMounted_oneFile labels _ hruns

theorem runs_oneFileLoaded (more count : ℕ) (hpos : 0 < count) (hle : count + more ≤ 2 ^ 31) :
    ∃ labels, Runs (HoldingStep [3]) (oneFileLoaded count) labels (oneFileLoaded (count + more)) := by
  induction more generalizing count with
  | zero => exact ⟨[], .nil⟩
  | succ more ih =>
    let waits : Holding ℕ := { oneFileLoaded count with waiting := {(0, .load 3)} }
    have hwaits : HoldingStep [3] (oneFileLoaded count) (.load 0 3) waits :=
      ⟨List.mem_singleton.mpr rfl, rfl⟩
    have hconsistent : waits.table.Consistent :=
      freshlyMounted_oneFile.accounted.consistent.enter fun _ _ hnode ↦ by cases hnode
    have hnode : waits.table.nodes 0 = some (oneFileNode count) := rfl
    have htaken : (oneFileNode count).taken = oneFileNode (count + 1) := by
      have hsucc : int32 (int32 count + 1) = int32 ((count + 1 : ℕ) : ℤ) := by
        unfold int32
        omega
      have hne : int32 ((count + 1 : ℕ) : ℤ) ≠ 1 := by
        unfold int32
        omega
      simp only [Node.taken, oneFileNode, hsucc, if_neg hne]
    have hloads : HoldingStep [3] waits (.enter 0 (.load 3) true) (oneFileLoaded (count + 1)) := by
      refine ⟨⟨Multiset.mem_singleton_self _, rfl⟩, ?_⟩
      refine (step_found hconsistent 0 true rfl hnode).trans ?_
      rw [htaken]
      simp only [waits, oneFileNode, Multiset.erase_singleton, oneFileLoaded, Multiset.replicate_succ,
        InodeTable.set, InodeTable.enter, oneFileMounted, Function.update_idem]
    rcases ih (count + 1) (Nat.succ_pos _) (by omega) with ⟨labels, hruns⟩
    rw [Nat.add_right_comm] at hruns
    exact ⟨_, .cons hwaits (.cons hloads hruns)⟩

/-- With 2^31 references to an inode its count is negative. Then no reclaim is left for them, and the
next of the holders that lets go stops at an assertion. -/
theorem not_lifetimeRight : ¬∀ (inos : List ℕ) (start : Holding ℕ), FreshlyMounted inos start →
    ∀ labels w, Runs (HoldingStep inos) start labels w → LifetimeRight inos w := by
  intro h
  rcases runs_oneFile with ⟨first, hfirst⟩
  rcases runs_oneFileLoaded (2 ^ 31 - 1) 1 one_pos le_rfl with ⟨more, hmore⟩
  have hruns := (hfirst.mono fun _ _ _ hstep ↦ hstep.1).append hmore
  have hcounts := (h [3] oneFileMounted freshlyMounted_oneFile _ _ hruns).counts 0 _ rfl
  have hreclaims : (1 : ℤ) = (0 : ℕ) + if 0 < int32 ((1 + (2 ^ 31 - 1) : ℕ) : ℤ) then 1 else 0 :=
    hcounts.2
  have hneg : ¬0 < int32 ((1 + (2 ^ 31 - 1) : ℕ) : ℤ) := by decide
  rw [if_neg hneg] at hreclaims
  exact absurd hreclaims (by decide)

end Ucore.Fs

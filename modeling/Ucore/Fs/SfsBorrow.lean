import Ucore.Fs.SfsLifetimeRun

/-!
# References that a call takes and gives back

A call loads inodes for its own use and drops them again. If nobody else runs in the meantime, an
inode that was in memory before has its old counters again, and one that was not is freed.
-/

namespace Ucore.Fs

open Library

/-- `sfs_load_inode`, with whether there is memory for a disk inode and for an inode. -/
def InodeTable.sfsLoadInode (t : InodeTable) (din node : Bool) (ino : ℕ) :
    Outcome (Ret ℕ × InodeTable) := do
  match ← loadStart t din ino with
  | (some ret, t) => return (ret, t)
  | (none, t) => loadRead t node ino

/-- `sfs_reclaim` from its first to its last part. -/
def sfsReclaim (t : InodeTable) (n : ℕ) : Outcome (Reclaiming × InodeTable) := do
  let (stage, t) ← reclaimStart t n
  let (stage, t) ← match stage with
    | .truncate => reclaimTruncate t n
    | stage => pure (stage, t)
  match stage with
  | .sync => reclaimSync t n
  | stage => return (stage, t)

/-- `vop_ref_dec`, which only prints what `vop_reclaim` returns. -/
def vopRefDec (t : InodeTable) (n : ℕ) : Outcome InodeTable := do
  let (last, t) ← inodeRefDec t n
  if last then
    let (_, t) ← sfsReclaim t n
    return t
  else return t

/-! ## Taking a reference -/

/-- The counters of an inode that nobody is about to free, with room for one more reference. -/
structure Node.Counted (node : Node) : Prop where
  opened : 0 ≤ node.openCount
  openCount_le : node.openCount ≤ node.refCount
  refCount_lt : node.refCount < INT_MAX
  reclaimCount_pos : 0 < node.reclaimCount
  reclaimCount_lt : node.refCount = 0 → node.reclaimCount < INT_MAX

/-- An inode with one more reference, or one that was loaded for this reference. -/
def borrowed (s : SfsFs) (ino : ℕ) : Option Node → Node
  | some node => node.taken
  | none => ⟨ino, s.dev.block ino, false, 1, 1, 0⟩

/-- The second table has one more reference to the inode `ino`, which is at `n`. -/
structure Borrowed (t t' : InodeTable) (ino n : ℕ) : Prop where
  consistent : t'.Consistent
  sfs : t'.sfs = t.sfs
  nodes : t'.nodes = Function.update t.nodes n (some (borrowed t.sfs ino (t.nodes n)))
  named : ∀ m node, t.nodes m = some node → (node.ino = ino ↔ m = n)

section Borrow

variable {t t' : InodeTable} {inos : List ℕ} {ino n m : ℕ} {node : Node}

theorem Node.Counted.taken_refCount (h : node.Counted) : node.taken.refCount = node.refCount + 1 :=
  int32_of_lt (Int.le_add_one (h.opened.trans h.openCount_le)) h.refCount_lt

theorem Node.Counted.taken_reclaimCount (h : node.Counted) :
    node.taken.reclaimCount = node.reclaimCount + if node.refCount = 0 then 1 else 0 := by
  have hsplit : node.taken.reclaimCount =
      if node.taken.refCount = 1 then int32 (node.reclaimCount + 1) else node.reclaimCount := rfl
  rw [hsplit, h.taken_refCount]
  by_cases hzero : node.refCount = 0
  · rw [if_pos (by omega), if_pos hzero]
    exact int32_of_lt (Int.le_add_one h.reclaimCount_pos.le) (h.reclaimCount_lt hzero)
  · rw [if_neg (by omega), if_neg hzero, Int.add_zero]

/-- The loads of a table: a reference to an inode that is there, or no memory. -/
theorem InodeTable.Consistent.sfsLoadInode (h : t.Consistent) (hstored : Stored inos t.sfs)
    (hino : ino ∈ inos) (din node : Bool) :
    (∃ n t', t.sfsLoadInode din node ino = .ok (.ok n, t') ∧ Borrowed t t' ino n) ∨
      t.sfsLoadInode din node ino = .ok (.error .noMem, t) ∧ ¬(din = true ∧ node = true) := by
  by_cases hcached : ∃ n node, t.nodes n = some node ∧ node.ino = ino
  · rcases hcached with ⟨n, found, hfound, rfl⟩
    refine Or.inl ⟨n, t.set n found.taken, ?_, ?_⟩
    · rw [InodeTable.sfsLoadInode, loadStart_found h hfound]
      rfl
    · refine ⟨h.set hfound rfl, rfl, ?_, fun m other hother ↦ ⟨fun hsame ↦ ?_, ?_⟩⟩
      · rw [hfound]
        rfl
      · exact h.unique m n other found hother hfound hsame
      · rintro rfl
        cases hother.symm.trans hfound
        rfl
  · have hno : ∀ n node, t.nodes n = some node → node.ino ≠ ino :=
      fun n node hnode hsame ↦ hcached ⟨n, node, hnode, hsame⟩
    have hrange := hstored.range ino hino
    have hinuse : sfsBlockInuse t.sfs ino = .ok true := by
      rw [sfsBlockInuse_eq hstored.geometry hrange.1 hrange.2,
        decide_eq_false (hstored.inuse ino hino)]
      rfl
    have hread : sfsRbuf t.sfs 64 ino 0 = .ok (.ok (t.sfs.dev.block ino)) := by
      rw [sfsRbuf_eq hstored.geometry hrange.1 hrange.2 (by decide) (by decide)]
      simp only [Nat.zero_add]
    rw [InodeTable.sfsLoadInode, loadStart_missing h hno hinuse]
    cases din with
    | false => exact Or.inr ⟨rfl, nofun⟩
    | true =>
      have hload := loadRead_eq hread (hstored.valid ino hino) node
      cases node with
      | false => exact Or.inr ⟨hload, nofun⟩
      | true =>
        have hnone : t.nodes t.next = none := h.none_of_le le_rfl
        refine Or.inl ⟨_, _, hload, h.enter hno, rfl, ?_, fun m other hother ↦ ⟨fun hsame ↦ ?_, ?_⟩⟩
        · rw [hnone]
          rfl
        · exact absurd hsame (hno m other hother)
        · rintro rfl
          cases hother.symm.trans hnone

/-- `vop_ref_inc`, by somebody who has a reference. -/
theorem InodeTable.Consistent.inodeRefInc (h : t.Consistent) (hnode : t.nodes n = some node)
    (hcounted : node.Counted) (hpos : 0 < node.refCount) :
    ∃ t', Fs.inodeRefInc t n = .ok (node.refCount + 1, t') ∧ Borrowed t t' node.ino n := by
  have href : int32 (node.refCount + 1) = node.refCount + 1 := hcounted.taken_refCount
  have hone : ¬node.refCount + 1 = 1 := by omega
  have htaken : node.taken = { node with refCount := node.refCount + 1 } := by
    simp only [Node.taken, href, if_neg hone]
  refine ⟨t.set n node.taken, ?_, h.set hnode rfl, rfl, ?_, fun m other hother ↦ ⟨?_, ?_⟩⟩
  · rw [Fs.inodeRefInc, InodeTable.node_eq hnode, htaken]
    simp only [Outcome.ok_bind, Outcome.pure_eq_ok, href]
  · rw [hnode]
    rfl
  · exact h.unique m n other node hother hnode
  · rintro rfl
    cases hother.symm.trans hnode
    rfl

/-! ## Giving it back -/

section Release

variable {din : Bytes} {dirty : Bool} {reclaimCount refCount openCount : ℤ}

theorem inodeRefDec_last (hnode : t.nodes n = some ⟨ino, din, dirty, reclaimCount, 1, 0⟩) :
    inodeRefDec t n = .ok (true, t.set n ⟨ino, din, dirty, reclaimCount, 0, 0⟩) := by
  have hbound : (0 : ℤ) < MAX_INODE_COUNT := by decide
  have hcheck : inodeCheck ⟨ino, din, dirty, reclaimCount, 0, 0⟩ = .ok () :=
    Outcome.require_of_true ⟨le_rfl, le_rfl, hbound, hbound⟩
  rw [inodeRefDec, InodeTable.node_eq hnode, Outcome.ok_bind, Outcome.require_of_true Int.one_pos,
    Outcome.ok_bind]
  simp only [sub_self, if_true, hcheck, Outcome.ok_bind, Outcome.pure_eq_ok]

/-- There are other references. -/
theorem vopRefDec_more
    (hnode : t.nodes n = some ⟨ino, din, dirty, reclaimCount, refCount + 1, openCount⟩)
    (hpos : 0 < refCount) :
    vopRefDec t n = .ok (t.set n ⟨ino, din, dirty, reclaimCount, refCount, openCount⟩) := by
  have hmore : ¬refCount = 0 := hpos.ne'
  have hsucc : 0 < refCount + 1 := by omega
  rw [vopRefDec, inodeRefDec, InodeTable.node_eq hnode]
  simp only [Outcome.ok_bind, Outcome.require_of_true hsucc, add_sub_cancel_right, if_neg hmore,
    Outcome.pure_eq_ok, Bool.false_eq_true, if_false]

/-- The last reference, and another reclaim is to come. -/
theorem vopRefDec_busy (hnode : t.nodes n = some ⟨ino, din, dirty, reclaimCount + 1, 1, 0⟩)
    (hpos : 0 < reclaimCount) :
    vopRefDec t n = .ok (t.set n ⟨ino, din, dirty, reclaimCount, 0, 0⟩) := by
  have hset := t.set_nodes_self n ⟨ino, din, dirty, reclaimCount + 1, 0, 0⟩
  have hsucc : 0 < reclaimCount + 1 := by omega
  have hbusy : reclaimCount ≠ 0 ∨ (0 : ℤ) ≠ 0 := Or.inl hpos.ne'
  rw [vopRefDec, inodeRefDec_last hnode]
  simp only [Outcome.ok_bind, if_true, sfsReclaim, reclaimStart, InodeTable.node_eq hset,
    Outcome.require_of_true hsucc, add_sub_cancel_right, if_pos hbusy, InodeTable.set_set,
    Outcome.pure_eq_ok]

/-- The last reference to an inode that has not changed since it was loaded. -/
theorem vopRefDec_clean (hnode : t.nodes n = some ⟨ino, din, false, 1, 1, 0⟩)
    (hlinks : diskNlinks din ≠ 0) :
    vopRefDec t n = .ok ((t.set n ⟨ino, din, false, 0, 0, 0⟩).leave n ino) := by
  have hset := t.set_nodes_self n ⟨ino, din, false, 1, 0, 0⟩
  have hlast := t.set_nodes_self n ⟨ino, din, false, 0, 0, 0⟩
  have hfree : ¬((0 : ℤ) ≠ 0 ∨ (0 : ℤ) ≠ 0) := by decide
  rw [vopRefDec, inodeRefDec_last hnode]
  simp only [Outcome.ok_bind, if_true, sfsReclaim, reclaimStart, InodeTable.node_eq hset,
    Outcome.require_of_true Int.one_pos, sub_self, if_neg hfree, if_neg hlinks, reclaimFlush,
    InodeTable.set_set, InodeTable.node_eq hlast, Bool.false_eq_true, if_false,
    reclaimFinish_eq hlast hlinks rfl rfl, Outcome.pure_eq_ok]

end Release

theorem vopRefDec_borrowed (h : t.Consistent) {old : Option Node}
    (hnode : t.nodes n = some (borrowed t.sfs ino old)) (hcounted : ∀ node ∈ old, node.Counted)
    (hvalid : ValidInode (t.sfs.dev.block ino)) : ∃ t', vopRefDec t n = .ok t' ∧ t'.Consistent ∧
      t'.sfs = t.sfs ∧ t'.nodes = Function.update t.nodes n old := by
  rcases old with _ | node
  · have hlast := t.set_nodes_self n ⟨ino, t.sfs.dev.block ino, false, 0, 0, 0⟩
    have hreset : (t.set n ⟨ino, t.sfs.dev.block ino, false, 0, 0, 0⟩).Consistent := h.set hnode rfl
    have hleft := hreset.leave hlast
    dsimp only at hleft
    refine ⟨_, vopRefDec_clean hnode hvalid.1, hleft, rfl, ?_⟩
    simp only [InodeTable.leave, InodeTable.set, Function.update_idem]
  · refine ⟨t.set n node, ?_, h.set hnode rfl, rfl, rfl⟩
    have hcount := hcounted node rfl
    have href := hcount.taken_refCount
    have hreclaims := hcount.taken_reclaimCount
    have htaken : borrowed t.sfs ino (some node) = ⟨node.ino, node.din, node.dirty,
        node.reclaimCount + if node.refCount = 0 then 1 else 0, node.refCount + 1,
        node.openCount⟩ := by
      rw [← href, ← hreclaims]
      rfl
    rw [htaken] at hnode
    rcases hcount with ⟨hopened, hle, -, hpos, -⟩
    rcases node with ⟨number, din, dirty, reclaimCount, refCount, openCount⟩
    dsimp only at hnode hopened hle hpos
    by_cases hzero : refCount = 0
    · subst hzero
      obtain rfl : openCount = 0 := hle.antisymm hopened
      exact vopRefDec_busy hnode hpos
    · rw [if_neg hzero, add_zero] at hnode
      exact vopRefDec_more hnode (lt_of_le_of_ne (hopened.trans hle) (Ne.symm hzero))

/-! ## A table in use -/

/-- An inode passes `inode_check`, and a reclaim of it can still be counted. -/
structure Node.Checked (node : Node) : Prop where
  check : inodeCheck node = .ok ()
  reclaimCount_pos : 0 < node.reclaimCount
  reclaimCount_lt : node.reclaimCount < INT_MAX

/-- The same inodes with the same counters, on the same file system. -/
structure Restored (t t' : InodeTable) : Prop where
  consistent : t'.Consistent
  sfs : t'.sfs = t.sfs
  nodes : t'.nodes = t.nodes

theorem Node.Checked.counted (h : node.Checked) : node.Counted := by
  rcases Outcome.require_eq_ok.mp h.check with ⟨hle, hopened, hlt, -⟩
  exact ⟨hopened, hle, hlt.trans (by decide), h.reclaimCount_pos, fun _ ↦ h.reclaimCount_lt⟩

theorem Node.Checked.taken (h : node.Checked) : node.taken.Counted := by
  rcases Outcome.require_eq_ok.mp h.check with ⟨hle, hopened, hlt, -⟩
  have href := h.counted.taken_refCount
  have hreclaims := h.counted.taken_reclaimCount
  have hpos := h.reclaimCount_pos
  have hmax : MAX_INODE_COUNT + 1 < INT_MAX := by decide
  refine ⟨hopened, ?_, ?_, ?_, ?_⟩
  · rw [href]
    exact Int.le_add_one hle
  · rw [href]
    omega
  · rw [hreclaims]
    split <;> omega
  · intro hzero
    omega

theorem counted_borrowed {s : SfsFs} {old : Option Node} (h : ∀ node ∈ old, node.Checked) :
    (borrowed s ino old).Counted := by
  cases old with
  | none =>
    have hmax : (1 : ℤ) < INT_MAX := by decide
    exact ⟨le_rfl, Int.one_nonneg, hmax, Int.one_pos, nofun⟩
  | some node => exact (h node rfl).taken

theorem Borrowed.at_place (h : Borrowed t t' ino n) :
    t'.nodes n = some (borrowed t.sfs ino (t.nodes n)) := by
  rw [h.nodes]
  exact Function.update_self ..

/-- A reference that was taken is given back. -/
theorem Borrowed.giveBack (h : Borrowed t t' ino n) (hcounted : ∀ node ∈ t.nodes n, node.Counted)
    (hvalid : ValidInode (t.sfs.dev.block ino)) : ∃ t'', vopRefDec t' n = .ok t'' ∧ Restored t t'' := by
  have hnode := h.at_place
  rw [← h.sfs] at hnode hvalid
  rcases vopRefDec_borrowed h.consistent hnode hcounted hvalid with
    ⟨t'', hcall, hconsistent, hsfs, hnodes⟩
  refine ⟨t'', hcall, hconsistent, hsfs.trans h.sfs, ?_⟩
  rw [hnodes, h.nodes, Function.update_idem, Function.update_eq_self]

theorem borrowed_ino {s : SfsFs} {old : Option Node} (h : ∀ node ∈ old, node.ino = ino) :
    (borrowed s ino old).ino = ino := by
  cases old with
  | none => rfl
  | some node => exact h node rfl

theorem Borrowed.node_ino (h : Borrowed t t' ino n) :
    (borrowed t.sfs ino (t.nodes n)).ino = ino :=
  borrowed_ino fun node hnode ↦ (h.named n node hnode).mpr rfl

variable {t'' : InodeTable} {other : ℕ}

/-- Two references are to one place exactly when they are to one inode. -/
theorem Borrowed.place_iff (h : Borrowed t t' ino n) (hnext : Borrowed t' t'' other m) :
    ino = other ↔ n = m := by
  have hnamed := hnext.named n _ h.at_place
  rwa [h.node_ino] at hnamed

/-- One reference is taken with the help of another one, which is given back then. -/
theorem Borrowed.handOver (h : Borrowed t t' ino n) (hnext : Borrowed t' t'' other m)
    (hne : ino ≠ other) (hcounted : ∀ node ∈ t.nodes n, node.Counted)
    (hvalid : ValidInode (t.sfs.dev.block ino)) :
    ∃ last, vopRefDec t'' n = .ok last ∧ Borrowed t last other m := by
  have hplace : n ≠ m := fun heq ↦ hne ((h.place_iff hnext).mpr heq)
  have hsfs : t''.sfs = t.sfs := hnext.sfs.trans h.sfs
  have hold : t'.nodes m = t.nodes m := by
    rw [h.nodes]
    exact Function.update_of_ne hplace.symm ..
  have hnode : t''.nodes n = some (borrowed t''.sfs ino (t.nodes n)) := by
    rw [hnext.nodes, Function.update_of_ne hplace, hsfs]
    exact h.at_place
  rw [← hsfs] at hvalid
  rcases vopRefDec_borrowed hnext.consistent hnode hcounted hvalid with
    ⟨last, hcall, hconsistent, hlast, hnodes⟩
  refine ⟨last, hcall, hconsistent, hlast.trans hsfs, ?_, fun k node hk ↦ ?_⟩
  · have hself : Function.update t'.nodes n (t.nodes n) = t.nodes := by
      rw [h.nodes, Function.update_idem, Function.update_eq_self]
    rw [hnodes, hnext.nodes, Function.update_comm hplace.symm, hself, hold, h.sfs]
  · by_cases hkn : k = n
    · subst hkn
      refine iff_of_false ?_ hplace
      rw [(h.named k node hk).mpr rfl]
      exact hne
    · refine hnext.named k node ?_
      rw [h.nodes, Function.update_of_ne hkn]
      exact hk

/-- Two references to one inode are given back. -/
theorem Borrowed.giveBackBoth (h : Borrowed t t' ino n) (hnext : Borrowed t' t'' ino n)
    (hchecked : ∀ node ∈ t.nodes n, node.Checked) (hvalid : ValidInode (t.sfs.dev.block ino)) :
    ∃ middle last, vopRefDec t'' n = .ok middle ∧ vopRefDec middle n = .ok last ∧
      Restored t last := by
  have htwice : ∀ node ∈ t'.nodes n, node.Counted := by
    rw [h.at_place]
    rintro node hnode
    cases hnode
    exact counted_borrowed hchecked
  rcases hnext.giveBack htwice (h.sfs ▸ hvalid) with ⟨middle, hfirst, hmiddle⟩
  have hback : Borrowed t middle ino n :=
    ⟨hmiddle.consistent, hmiddle.sfs.trans h.sfs, hmiddle.nodes.trans h.nodes, h.named⟩
  rcases hback.giveBack (fun node hnode ↦ (hchecked node hnode).counted) hvalid with
    ⟨last, hsecond, hlast⟩
  exact ⟨middle, last, hfirst, hsecond, hlast⟩

end Borrow

end Ucore.Fs

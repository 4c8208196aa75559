import Ucore.Fs.Inode
import Ucore.Fs.SfsInodeTable
import Ucore.Libs.String
import Mathlib.Algebra.Group.Pi.Basic
import Mathlib.Data.BitVec
import Mathlib.Data.Multiset.Count
import Mathlib.Tactic.Abel

/-!
# Opening a path

`vfs_open` and what it calls in `vfslookup.c`, with the counts of every inode. What the file systems
below answer is left open: an answer that names an inode comes with a reference to it. An inode that
is not in memory has no references.
-/

namespace Ucore.Fs

open Library

def COLON : UInt8 := 58
def SLASH : UInt8 := 47

/-- The two counts of an inode, which are of type `int`, and whether it is in memory. -/
structure Counts (Inode : Type) where
  refs : Inode → BitVec 32
  opens : Inode → BitVec 32
  loaded : Inode → Bool

/-- What one call finds below: the working directory, the root of the boot file system, the roots of
devices and of file systems, and the answers of the operations. -/
structure Below (Inode : Type) where
  pwd : Option Inode
  bootfs : Option Inode
  root : List UInt8 → Ret Inode
  /-- A device belongs to no file system. -/
  fsRoot : Inode → Option Inode
  lookup : Inode → List UInt8 → Ret Inode
  create : Inode → List UInt8 → Bool → Ret Inode
  vopOpen : Inode → BitVec 32 → Ret Unit
  truncate : Inode → Ret Unit

section Counting

variable {Inode : Type} [DecidableEq Inode]

namespace Counts

def refInc (c : Counts Inode) (n : Inode) : Counts Inode :=
  { c with refs := Function.update c.refs n (c.refs n + 1), loaded := Function.update c.loaded n true }

def openInc (c : Counts Inode) (n : Inode) : Counts Inode :=
  { c with opens := Function.update c.opens n (c.opens n + 1) }

/-- `inode_check`, before every operation of an inode. -/
def check (c : Counts Inode) (n : Inode) : Outcome Unit :=
  Outcome.require ((c.opens n).toInt ≤ (c.refs n).toInt ∧ 0 ≤ (c.opens n).toInt ∧
    (c.refs n).toInt < MAX_INODE_COUNT ∧ (c.opens n).toInt < MAX_INODE_COUNT)

/-- `inode_ref_dec`. With the last reference the inode is reclaimed. -/
def refDec (c : Counts Inode) (n : Inode) : Outcome (Counts Inode) := do
  Outcome.require (0 < (c.refs n).toInt)
  let c := { c with refs := Function.update c.refs n (c.refs n - 1) }
  if c.refs n = 0 then
    c.check n
    return { c with loaded := Function.update c.loaded n false }
  else return c

/-- `inode_open_dec`. -/
def openDec (c : Counts Inode) (n : Inode) : Outcome (Counts Inode) := do
  Outcome.require (0 < (c.opens n).toInt)
  let c := { c with opens := Function.update c.opens n (c.opens n - 1) }
  if c.opens n = 0 then
    c.check n
    return c
  else return c

end Counts

/-- The leading slashes of a path are skipped. -/
def skipSlashes (path : List UInt8) : List UInt8 := path.dropWhile (· == SLASH)

def vfsGetCurdir (below : Below Inode) (c : Counts Inode) : Ret Inode × Counts Inode :=
  match below.pwd with
  | some n => (.ok n, c.refInc n)
  | none => (.error .noEnt, c)

def vfsGetBootfs (below : Below Inode) (c : Counts Inode) : Ret Inode × Counts Inode :=
  match below.bootfs with
  | some n => (.ok n, c.refInc n)
  | none => (.error .noEnt, c)

def vfsGetRoot (below : Below Inode) (c : Counts Inode) (devname : List UInt8) :
    Ret Inode × Counts Inode :=
  match below.root devname with
  | .ok n => (.ok n, c.refInc n)
  | .error code => (.error code, c)

/-- `get_device`: the inode to begin with and the rest of the path. The colon after the name of a
device is overwritten, so that the path ends there for the next call. -/
def getDevice (below : Below Inode) (c : Counts Inode) (path : List UInt8) :
    Outcome (Ret (Inode × List UInt8) × Counts Inode × List UInt8) := do
  let head := path.takeWhile fun letter ↦ letter != COLON && letter != SLASH
  let rest := path.drop head.length
  match rest with
  | letter :: rest =>
    if letter = COLON ∧ head ≠ [] then
      let (ret, c) := vfsGetRoot below c head
      return (ret.map (·, skipSlashes rest), c, head)
    else if letter = SLASH ∧ head ≠ [] then
      let (ret, c) := vfsGetCurdir below c
      return (ret.map (·, path), c, path)
    else if letter = SLASH then
      let (ret, c) := vfsGetBootfs below c
      return (ret.map (·, skipSlashes rest), c, path)
    else
      match vfsGetCurdir below c with
      | (.error code, c) => return (.error code, c, path)
      | (.ok node, c) =>
        match below.fsRoot node with
        | none => .error .panic
        | some top =>
          let c ← (c.refInc top).refDec node
          return (.ok (top, skipSlashes rest), c, path)
  | [] =>
    let (ret, c) := vfsGetCurdir below c
    return (ret.map (·, path), c, path)

def vfsLookup (below : Below Inode) (c : Counts Inode) (path : List UInt8) :
    Outcome (Ret Inode × Counts Inode × List UInt8) := do
  match ← getDevice below c path with
  | (.error code, c, path) => return (.error code, c, path)
  | (.ok (node, subpath), c, path) =>
    if subpath ≠ [] then
      c.check node
      match below.lookup node subpath with
      | .ok found =>
        let c ← (c.refInc found).refDec node
        return (.ok found, c, path)
      | .error code =>
        let c ← c.refDec node
        return (.error code, c, path)
    else return (.ok node, c, path)

/-- `vfs_lookup_parent`: the directory and the name. -/
def vfsLookupParent (below : Below Inode) (c : Counts Inode) (path : List UInt8) :
    Outcome (Ret (Inode × List UInt8) × Counts Inode) := do
  let (ret, c, _) ← getDevice below c path
  return (ret, c)

/-- `vfs_open` from `vop_open` on. -/
def vfsOpenNode (below : Below Inode) (c : Counts Inode) (node : Inode) (openFlags : BitVec 32) :
    Outcome (Ret Inode × Counts Inode) := do
  c.check node
  match below.vopOpen node openFlags with
  | .error code => return (.error code, ← c.refDec node)
  | .ok () =>
    let c := c.openInc node
    if Has openFlags O_TRUNC ∨ Has openFlags O_CREAT then
      c.check node
      match below.truncate node with
      | .error code => return (.error code, ← (← c.openDec node).refDec node)
      | .ok () => return (.ok node, c)
    else return (.ok node, c)

/-- `vfs_open`. When `vop_create` fails, its return code is dropped and the pointer that the code
goes on with was never set. -/
def vfsOpen (below : Below Inode) (c : Counts Inode) (path : List UInt8) (openFlags : BitVec 32) :
    Outcome (Ret Inode × Counts Inode) := do
  match vfsOpenCheck openFlags with
  | .error code => return (.error code, c)
  | .ok () =>
    match ← vfsLookup below c path with
    | (.error code, c, path) =>
      if code = .noEnt ∧ Has openFlags O_CREAT then
        match ← vfsLookupParent below c path with
        | (.error code, c) => return (.error code, c)
        | (.ok (dir, name), c) =>
          c.check dir
          match below.create dir name (Has openFlags O_EXCL) with
          | .error _ => .error .panic
          | .ok node => vfsOpenNode below (c.refInc node) node openFlags
      else return (.error code, c)
    | (.ok node, c, _) =>
      if Has openFlags O_EXCL ∧ Has openFlags O_CREAT then return (.error .exists, c)
      else vfsOpenNode below c node openFlags

/-- `vfs_close`. -/
def vfsClose (c : Counts Inode) (node : Inode) : Outcome (Counts Inode) := do
  (← c.openDec node).refDec node

/-! ## `sfs_lookup` and `dev_lookup` -/

/-- `sfs_lookup`, with the type of the inode and what `sfs_lookup_once` answers. -/
def sfsLookup (c : Counts Inode) (node : Inode) (type : ℕ) (once : Ret Inode) :
    Outcome (Ret Inode × Counts Inode) := do
  let c := c.refInc node
  if type ≠ SFS_TYPE_DIR then return (.error .notDir, ← c.refDec node)
  match once with
  | .ok found => return (.ok found, ← (c.refInc found).refDec node)
  | .error code => return (.error code, ← c.refDec node)

def devLookup (c : Counts Inode) (node : Inode) (path : List UInt8) : Ret Inode × Counts Inode :=
  if path ≠ [] then (.error .noEnt, c) else (.ok node, c.refInc node)

end Counting

/-! ## What a call does to the counts -/

section Balance

variable {Inode : Type} [DecidableEq Inode] {below : Below Inode} {c next : Counts Inode} {n : Inode}
  {path : List UInt8} {openFlags : BitVec 32} {ret : Ret Inode}

/-- An open that fails leaves every count as it was, and one that succeeds adds one to both counts of
its inode. -/
def Balanced (c : Counts Inode) (ret : Ret Inode) (next : Counts Inode) : Prop :=
  match ret with
  | .error _ => next.refs = c.refs ∧ next.opens = c.opens
  | .ok n => next.refs = c.refs + Pi.single n 1 ∧ next.opens = c.opens + Pi.single n 1

/-- `O_CREAT` is set, and either the path leads to an inode and `O_EXCL` is set as well, or the path
leads nowhere and its first part leads to a directory. -/
def Leaks (below : Below Inode) (c : Counts Inode) (path : List UInt8) (openFlags : BitVec 32) :
    Prop :=
  vfsOpenCheck openFlags = .ok () ∧ Has openFlags O_CREAT ∧
    ∃ ret after rest, vfsLookup below c path = .ok (ret, after, rest) ∧ match ret with
      | .ok _ => Has openFlags O_EXCL
      | .error code => code = .noEnt ∧
        ∃ parent last, vfsLookupParent below after rest = .ok (.ok parent, last)

theorem update_add_one (counts : Inode → BitVec 32) (n : Inode) :
    Function.update counts n (counts n + 1) = counts + Pi.single n 1 := by
  funext m
  by_cases h : m = n
  · subst h
    simp
  · simp [h]

theorem update_sub_one (counts : Inode → BitVec 32) (n : Inode) :
    Function.update counts n (counts n - 1) = counts - Pi.single n 1 := by
  funext m
  by_cases h : m = n
  · subst h
    simp
  · simp [h]

theorem single_one_ne_zero (n : Inode) : (Pi.single n 1 : Inode → BitVec 32) ≠ 0 := by
  intro h
  have hone := congrFun h n
  rw [Pi.single_eq_same] at hone
  change (1 : BitVec 32) = 0 at hone
  exact absurd hone (by decide)

@[simp]
theorem refInc_refs (c : Counts Inode) (n : Inode) : (c.refInc n).refs = c.refs + Pi.single n 1 :=
  update_add_one c.refs n

@[simp]
theorem refInc_opens (c : Counts Inode) (n : Inode) : (c.refInc n).opens = c.opens := rfl

@[simp]
theorem openInc_refs (c : Counts Inode) (n : Inode) : (c.openInc n).refs = c.refs := rfl

@[simp]
theorem openInc_opens (c : Counts Inode) (n : Inode) :
    (c.openInc n).opens = c.opens + Pi.single n 1 := update_add_one c.opens n

theorem refDec_ok (h : c.refDec n = .ok next) :
    next.refs = c.refs - Pi.single n 1 ∧ next.opens = c.opens := by
  rw [Counts.refDec] at h
  rcases Outcome.bind_eq_ok.mp h with ⟨_, -, h⟩
  rw [← update_sub_one]
  dsimp only at h
  split at h
  · rcases Outcome.bind_eq_ok.mp h with ⟨_, -, h⟩
    cases h
    exact ⟨rfl, rfl⟩
  · cases h
    exact ⟨rfl, rfl⟩

theorem openDec_ok (h : c.openDec n = .ok next) :
    next.opens = c.opens - Pi.single n 1 ∧ next.refs = c.refs := by
  rw [Counts.openDec] at h
  rcases Outcome.bind_eq_ok.mp h with ⟨_, -, h⟩
  rw [← update_sub_one]
  dsimp only at h
  split at h
  · rcases Outcome.bind_eq_ok.mp h with ⟨_, -, h⟩
    cases h
    exact ⟨rfl, rfl⟩
  · cases h
    exact ⟨rfl, rfl⟩

/-- The caller has a reference to the inode in the answer, and there is no other change. -/
def Answered (c : Counts Inode) (ret : Ret Inode) (next : Counts Inode) : Prop :=
  next.opens = c.opens ∧ match ret with
    | .error _ => next.refs = c.refs
    | .ok n => next.refs = c.refs + Pi.single n 1

theorem answered_vfsGetCurdir (below : Below Inode) (c : Counts Inode) :
    Answered c (vfsGetCurdir below c).1 (vfsGetCurdir below c).2 := by
  unfold vfsGetCurdir
  split
  · exact ⟨rfl, refInc_refs ..⟩
  · exact ⟨rfl, rfl⟩

theorem answered_vfsGetBootfs (below : Below Inode) (c : Counts Inode) :
    Answered c (vfsGetBootfs below c).1 (vfsGetBootfs below c).2 := by
  unfold vfsGetBootfs
  split
  · exact ⟨rfl, refInc_refs ..⟩
  · exact ⟨rfl, rfl⟩

theorem answered_vfsGetRoot (below : Below Inode) (c : Counts Inode) (devname : List UInt8) :
    Answered c (vfsGetRoot below c devname).1 (vfsGetRoot below c devname).2 := by
  unfold vfsGetRoot
  split
  · exact ⟨rfl, refInc_refs ..⟩
  · exact ⟨rfl, rfl⟩

theorem Answered.of_map {subpath : List UInt8} {answer : Ret (Inode × List UInt8)}
    (h : Answered c ret next) (hanswer : answer = ret.map (·, subpath)) :
    Answered c (answer.map Prod.fst) next := by
  subst hanswer
  cases ret <;> exact h

theorem getDevice_ok {answer : Ret (Inode × List UInt8)} {rest : List UInt8}
    (h : getDevice below c path = .ok (answer, next, rest)) :
    Answered c (answer.map Prod.fst) next := by
  rw [getDevice] at h
  dsimp only at h
  split at h
  · split at h
    · cases h
      exact (answered_vfsGetRoot ..).of_map rfl
    · split at h
      · cases h
        exact (answered_vfsGetCurdir ..).of_map rfl
      · split at h
        · cases h
          exact (answered_vfsGetBootfs ..).of_map rfl
        · -- the root of the file system of the working directory
          have hcurdir := answered_vfsGetCurdir below c
          split at h
          · rename_i code after heq
            cases h
            rw [heq] at hcurdir
            exact hcurdir
          · rename_i node after heq
            rw [heq] at hcurdir
            split at h
            · cases h
            · rcases Outcome.bind_eq_ok.mp h with ⟨last, hdec, h⟩
              cases h
              rcases refDec_ok hdec with ⟨hrefs, hopens⟩
              refine ⟨hopens.trans hcurdir.1, ?_⟩
              change next.refs = _
              rw [hrefs, refInc_refs, hcurdir.2]
              abel
  · cases h
    exact (answered_vfsGetCurdir ..).of_map rfl

theorem vfsLookup_ok {rest : List UInt8} (h : vfsLookup below c path = .ok (ret, next, rest)) :
    Answered c ret next := by
  rw [vfsLookup] at h
  rcases Outcome.bind_eq_ok.mp h with ⟨⟨answer, after, left⟩, hdevice, h⟩
  have hanswered := getDevice_ok hdevice
  cases answer with
  | error code =>
    cases h
    exact hanswered
  | ok found =>
    rcases found with ⟨node, subpath⟩
    dsimp only at h
    split at h
    · rcases Outcome.bind_eq_ok.mp h with ⟨_, -, h⟩
      split at h
      · rcases Outcome.bind_eq_ok.mp h with ⟨last, hdec, h⟩
        cases h
        rcases refDec_ok hdec with ⟨hrefs, hopens⟩
        refine ⟨hopens.trans hanswered.1, ?_⟩
        change next.refs = _
        rw [hrefs, refInc_refs, hanswered.2]
        abel
      · rcases Outcome.bind_eq_ok.mp h with ⟨last, hdec, h⟩
        cases h
        rcases refDec_ok hdec with ⟨hrefs, hopens⟩
        refine ⟨hopens.trans hanswered.1, ?_⟩
        change next.refs = _
        rw [hrefs, hanswered.2, add_sub_cancel_right]
    · cases h
      exact hanswered

theorem vfsOpenNode_ok {node : Inode} (h : vfsOpenNode below c node openFlags = .ok (ret, next)) :
    match ret with
    | .error _ => next.refs = c.refs - Pi.single node 1 ∧ next.opens = c.opens
    | .ok n => n = node ∧ next.refs = c.refs ∧ next.opens = c.opens + Pi.single node 1 := by
  rw [vfsOpenNode] at h
  rcases Outcome.bind_eq_ok.mp h with ⟨_, -, h⟩
  split at h
  · rcases Outcome.bind_eq_ok.mp h with ⟨last, hdec, h⟩
    cases h
    exact refDec_ok hdec
  · dsimp only at h
    split at h
    · rcases Outcome.bind_eq_ok.mp h with ⟨_, -, h⟩
      split at h
      · rcases Outcome.bind_eq_ok.mp h with ⟨closed, hclose, h⟩
        rcases Outcome.bind_eq_ok.mp h with ⟨last, hdec, h⟩
        cases h
        rcases openDec_ok hclose with ⟨hopens, hrefs⟩
        rcases refDec_ok hdec with ⟨hrefs', hopens'⟩
        refine ⟨?_, ?_⟩
        · rw [hrefs', hrefs, openInc_refs]
        · rw [hopens', hopens, openInc_opens, add_sub_cancel_right]
      · cases h
        exact ⟨rfl, rfl, openInc_opens ..⟩
    · cases h
      exact ⟨rfl, rfl, openInc_opens ..⟩

/-- `sfs_lookup` answers as its callers expect, whatever `sfs_lookup_once` has found. -/
theorem sfsLookup_ok {node : Inode} {type : ℕ} {once : Ret Inode}
    (h : sfsLookup c node type once = .ok (ret, next)) : Answered c ret next := by
  unfold sfsLookup at h
  dsimp only at h
  split at h
  · rcases Outcome.bind_eq_ok.mp h with ⟨last, hdec, h⟩
    cases h
    rcases refDec_ok hdec with ⟨hrefs, hopens⟩
    refine ⟨hopens, ?_⟩
    change next.refs = _
    rw [hrefs, refInc_refs, add_sub_cancel_right]
  · split at h
    · rcases Outcome.bind_eq_ok.mp h with ⟨last, hdec, h⟩
      cases h
      rcases refDec_ok hdec with ⟨hrefs, hopens⟩
      refine ⟨hopens, ?_⟩
      change next.refs = _
      rw [hrefs, refInc_refs, refInc_refs]
      abel
    · rcases Outcome.bind_eq_ok.mp h with ⟨last, hdec, h⟩
      cases h
      rcases refDec_ok hdec with ⟨hrefs, hopens⟩
      refine ⟨hopens, ?_⟩
      change next.refs = _
      rw [hrefs, refInc_refs, add_sub_cancel_right]

theorem answered_devLookup (c : Counts Inode) (node : Inode) (path : List UInt8) :
    Answered c (devLookup c node path).1 (devLookup c node path).2 := by
  unfold devLookup
  split
  · exact ⟨rfl, rfl⟩
  · exact ⟨rfl, refInc_refs ..⟩

theorem balanced_iff (h : vfsOpen below c path openFlags = .ok (ret, next)) :
    Balanced c ret next ↔ ¬Leaks below c path openFlags := by
  rw [vfsOpen] at h
  cases hcheck : vfsOpenCheck openFlags with
  | error code =>
    rw [hcheck] at h
    cases h
    refine iff_of_true ⟨rfl, rfl⟩ ?_
    rintro ⟨hok, -⟩
    cases hcheck.symm.trans hok
  | ok value =>
    rw [hcheck] at h
    rcases Outcome.bind_eq_ok.mp h with ⟨⟨found, after, rest⟩, hlookup, h⟩
    have hanswered := vfsLookup_ok hlookup
    have hsame : ∀ other last left, vfsLookup below c path = .ok (other, last, left) →
        other = found ∧ last = after ∧ left = rest := by
      intro other last left hother
      cases hlookup.symm.trans hother
      exact ⟨rfl, rfl, rfl⟩
    cases found with
    | error code =>
      dsimp only at h
      by_cases hcreate : code = .noEnt ∧ Has openFlags O_CREAT
      · rw [if_pos hcreate] at h
        rcases Outcome.bind_eq_ok.mp h with ⟨⟨parent, more⟩, hparent, h⟩
        have hparent' := hparent
        rw [vfsLookupParent] at hparent'
        rcases Outcome.bind_eq_ok.mp hparent' with ⟨⟨same, last, left⟩, hdevice, heq⟩
        cases heq
        have hdir := getDevice_ok hdevice
        cases parent with
        | error code =>
          cases h
          refine iff_of_true ⟨hdir.2.trans hanswered.2, hdir.1.trans hanswered.1⟩ ?_
          rintro ⟨-, -, other, last, left, hother, hleak⟩
          rcases hsame other last left hother with ⟨rfl, rfl, rfl⟩
          rcases hleak with ⟨-, parent, final, hfound⟩
          cases hparent.symm.trans hfound
        | ok place =>
          rcases place with ⟨dir, name⟩
          -- the reference to the directory is still there at the end
          refine iff_of_false ?_ (not_not.mpr ⟨hcheck, hcreate.2, _, _, _, hlookup, hcreate.1, _, _,
            hparent⟩)
          rcases Outcome.bind_eq_ok.mp h with ⟨_, -, h⟩
          have hmore : more.refs = c.refs + Pi.single dir 1 := by
            rw [hdir.2, hanswered.2]
          have hleft : ∀ {counts other : Inode → BitVec 32}, counts = other →
              counts ≠ other + Pi.single dir 1 := by
            rintro counts _ rfl heq
            exact single_one_ne_zero dir (left_eq_add.mp heq)
          split at h
          · cases h
          · rename_i node heq
            have hopened := vfsOpenNode_ok h
            cases ret with
            | error code =>
              rintro ⟨hrefs, -⟩
              apply hleft hrefs
              rw [hopened.1, refInc_refs, hmore, add_sub_cancel_right]
            | ok n =>
              rcases hopened with ⟨rfl, hrefs', -⟩
              rintro ⟨hrefs, -⟩
              apply hleft hrefs
              rw [hrefs', refInc_refs, hmore]
              abel
      · rw [if_neg hcreate] at h
        cases h
        refine iff_of_true ⟨hanswered.2, hanswered.1⟩ ?_
        rintro ⟨-, hhas, other, last, left, hother, hleak⟩
        rcases hsame other last left hother with ⟨rfl, rfl, rfl⟩
        exact hcreate ⟨hleak.1, hhas⟩
    | ok node =>
      dsimp only at h
      by_cases hexcl : Has openFlags O_EXCL ∧ Has openFlags O_CREAT
      · rw [if_pos hexcl] at h
        cases h
        refine iff_of_false ?_ (not_not.mpr ⟨hcheck, hexcl.2, _, _, _, hlookup, hexcl.1⟩)
        rintro ⟨hrefs, -⟩
        exact single_one_ne_zero node (left_eq_add.mp (hrefs.symm.trans hanswered.2))
      · rw [if_neg hexcl] at h
        have hopened := vfsOpenNode_ok h
        refine iff_of_true ?_ ?_
        · cases ret with
          | error code =>
            refine ⟨?_, hopened.2.trans hanswered.1⟩
            rw [hopened.1, hanswered.2, add_sub_cancel_right]
          | ok n =>
            rcases hopened with ⟨rfl, hrefs, hopens⟩
            exact ⟨hrefs.trans hanswered.2, hopens.trans (congrArg (· + _) hanswered.1)⟩
        · rintro ⟨-, hhas, other, last, left, hother, hleak⟩
          rcases hsame other last left hother with ⟨rfl, rfl, rfl⟩
          exact hexcl ⟨hleak, hhas⟩

/-! ## Which inodes are in memory -/

/-- Counts below a bound, and no inode in memory without a reference. -/
structure Live (bound : ℕ) (c : Counts Inode) : Prop where
  low : ∀ m, (c.refs m).toNat < bound
  loaded : ∀ m, c.loaded m → c.refs m ≠ 0

variable {bound : ℕ}

omit [DecidableEq Inode] in
theorem Live.mono (h : Live bound c) {higher : ℕ} (hle : bound ≤ higher) : Live higher c :=
  ⟨fun m ↦ (h.low m).trans_le hle, h.loaded⟩

theorem Live.refInc (h : Live bound c) (hbound : bound < 2 ^ 32) (n : Inode) :
    Live (bound + 1) (c.refInc n) := by
  have hsucc : (c.refs n + 1).toNat = (c.refs n).toNat + 1 := by
    have hlow := h.low n
    have hone : (1 : BitVec 32).toNat = 1 := rfl
    rw [BitVec.toNat_add, hone]
    exact Nat.mod_eq_of_lt (by omega)
  constructor
  · intro m
    by_cases hm : m = n
    · subst hm
      change (Function.update c.refs m (c.refs m + 1) m).toNat < _
      rw [Function.update_self, hsucc]
      exact Nat.succ_lt_succ (h.low m)
    · change (Function.update c.refs n (c.refs n + 1) m).toNat < _
      rw [Function.update_of_ne hm]
      exact (h.low m).trans (Nat.lt_succ_self _)
  · intro m hloaded
    by_cases hm : m = n
    · subst hm
      change Function.update c.refs m (c.refs m + 1) m ≠ 0
      rw [Function.update_self]
      intro hzero
      rw [hzero] at hsucc
      exact absurd hsucc (Nat.succ_ne_zero _).symm
    · change Function.update c.loaded n true m at hloaded
      rw [Function.update_of_ne hm] at hloaded
      change Function.update c.refs n (c.refs n + 1) m ≠ 0
      rw [Function.update_of_ne hm]
      exact h.loaded m hloaded

theorem Live.refDec (h : Live bound c) (hdec : c.refDec n = .ok next) : Live bound next := by
  rw [Counts.refDec] at hdec
  rcases Outcome.bind_eq_ok.mp hdec with ⟨_, hpos, hdec⟩
  have hpos : 0 < (c.refs n).toInt := Outcome.require_eq_ok.mp hpos
  have hpred : (c.refs n - 1).toNat < (c.refs n).toNat := by
    have hne : (c.refs n).toNat ≠ 0 := by
      intro hzero
      have heq : c.refs n = 0 := BitVec.eq_of_toNat_eq hzero
      rw [heq] at hpos
      exact absurd hpos (by decide)
    have hlt := (c.refs n).isLt
    have hone : (1 : BitVec 32).toNat = 1 := rfl
    rw [BitVec.toNat_sub, hone]
    omega
  have hlow : ∀ m, (Function.update c.refs n (c.refs n - 1) m).toNat < bound := by
    intro m
    by_cases hm : m = n
    · subst hm
      rw [Function.update_self]
      exact hpred.trans (h.low m)
    · rw [Function.update_of_ne hm]
      exact h.low m
  dsimp only at hdec
  split at hdec
  · rcases Outcome.bind_eq_ok.mp hdec with ⟨_, -, hdec⟩
    cases hdec
    refine ⟨hlow, fun m hloaded ↦ ?_⟩
    change Function.update c.loaded n false m at hloaded
    have hm : m ≠ n := by
      rintro rfl
      rw [Function.update_self] at hloaded
      cases hloaded
    rw [Function.update_of_ne hm] at hloaded
    change Function.update c.refs n (c.refs n - 1) m ≠ 0
    rw [Function.update_of_ne hm]
    exact h.loaded m hloaded
  · rename_i hmore
    cases hdec
    refine ⟨hlow, fun m hloaded ↦ ?_⟩
    by_cases hm : m = n
    · subst hm
      exact hmore
    · change Function.update c.refs n (c.refs n - 1) m ≠ 0
      rw [Function.update_of_ne hm]
      exact h.loaded m hloaded

theorem Live.openDec (h : Live bound c) (hdec : c.openDec n = .ok next) : Live bound next := by
  rw [Counts.openDec] at hdec
  rcases Outcome.bind_eq_ok.mp hdec with ⟨_, -, hdec⟩
  dsimp only at hdec
  split at hdec
  · rcases Outcome.bind_eq_ok.mp hdec with ⟨_, -, hdec⟩
    cases hdec
    exact ⟨h.low, h.loaded⟩
  · cases hdec
    exact ⟨h.low, h.loaded⟩

theorem Live.vfsGetCurdir (h : Live bound c) (hbound : bound < 2 ^ 32) (below : Below Inode) :
    Live (bound + 1) (vfsGetCurdir below c).2 := by
  unfold Fs.vfsGetCurdir
  split
  · exact h.refInc hbound _
  · exact h.mono (Nat.le_succ _)

theorem Live.getDevice (h : Live bound c) (hbound : bound + 1 < 2 ^ 32)
    {answer : Ret (Inode × List UInt8)} {rest : List UInt8}
    (hcall : getDevice below c path = .ok (answer, next, rest)) : Live (bound + 2) next := by
  have hlt : bound < 2 ^ 32 := Nat.lt_of_succ_lt hbound
  have hcurdir := h.vfsGetCurdir hlt below
  rw [Fs.getDevice] at hcall
  dsimp only at hcall
  split at hcall
  · split at hcall
    · cases hcall
      unfold Fs.vfsGetRoot
      split
      · exact (h.refInc hlt _).mono (Nat.le_succ _)
      · exact h.mono (Nat.le_add_right ..)
    · split at hcall
      · cases hcall
        exact hcurdir.mono (Nat.le_succ _)
      · split at hcall
        · cases hcall
          unfold Fs.vfsGetBootfs
          split
          · exact (h.refInc hlt _).mono (Nat.le_succ _)
          · exact h.mono (Nat.le_add_right ..)
        · split at hcall
          · rename_i code after heq
            cases hcall
            rw [heq] at hcurdir
            exact hcurdir.mono (Nat.le_succ _)
          · rename_i node after heq
            rw [heq] at hcurdir
            split at hcall
            · cases hcall
            · rcases Outcome.bind_eq_ok.mp hcall with ⟨last, hdec, hcall⟩
              cases hcall
              exact (hcurdir.refInc hbound _).refDec hdec
  · cases hcall
    exact hcurdir.mono (Nat.le_succ _)

theorem Live.vfsLookup (h : Live bound c) (hbound : bound + 2 < 2 ^ 32) {rest : List UInt8}
    (hcall : vfsLookup below c path = .ok (ret, next, rest)) : Live (bound + 3) next := by
  rw [Fs.vfsLookup] at hcall
  rcases Outcome.bind_eq_ok.mp hcall with ⟨⟨answer, after, left⟩, hdevice, hcall⟩
  have hafter := h.getDevice (Nat.lt_of_succ_lt hbound) hdevice
  cases answer with
  | error code =>
    cases hcall
    exact hafter.mono (Nat.le_succ _)
  | ok found =>
    rcases found with ⟨node, subpath⟩
    dsimp only at hcall
    split at hcall
    · rcases Outcome.bind_eq_ok.mp hcall with ⟨_, -, hcall⟩
      split at hcall
      · rcases Outcome.bind_eq_ok.mp hcall with ⟨last, hdec, hcall⟩
        cases hcall
        exact (hafter.refInc hbound _).refDec hdec
      · rcases Outcome.bind_eq_ok.mp hcall with ⟨last, hdec, hcall⟩
        cases hcall
        exact (hafter.refDec hdec).mono (Nat.le_succ _)
    · cases hcall
      exact hafter.mono (Nat.le_succ _)

theorem Live.vfsOpenNode (h : Live bound c) {node : Inode}
    (hcall : vfsOpenNode below c node openFlags = .ok (ret, next)) : Live bound next := by
  have hopened : Live bound (c.openInc node) := ⟨h.low, h.loaded⟩
  rw [Fs.vfsOpenNode] at hcall
  rcases Outcome.bind_eq_ok.mp hcall with ⟨_, -, hcall⟩
  split at hcall
  · rcases Outcome.bind_eq_ok.mp hcall with ⟨last, hdec, hcall⟩
    cases hcall
    exact h.refDec hdec
  · dsimp only at hcall
    split at hcall
    · rcases Outcome.bind_eq_ok.mp hcall with ⟨_, -, hcall⟩
      split at hcall
      · rcases Outcome.bind_eq_ok.mp hcall with ⟨closed, hclose, hcall⟩
        rcases Outcome.bind_eq_ok.mp hcall with ⟨last, hdec, hcall⟩
        cases hcall
        exact (hopened.openDec hclose).refDec hdec
      · cases hcall
        exact hopened
    · cases hcall
      exact hopened

theorem Live.vfsOpen (h : Live bound c) (hbound : bound + 5 < 2 ^ 32)
    (hcall : vfsOpen below c path openFlags = .ok (ret, next)) : Live (bound + 6) next := by
  rw [Fs.vfsOpen] at hcall
  split at hcall
  · cases hcall
    exact h.mono (Nat.le_add_right ..)
  · rcases Outcome.bind_eq_ok.mp hcall with ⟨⟨found, after, rest⟩, hlookup, hcall⟩
    have hafter := h.vfsLookup (by omega) hlookup
    cases found with
    | error code =>
      dsimp only at hcall
      split at hcall
      · rcases Outcome.bind_eq_ok.mp hcall with ⟨⟨parent, more⟩, hparent, hcall⟩
        rw [vfsLookupParent] at hparent
        rcases Outcome.bind_eq_ok.mp hparent with ⟨⟨same, last, left⟩, hdevice, heq⟩
        cases heq
        have hmore := hafter.getDevice (by omega) hdevice
        cases parent with
        | error code =>
          cases hcall
          exact hmore.mono (Nat.le_succ _)
        | ok place =>
          rcases Outcome.bind_eq_ok.mp hcall with ⟨_, -, hcall⟩
          split at hcall
          · cases hcall
          · exact (hmore.refInc hbound _).vfsOpenNode hcall
      · cases hcall
        exact hafter.mono (Nat.add_le_add_left (by decide) _)
    | ok node =>
      dsimp only at hcall
      split at hcall
      · cases hcall
        exact hafter.mono (Nat.add_le_add_left (by decide) _)
      · exact (hafter.vfsOpenNode hcall).mono (Nat.add_le_add_left (by decide) _)

/-! ## Opens and closes -/

/-- The counts, the inodes of the open descriptors, and how many references there are besides:
working directories, and the root of the boot file system. -/
structure Opened (Inode : Type) where
  counts : Counts Inode
  fds : Multiset Inode
  held : Inode → ℕ

inductive OpenCall (Inode : Type) where
  | open (below : Below Inode) (path : List UInt8) (openFlags : BitVec 32)
  | close (n : Inode)

def OpenStep (w : Opened Inode) : OpenCall Inode → Opened Inode → Prop
  | .open below path openFlags, next => ∃ ret counts,
    vfsOpen below w.counts path openFlags = .ok (ret, counts) ∧ next = { w with
      counts
      fds := match ret with
        | .ok n => n ::ₘ w.fds
        | .error _ => w.fds }
  | .close n, next => n ∈ w.fds ∧ ∃ counts,
    vfsClose w.counts n = .ok counts ∧ next = { w with counts, fds := w.fds.erase n }

def TidyStep (w : Opened Inode) (call : OpenCall Inode) (next : Opened Inode) : Prop :=
  OpenStep w call next ∧ match call with
    | .open below path openFlags => ¬Leaks below w.counts path openFlags
    | .close _ => True

/-- Nothing is open, and nobody counts but those that the code leaves alone. -/
structure AllClosed (w : Opened Inode) : Prop where
  fds : w.fds = 0
  refs : ∀ m, w.counts.refs m = BitVec.ofNat 32 (w.held m)
  opens : ∀ m, w.counts.opens m = 0
  held : ∀ m, (w.held m : ℤ) < MAX_INODE_COUNT
  loaded : ∀ m, w.counts.loaded m → w.held m ≠ 0

/-- The inode has no open descriptor, and it is nobody's working directory. -/
def Opened.Unused (w : Opened Inode) (n : Inode) : Prop := n ∉ w.fds ∧ w.held n = 0

/-- What the counts are once all opens were tidy. -/
structure OpenedRight (w : Opened Inode) : Prop where
  refs : ∀ m, w.counts.refs m = BitVec.ofNat 32 (w.held m + w.fds.count m)
  opens : ∀ m, w.counts.opens m = BitVec.ofNat 32 (w.fds.count m)
  few : ∀ m, ((w.held m + w.fds.count m : ℕ) : ℤ) < MAX_INODE_COUNT
  loaded : ∀ m, w.counts.loaded m → w.counts.refs m ≠ 0

theorem toInt_ofNat_of_few {count : ℕ} (h : count ≤ 2 ^ 16) :
    (BitVec.ofNat 32 count).toInt = count := by
  rw [BitVec.toInt_ofNat']
  exact Int.bmod_eq_of_le (by omega) (by omega)

theorem OpenedRight.live {w : Opened Inode} (h : OpenedRight w) : Live (2 ^ 16) w.counts := by
  refine ⟨fun m ↦ ?_, h.loaded⟩
  have hfew : w.held m + w.fds.count m < 2 ^ 16 := Int.ofNat_lt.mp (h.few m)
  rw [h.refs, BitVec.toNat_ofNat]
  exact (Nat.mod_le _ _).trans_lt hfew

/-- An open succeeds only if the inode has fewer references than `MAX_INODE_COUNT`. -/
theorem vfsOpenNode_few {node : Inode} (h : vfsOpenNode below c node openFlags = .ok (ret, next)) :
    (c.refs node).toInt < MAX_INODE_COUNT := by
  rw [vfsOpenNode] at h
  rcases Outcome.bind_eq_ok.mp h with ⟨_, hcheck, -⟩
  exact (Outcome.require_eq_ok.mp hcheck).2.2.1

theorem vfsOpen_few {n : Inode} (h : vfsOpen below c path openFlags = .ok (.ok n, next)) :
    (next.refs n).toInt < MAX_INODE_COUNT := by
  have hnode : ∀ after : Counts Inode, ∀ node, vfsOpenNode below after node openFlags =
      .ok (.ok n, next) → (next.refs n).toInt < MAX_INODE_COUNT := by
    intro after node hcall
    rcases vfsOpenNode_ok hcall with ⟨rfl, hrefs, -⟩
    rw [hrefs]
    exact vfsOpenNode_few hcall
  rw [vfsOpen] at h
  split at h
  · cases h
  · rcases Outcome.bind_eq_ok.mp h with ⟨⟨found, after, rest⟩, -, h⟩
    cases found with
    | error code =>
      dsimp only at h
      split at h
      · rcases Outcome.bind_eq_ok.mp h with ⟨⟨parent, more⟩, -, h⟩
        cases parent with
        | error code => cases h
        | ok place =>
          rcases Outcome.bind_eq_ok.mp h with ⟨_, -, h⟩
          split at h
          · cases h
          · exact hnode _ _ h
      · cases h
    | ok node =>
      dsimp only at h
      split at h
      · cases h
      · exact hnode _ _ h

theorem vfsClose_ok (h : vfsClose c n = .ok next) :
    next.refs = c.refs - Pi.single n 1 ∧ next.opens = c.opens - Pi.single n 1 := by
  rcases Outcome.bind_eq_ok.mp h with ⟨closed, hclose, hdec⟩
  rcases openDec_ok hclose with ⟨hopens, hrefs⟩
  rcases refDec_ok hdec with ⟨hrefs', hopens'⟩
  exact ⟨hrefs'.trans (by rw [hrefs]), hopens'.trans hopens⟩

theorem ofNat_count_add (held count : ℕ) (n m : Inode) (counts : Inode → BitVec 32)
    (h : counts m = BitVec.ofNat 32 (held + count)) :
    (counts + (Pi.single n 1 : Inode → BitVec 32)) m =
      BitVec.ofNat 32 (held + (count + if m = n then 1 else 0)) := by
  rw [Pi.add_apply, h]
  by_cases hm : m = n
  · subst hm
    rw [Pi.single_eq_same, if_pos rfl, ← Nat.add_assoc]
    exact (BitVec.ofNat_add (held + count) 1).symm
  · rw [Pi.single_eq_of_ne hm, if_neg hm, Nat.add_zero, add_zero]

theorem OpenedRight.step {w last : Opened Inode} {call : OpenCall Inode} (h : OpenedRight w)
    (hstep : TidyStep w call last) : OpenedRight last := by
  rcases hstep with ⟨hstep, htidy⟩
  cases call with
  | «open» below path openFlags =>
    rcases hstep with ⟨ret, counts, hcall, rfl⟩
    have hbalanced := (balanced_iff hcall).mpr htidy
    have hlive := h.live.vfsOpen (by decide) hcall
    cases ret with
    | error code =>
      refine ⟨?_, ?_, h.few, hlive.loaded⟩
      · exact fun m ↦ (congrFun hbalanced.1 m).trans (h.refs m)
      · exact fun m ↦ (congrFun hbalanced.2 m).trans (h.opens m)
    | ok n =>
      have hrefs : ∀ m, counts.refs m = BitVec.ofNat 32 (w.held m + (n ::ₘ w.fds).count m) := by
        intro m
        rw [Multiset.count_cons, hbalanced.1]
        exact ofNat_count_add _ _ n m _ (h.refs m)
      refine ⟨hrefs, ?_, ?_, hlive.loaded⟩
      · intro m
        change counts.opens m = BitVec.ofNat 32 ((n ::ₘ w.fds).count m)
        have hzero : w.counts.opens m = BitVec.ofNat 32 (0 + w.fds.count m) := by
          rw [Nat.zero_add, h.opens]
        rw [Multiset.count_cons, hbalanced.2, ofNat_count_add _ _ n m _ hzero, Nat.zero_add]
      · intro m
        change ((w.held m + (n ::ₘ w.fds).count m : ℕ) : ℤ) < _
        by_cases hm : m = n
        · subst hm
          have hfew : ((w.held m + w.fds.count m : ℕ) : ℤ) < 0x10000 := h.few m
          have hint := vfsOpen_few hcall
          rw [hrefs, Multiset.count_cons_self, toInt_ofNat_of_few (by omega)] at hint
          rw [Multiset.count_cons_self]
          exact hint
        · rw [Multiset.count_cons_of_ne hm]
          exact h.few m
  | close n =>
    rcases hstep with ⟨hmem, counts, hcall, rfl⟩
    rcases vfsClose_ok hcall with ⟨hrefs, hopens⟩
    have hlive : Live (2 ^ 16) counts := by
      rcases Outcome.bind_eq_ok.mp hcall with ⟨closed, hclose, hdec⟩
      exact (h.live.openDec hclose).refDec hdec
    -- before the close each count was that of the remaining descriptors, plus one for the closed one
    have hcons : n ::ₘ w.fds.erase n = w.fds := Multiset.cons_erase hmem
    have hcount : ∀ (counts : Inode → BitVec 32) (held : Inode → ℕ),
        (∀ m, counts m = BitVec.ofNat 32 (held m + w.fds.count m)) →
        ∀ m, (counts - (Pi.single n 1 : Inode → BitVec 32)) m =
          BitVec.ofNat 32 (held m + (w.fds.erase n).count m) := by
      intro counts held heq m
      let left : Inode → BitVec 32 := fun m ↦ BitVec.ofNat 32 (held m + (w.fds.erase n).count m)
      have hsum : counts = left + Pi.single n 1 := by
        funext k
        have hk := congrArg (Multiset.count k) hcons
        rw [Multiset.count_cons] at hk
        rw [heq, ← hk]
        exact (ofNat_count_add _ _ n k left rfl).symm
      rw [hsum, add_sub_cancel_right]
    refine ⟨?_, ?_, ?_, hlive.loaded⟩
    · intro m
      rw [hrefs]
      exact hcount _ w.held h.refs m
    · intro m
      have hzero := hcount w.counts.opens (fun _ ↦ 0) (fun k ↦ by rw [Nat.zero_add, h.opens]) m
      rw [Nat.zero_add] at hzero
      rw [hopens]
      exact hzero
    · intro m
      have hle : (w.fds.erase n).count m ≤ w.fds.count m :=
        Multiset.count_le_of_le m (Multiset.erase_le ..)
      have hfew := h.few m
      change ((w.held m + (w.fds.erase n).count m : ℕ) : ℤ) < _
      omega

theorem AllClosed.right {w : Opened Inode} (h : AllClosed w) : OpenedRight w := by
  have hcount : ∀ m, w.fds.count m = 0 := by
    intro m
    rw [h.fds, Multiset.count_zero]
  refine ⟨?_, ?_, ?_, ?_⟩
  · intro m
    rw [hcount, Nat.add_zero]
    exact h.refs m
  · intro m
    rw [hcount]
    exact h.opens m
  · intro m
    rw [hcount, Nat.add_zero]
    exact h.held m
  · intro m hloaded hzero
    have hheld : w.held m < 2 ^ 16 := Int.ofNat_lt.mp (h.held m)
    have hnat := congrArg BitVec.toNat ((h.refs m).symm.trans hzero)
    rw [BitVec.toNat_ofNat, Nat.mod_eq_of_lt (hheld.trans (by decide))] at hnat
    exact h.loaded m hloaded hnat

theorem OpenedRight.runs {w last : Opened Inode} (h : OpenedRight w) {calls : List (OpenCall Inode)}
    (hruns : Runs TidyStep w calls last) : OpenedRight last := by
  induction hruns with
  | nil => exact h
  | cons hstep _ ih => exact ih (h.step hstep)

theorem OpenedRight.notLoaded {w : Opened Inode} (h : OpenedRight w) (hunused : w.Unused n) :
    w.counts.loaded n = false := by
  have hzero : w.counts.refs n = 0 := by
    rw [h.refs, hunused.2, Multiset.count_eq_zero_of_notMem hunused.1]
    rfl
  rw [← Bool.not_eq_true]
  exact fun hloaded ↦ h.loaded n hloaded hzero

/-- A call of `vfs_open` that returns keeps the counts balanced exactly when it does not leak. After
opens and closes without a leak, an inode that is not in use has been reclaimed. -/
theorem vfsOpen_balanced_iff :
    (∀ (below : Below Inode) (c : Counts Inode) (path : List UInt8) (openFlags : BitVec 32) ret next,
      vfsOpen below c path openFlags = .ok (ret, next) →
        (Balanced c ret next ↔ ¬Leaks below c path openFlags)) ∧
    ∀ (start : Opened Inode), AllClosed start → ∀ calls w, Runs TidyStep start calls w →
      ∀ n, w.Unused n → w.counts.loaded n = false :=
  ⟨fun _ _ _ _ _ _ h ↦ balanced_iff h, fun _ hstart _ _ hruns _ hunused ↦
    (hstart.right.runs hruns).notLoaded hunused⟩

/-- Two inodes: the root, which is `true`, and the file `a` in it. -/
def fileBelow : Below Bool where
  pwd := some true
  bootfs := some true
  root := fun _ ↦ .error .noEnt
  fsRoot := fun _ ↦ some true
  lookup := fun _ path ↦ if path = [97] then .ok false else .error .noEnt
  create := fun _ _ _ ↦ .error .exists
  vopOpen := fun _ _ ↦ .ok ()
  truncate := fun _ ↦ .ok ()

/-- The root is held once, by the boot file system, and nothing is open. -/
def fileClosed : Opened Bool where
  counts := { refs := fun m ↦ if m then 1 else 0, opens := fun _ ↦ 0, loaded := fun m ↦ m }
  fds := 0
  held := fun m ↦ if m then 1 else 0

theorem allClosed_fileClosed : AllClosed fileClosed where
  fds := rfl
  refs := by decide
  opens := by decide
  held := by decide
  loaded := by decide

/-- The file is opened for reading and closed. -/
theorem runs_fileClosed :
    ∃ w, Runs TidyStep fileClosed [.open fileBelow [47, 97] 0, .close false] w ∧ w.Unused false := by
  have htidy : ¬Leaks fileBelow fileClosed.counts [47, 97] 0 := fun h ↦ h.2.1 rfl
  refine Exists.intro _ ⟨.cons ⟨⟨_, _, rfl, rfl⟩, htidy⟩
    (.cons ⟨⟨Multiset.mem_cons_self false 0, _, rfl, rfl⟩, trivial⟩ .nil), ?_, rfl⟩
  decide

theorem vfsOpen_balanced_iff_fileBelow :
    (∃ next, vfsOpen fileBelow fileClosed.counts [47, 97] 0 = .ok (.ok false, next) ∧
      (Balanced fileClosed.counts (.ok false) next ↔
        ¬Leaks fileBelow fileClosed.counts [47, 97] 0)) ∧
    ∃ w, Runs TidyStep fileClosed [.open fileBelow [47, 97] 0, .close false] w ∧
      w.counts.loaded false = false := by
  constructor
  · exact Exists.intro _ ⟨rfl, vfsOpen_balanced_iff.1 _ _ _ _ _ _ rfl⟩
  · rcases runs_fileClosed with ⟨w, hruns, hunused⟩
    exact ⟨w, hruns, vfsOpen_balanced_iff.2 _ allClosed_fileClosed _ _ hruns _ hunused⟩

/-- An exclusive create of the file, which is open already, fails and keeps a reference to it. -/
theorem not_balanced_vfsOpen :
    ¬∀ (below : Below Bool) (c : Counts Bool) (path : List UInt8) (openFlags : BitVec 32) ret next,
      vfsOpen below c path openFlags = .ok (ret, next) → Balanced c ret next := by
  intro h
  have hrefs := (h fileBelow { refs := 1, opens := Pi.single false 1, loaded := fun _ ↦ true }
    [47, 97] (O_RDWR ||| O_CREAT ||| O_EXCL) _ _ rfl).1
  exact absurd (congrFun hrefs false) (by decide)

end Balance

end Ucore.Fs

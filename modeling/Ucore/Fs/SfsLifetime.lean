import Ucore.Fs.SfsInodeTable
import Ucore.Fs.SfsLength
import Mathlib.Data.Multiset.Count
import Mathlib.Data.Multiset.MapFold

/-!
# The lifetime of an inode in memory

Processes load inodes, count their references up and down and reclaim inodes. A call waits for the
lock of the file system, and it may wait for the device while it holds the lock; the others go on in
the meantime. Whoever holds a reference may do with the inode what the file system calls do.
-/

namespace Ucore.Fs

open Library

def INT_MAX : ℤ := 2 ^ 31 - 1

/-- A call that waits for `lock_sfs_fs`. -/
inductive Call where
  | load (ino : ℕ)
  | reclaim (n : ℕ)
  deriving DecidableEq

/-- What the holder of the lock does when the device is there. -/
inductive Stage where
  | read (ino : ℕ)
  | truncate (n : ℕ)
  | sync (n : ℕ)
  deriving DecidableEq

/-- The inodes in memory, who waits for the lock, who holds it, and who holds a reference or has an
inode open. -/
structure Holding (Pid : Type) where
  table : InodeTable
  waiting : Multiset (Pid × Call)
  inside : Option (Pid × Stage)
  refs : Multiset (Pid × ℕ)
  opens : Multiset (Pid × ℕ)

inductive Label (Pid : Type) where
  | load (p : Pid) (ino : ℕ)
  /-- A call gets the lock, with whether there is memory. -/
  | enter (p : Pid) (call : Call) (memory : Bool)
  /-- The holder of the lock has waited for the device. -/
  | resume (memory : Bool)
  /-- One process takes a reference for another, or for itself. -/
  | refInc (p : Pid) (n : ℕ) (other : Pid)
  | refDec (p : Pid) (n : ℕ)
  | openInc (p : Pid) (n : ℕ)
  | openDec (p : Pid) (n : ℕ)
  /-- Any other call on an inode: the disk inode and the file system that it leaves. -/
  | work (p : Pid) (n : ℕ) (din : Bytes) (dirty : Bool) (sfs : SfsFs)

/-! ## Tallies -/

section Tally

variable {Owner Thing : Type} [DecidableEq Thing]

/-- How often a thing is owned. -/
def tally (owned : Multiset (Owner × Thing)) (thing : Thing) : ℕ :=
  (owned.map Prod.snd).count thing

variable {owned : Multiset (Owner × Thing)} {owner : Owner} {thing : Thing}

theorem tally_cons (owned : Multiset (Owner × Thing)) (owner : Owner) (thing other : Thing) :
    tally ((owner, thing) ::ₘ owned) other = tally owned other + if other = thing then 1 else 0 := by
  rw [tally, Multiset.map_cons, Multiset.count_cons]
  rfl

theorem tally_erase [DecidableEq Owner] (h : (owner, thing) ∈ owned) (other : Thing) :
    tally owned other = tally (owned.erase (owner, thing)) other +
      if other = thing then 1 else 0 := by
  rw [← tally_cons, Multiset.cons_erase h]

theorem tally_pos (h : (owner, thing) ∈ owned) : 0 < tally owned thing :=
  Multiset.count_pos.mpr (Multiset.mem_map_of_mem Prod.snd h)

theorem tally_mono {more : Multiset (Owner × Thing)} (h : owned ≤ more) (thing : Thing) :
    tally owned thing ≤ tally more thing := Multiset.count_le_of_le thing (Multiset.map_le_map h)

end Tally

section Steps

variable {Pid : Type} [DecidableEq Pid]

/-- `sfs_load_inode` has come to its end, and the caller has a reference. -/
def Holding.loaded (w : Holding Pid) (p : Pid) : Ret ℕ → Holding Pid
  | .ok n => { w with inside := none, refs := (p, n) ::ₘ w.refs }
  | .error _ => { w with inside := none }

/-- A part of `sfs_reclaim` is over. -/
def Holding.reclaimed (w : Holding Pid) (p : Pid) (n : ℕ) : Reclaiming → Holding Pid
  | .done _ => { w with inside := none }
  | .truncate => { w with inside := some (p, .truncate n) }
  | .sync => { w with inside := some (p, .sync n) }

def Holding.step (w : Holding Pid) : Label Pid → Outcome (Holding Pid)
  | .load p ino => return { w with waiting := (p, .load ino) ::ₘ w.waiting }
  | .enter p (.load ino) memory => do
    let (ret, table) ← loadStart w.table memory ino
    let w := { w with table, waiting := w.waiting.erase (p, .load ino) }
    match ret with
    | some ret => return w.loaded p ret
    | none => return { w with inside := some (p, .read ino) }
  | .enter p (.reclaim n) _ => do
    let (outcome, table) ← reclaimStart w.table n
    return { w with table, waiting := w.waiting.erase (p, .reclaim n) }.reclaimed p n outcome
  | .resume memory =>
    match w.inside with
    | none => return w
    | some (p, .read ino) => do
      let (ret, table) ← loadRead w.table memory ino
      return { w with table }.loaded p ret
    | some (p, .truncate n) => do
      let (outcome, table) ← reclaimTruncate w.table n
      return { w with table }.reclaimed p n outcome
    | some (p, .sync n) => do
      let (outcome, table) ← reclaimSync w.table n
      return { w with table }.reclaimed p n outcome
  | .refInc _ n other => do
    let (_, table) ← inodeRefInc w.table n
    return { w with table, refs := (other, n) ::ₘ w.refs }
  | .refDec p n => do
    let (last, table) ← inodeRefDec w.table n
    let w := { w with table, refs := w.refs.erase (p, n) }
    if last then return { w with waiting := (p, .reclaim n) ::ₘ w.waiting } else return w
  | .openInc p n => do
    let table ← inodeOpenInc w.table n
    return { w with table, opens := (p, n) ::ₘ w.opens }
  | .openDec p n => do
    let table ← inodeOpenDec w.table n
    return { w with table, opens := w.opens.erase (p, n) }
  | .work _ n din dirty sfs => do
    let node ← w.table.node n
    return { w with table := { w.table with sfs }.set n { node with din, dirty } }

/-- `sfs_load_inode` accepts the disk inode: its links and its type. -/
def ValidInode (din : Bytes) : Prop :=
  diskNlinks din ≠ 0 ∧ ((diskInode din).type = SFS_TYPE_DIR ∨ (diskInode din).type = SFS_TYPE_FILE)

/-- The directories name only these inodes, and each of them is there. -/
structure Stored (inos : List ℕ) (s : SfsFs) : Prop where
  geometry : Geometry s
  range : ∀ ino ∈ inos, 0 < ino ∧ ino < s.blocks
  inuse : ∀ ino ∈ inos, ¬s.freemap.Free ino
  valid : ∀ ino ∈ inos, ValidInode (s.dev.block ino)

/-- Two disk inodes of one type, with as many links. -/
def SameKind (din other : Bytes) : Prop := ∀ index, 4 ≤ index → index < 8 → other index = din index

/-- What the calls on an inode leave alone: it stays in use, and so do type and links. -/
structure KeepsInodes (inos : List ℕ) (before after : SfsFs) : Prop where
  geometry : Geometry after
  blocks : after.blocks = before.blocks
  inuse : ∀ ino ∈ inos, ¬after.freemap.Free ino
  kind : ∀ ino ∈ inos, SameKind (before.dev.block ino) (after.dev.block ino)

/-- Who may take a step: a reference is counted up, counted down and worked with by a process that
holds it. -/
def Entitled (inos : List ℕ) (w : Holding Pid) : Label Pid → Prop
  | .load _ ino => ino ∈ inos
  | .enter p call _ => (p, call) ∈ w.waiting ∧ w.inside = none
  | .resume _ => w.inside.isSome
  | .refInc p n _ => (p, n) ∈ w.refs
  | .refDec p n => w.opens.count (p, n) < w.refs.count (p, n)
  | .openInc p n => w.opens.count (p, n) < w.refs.count (p, n)
  | .openDec p n => (p, n) ∈ w.opens
  | .work p n din _ sfs => (p, n) ∈ w.refs ∧ KeepsInodes inos w.table.sfs sfs ∧
    ∀ node, w.table.nodes n = some node → SameKind node.din din

def HoldingStep (inos : List ℕ) (w : Holding Pid) (label : Label Pid) (next : Holding Pid) : Prop :=
  Entitled inos w label ∧ w.step label = .ok next

/-- No inode gets a reference beyond `INT_MAX`, or a reclaim. -/
def Countable (w : Holding Pid) : Label Pid → Prop
  | .enter _ (.load ino) _ => ∀ n node, w.table.nodes n = some node → node.ino = ino →
    node.refCount < INT_MAX ∧ node.reclaimCount < INT_MAX
  | .refInc _ n _ => ∀ node, w.table.nodes n = some node → node.refCount < INT_MAX
  | _ => True

def CountableStep (inos : List ℕ) (w : Holding Pid) (label : Label Pid) (next : Holding Pid) :
    Prop := HoldingStep inos w label next ∧ Countable w label

/-- Nothing in memory yet. -/
structure FreshlyMounted (inos : List ℕ) (w : Holding Pid) : Prop where
  stored : Stored inos w.table.sfs
  nodes : ∀ n, w.table.nodes n = none
  hashList : ∀ slot, w.table.hashList slot = []
  inodeList : w.table.inodeList = []
  next : w.table.next = 0
  freed : ∀ n, w.table.freed n = 0
  waiting : w.waiting = 0
  inside : w.inside = none
  refs : w.refs = 0
  opens : w.opens = 0

/-- How many references there are to an inode. -/
def Holding.held (w : Holding Pid) (n : ℕ) : ℕ := tally w.refs n

def Holding.opened (w : Holding Pid) (n : ℕ) : ℕ := tally w.opens n

/-- How many reclaims of an inode wait for the lock. -/
def Holding.pending (w : Holding Pid) (n : ℕ) : ℕ := tally w.waiting (.reclaim n)

/-- The holder of the lock is about to free the inode. -/
def Holding.Freeing (w : Holding Pid) (n : ℕ) : Prop :=
  ∃ p, w.inside = some (p, .truncate n) ∨ w.inside = some (p, .sync n)

/-- An inode in a hash list. -/
def InodeTable.Links (t : InodeTable) (slot n : ℕ) (node : Node) : Prop :=
  n ∈ t.hashList slot ∧ t.nodes n = some node

structure LifetimeRight (inos : List ℕ) (w : Holding Pid) : Prop where
  /-- One inode in memory for each inode on the disk, in one place. -/
  unique : ∀ slot other n m node twin, w.table.Links slot n node → w.table.Links other m twin →
    node.ino = twin.ino → slot = other ∧ n = m
  nodup : ∀ slot, (w.table.hashList slot).Nodup
  linked : ∀ slot, ∀ n ∈ w.table.hashList slot, ∃ node, w.table.nodes n = some node
  /-- A lookup of an inode in memory returns it. -/
  cached : ∀ p ino memory slot n node, (p, Call.load ino) ∈ w.waiting → w.inside = none →
    w.table.Links slot n node → node.ino = ino →
    ∃ next, w.step (.enter p (.load ino) memory) = .ok next ∧ next.inside = none ∧
      next.refs = (p, n) ::ₘ w.refs
  /-- A lookup of another inode goes to the device, if there is memory, -/
  missing : ∀ p ino memory, (p, Call.load ino) ∈ w.waiting → w.inside = none →
    (∀ slot n node, w.table.Links slot n node → node.ino ≠ ino) →
    w.step (.enter p (.load ino) memory) = .ok { w with
      waiting := w.waiting.erase (p, .load ino)
      inside := if memory then some (p, .read ino) else none }
  /-- and makes a new inode of what it reads there. -/
  read : ∀ p ino, w.inside = some (p, .read ino) →
    ∃ next node, w.step (.resume true) = .ok next ∧ next.refs = (p, w.table.next) ::ₘ w.refs ∧
      next.table.Links (sinHashfn ino) w.table.next node ∧ node.ino = ino ∧
      node.din = w.table.sfs.dev.block ino
  counts : ∀ n node, w.table.nodes n = some node → node.refCount = w.held n ∧
    node.reclaimCount = w.pending n + if 0 < node.refCount then 1 else 0
  /-- An inode is freed once at most, and not while there is a reference or a reclaim. -/
  freed_le : ∀ n, w.table.freed n ≤ 1
  notFreed : ∀ n, 0 < w.held n ∨ 0 < w.pending n → w.table.freed n = 0 ∧ (w.table.nodes n).isSome
  /-- With the last reference and the last reclaim gone it has been freed. -/
  freed : ∀ n < w.table.next, w.held n = 0 → w.pending n = 0 → ¬w.Freeing n → w.table.freed n = 1
  /-- No assertion fails. -/
  completes : ∀ label, Entitled inos w label → Completes (w.step label)

end Steps

end Ucore.Fs

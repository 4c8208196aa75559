import Ucore.Fs.SfsLength

/-!
# Positions that a block map can hold

The file layer accepts positions up to `SFS_MAX_FILE_SIZE`, which is 32768 blocks, and a block map
holds 1036. A request comes back exactly when it asks for no more blocks than that, or when the free
blocks run out first.
-/

namespace Ucore.Fs

open Library

/-- In every reachable state a request to a file comes back exactly when it is addressable. -/
theorem completes_iff_addressable (first m : Mount) (hfirst : Intact first)
    (hreachable : Reachable (fun start ↦ start = first) Step m) (ino : ℕ) (hino : ino ∈ m.inos)
    (htype : (m.inode ino).type = SFS_TYPE_FILE) (request : Request) :
    Completes (request.call m.sfs (m.inode ino)) ↔ Addressable m.sfs (m.inode ino) request := by
  have hintact := intact_of_reachable hfirst hreachable
  have hfile : (m.inode ino).type ≠ SFS_TYPE_DIR := by
    rw [htype]
    decide
  exact completes_call_iff (hintact.consistent.owns hino) hintact.ranged hfile request

/-- Writing one byte at the start of an empty file. -/
theorem completes_iff_addressable_write : Completes
    (Request.call (emptySfs 7) emptyFile (.transfer (fun _ ↦ 1) 0 0 1 true)) ↔
      Addressable (emptySfs 7) emptyFile (.transfer (fun _ ↦ 1) 0 0 1 true) :=
  completes_iff_addressable (emptyDisk 7) (emptyDisk 7)
    (intact_emptyDisk (by decide) (by decide)) (.first rfl) 3 (List.mem_singleton.mpr rfl) rfl _

/-- With 2044 free blocks the seek to the first byte that the block map cannot hold is accepted and
does not come back. -/
theorem not_completes_seek : ¬∀ (first m : Mount), Intact first →
    Reachable (fun start ↦ start = first) Step m → ∀ ino ∈ m.inos,
      (m.inode ino).type = SFS_TYPE_FILE → ∀ pos : ℤ, 0 ≤ pos → pos < SFS_MAX_FILE_SIZE →
        Completes (Request.call m.sfs (m.inode ino) (.seek pos)) := by
  intro h
  have hintact : Intact (emptyDisk 2048) := intact_emptyDisk (by decide) (by decide)
  have hseek := h (emptyDisk 2048) (emptyDisk 2048) hintact (.first rfl) 3
    (List.mem_singleton.mpr rfl) rfl (1036 * 4096 + 1) (by decide) (by decide)
  have hcapacity : capacity (emptySfs 2048) emptyFile = MAX_BLOCKS := capacity_emptyDisk (by decide)
  have hfits := (completes_sfsTryseek_iff (hintact.consistent.owns (List.mem_singleton.mpr rfl))
    hintact.ranged (1036 * 4096 + 1)).mp hseek (by decide) (by decide) (by decide)
  rcases hfits with hstop | hroom
  · exact absurd hstop (by decide)
  · exact absurd hcapacity hroom.ne

end Ucore.Fs

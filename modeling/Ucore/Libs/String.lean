import Mathlib.Data.Int.Init
import Mathlib.Data.Nat.Notation
import Mathlib.Tactic.Common

/-!
# `libs/string.c`

A string in memory is read up to its first zero; a string by itself is the bytes before it.
-/

namespace Ucore

/-- The bytes of a string, without the final zero. -/
abbrev Name := { bytes : List UInt8 // (0 : UInt8) ∉ bytes }

/-- `strcmp` of a string with one in memory. -/
def strcmp : List UInt8 → (ℕ → UInt8) → ℤ
  | [], other => 0 - (other 0).toNat
  | first :: rest, other =>
    if first = other 0 then strcmp rest fun index ↦ other (index + 1)
    else (first.toNat : ℤ) - (other 0).toNat

/-- Memory holds the bytes and a zero after them. -/
def Spells (other : ℕ → UInt8) (bytes : List UInt8) : Prop :=
  (∀ index (h : index < bytes.length), other index = bytes[index]) ∧ other bytes.length = 0

theorem spells_nil {other : ℕ → UInt8} : Spells other [] ↔ other 0 = 0 :=
  ⟨fun h ↦ h.2, fun h ↦ ⟨nofun, h⟩⟩

theorem spells_cons {other : ℕ → UInt8} {first : UInt8} {rest : List UInt8} :
    Spells other (first :: rest) ↔ other 0 = first ∧ Spells (fun index ↦ other (index + 1)) rest := by
  constructor
  · rintro ⟨hbytes, hend⟩
    refine ⟨hbytes 0 (Nat.succ_pos _), fun index hindex ↦ ?_, hend⟩
    exact hbytes (index + 1) (Nat.succ_lt_succ hindex)
  · rintro ⟨hfirst, hbytes, hend⟩
    refine ⟨fun index hindex ↦ ?_, hend⟩
    cases index with
    | zero => exact hfirst
    | succ index => exact hbytes index (Nat.lt_of_succ_lt_succ hindex)

theorem strcmp_eq_zero {bytes : List UInt8} {other : ℕ → UInt8} :
    strcmp bytes other = 0 ↔ Spells other bytes := by
  induction bytes generalizing other with
  | nil =>
    rw [strcmp, spells_nil]
    constructor
    · intro h
      apply UInt8.toNat_inj.mp
      have hzero : (0 : UInt8).toNat = 0 := rfl
      omega
    · intro h
      rw [h]
      rfl
  | cons first rest ih =>
    rw [strcmp, spells_cons]
    by_cases hfirst : first = other 0
    · rw [if_pos hfirst, ih]
      exact ⟨fun h ↦ ⟨hfirst.symm, h⟩, fun h ↦ h.2⟩
    · rw [if_neg hfirst]
      refine iff_of_false (fun h ↦ hfirst ?_) fun h ↦ hfirst h.1.symm
      exact UInt8.toNat_inj.mp (by omega)

/-- A place in memory holds one string only. -/
theorem Spells.unique {other : ℕ → UInt8} {left right : Name} (hleft : Spells other left.1)
    (hright : Spells other right.1) : left = right := by
  have hle : ∀ {left right : Name}, Spells other left.1 → Spells other right.1 →
      left.1.length ≤ right.1.length := by
    intro left right hleft hright
    by_contra hlt
    have hzero := hleft.1 right.1.length (Nat.not_le.mp hlt)
    rw [hright.2] at hzero
    exact left.2 (List.mem_iff_getElem.mpr ⟨_, Nat.not_le.mp hlt, hzero.symm⟩)
  have hlength := Nat.le_antisymm (hle hleft hright) (hle hright hleft)
  apply Subtype.ext
  apply List.ext_getElem hlength
  intro index hl hr
  rw [← hleft.1 index hl, hright.1 index hr]

/-! ## Lengths -/

/-- `strnlen`. A string that ends before `len` has the same `strlen`. -/
def strnlen (bytes : ℕ → UInt8) : ℕ → ℕ
  | 0 => 0
  | len + 1 => if bytes 0 = 0 then 0 else strnlen (fun index ↦ bytes (index + 1)) len + 1

theorem strnlen_ne_zero {bytes : ℕ → UInt8} {len index : ℕ} (h : index < strnlen bytes len) :
    bytes index ≠ 0 := by
  induction len generalizing bytes index with
  | zero => cases h
  | succ len ih =>
    rw [strnlen] at h
    by_cases hzero : bytes 0 = 0
    · rw [if_pos hzero] at h
      cases h
    · rw [if_neg hzero] at h
      cases index with
      | zero => exact hzero
      | succ index => exact @ih (fun index ↦ bytes (index + 1)) _ (Nat.lt_of_succ_lt_succ h)

theorem Spells.strnlen_eq {bytes : ℕ → UInt8} {values : List UInt8} (h : Spells bytes values)
    (hzero : (0 : UInt8) ∉ values) {len : ℕ} (hlen : values.length < len) :
    strnlen bytes len = values.length := by
  induction values generalizing bytes len with
  | nil =>
    obtain ⟨len, rfl⟩ := Nat.exists_eq_add_of_lt hlen
    exact if_pos (spells_nil.mp h)
  | cons first rest ih =>
    rcases spells_cons.mp h with ⟨hfirst, hrest⟩
    have hne : bytes 0 ≠ 0 := fun heq ↦ hzero (List.mem_cons.mpr (Or.inl (heq.symm.trans hfirst)))
    have hnone : (0 : UInt8) ∉ rest := fun hmem ↦ hzero (List.mem_cons_of_mem _ hmem)
    cases len with
    | zero => cases hlen
    | succ len => rw [strnlen, if_neg hne, ih hrest hnone (Nat.lt_of_succ_lt_succ hlen), List.length_cons]

end Ucore

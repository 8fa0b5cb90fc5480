import Mathlib.Data.Nat.Notation

/-!
# The standard lattice parameters

The table of `stdlatticeparams.py`: the largest modulus, in bits, for a distribution, a ring size
and a security level.

* `logQ_of_mem`: the table has an entry for each ring size and level, and how large it is.
-/

namespace Multihop

inductive DistType
  | HEStd_uniform | HEStd_error | HEStd_ternary
  deriving DecidableEq

inductive SecLev
  | HEStd_128_classic | HEStd_192_classic | HEStd_256_classic | HEStd_NotSet
  deriving DecidableEq

open DistType SecLev

/-- `LogQ[(dist_type, ringsize, sec_level)]`; `none`: there is no such key. -/
def LogQ : DistType → ℕ → SecLev → Option ℕ
  | HEStd_uniform, 1024, HEStd_128_classic => some 29
  | HEStd_uniform, 1024, HEStd_192_classic => some 21
  | HEStd_uniform, 1024, HEStd_256_classic => some 16
  | HEStd_uniform, 2048, HEStd_128_classic => some 56
  | HEStd_uniform, 2048, HEStd_192_classic => some 39
  | HEStd_uniform, 2048, HEStd_256_classic => some 31
  | HEStd_uniform, 4096, HEStd_128_classic => some 111
  | HEStd_uniform, 4096, HEStd_192_classic => some 77
  | HEStd_uniform, 4096, HEStd_256_classic => some 60
  | HEStd_uniform, 8192, HEStd_128_classic => some 220
  | HEStd_uniform, 8192, HEStd_192_classic => some 154
  | HEStd_uniform, 8192, HEStd_256_classic => some 120
  | HEStd_uniform, 16384, HEStd_128_classic => some 440
  | HEStd_uniform, 16384, HEStd_192_classic => some 307
  | HEStd_uniform, 16384, HEStd_256_classic => some 239
  | HEStd_uniform, 32768, HEStd_128_classic => some 880
  | HEStd_uniform, 32768, HEStd_192_classic => some 612
  | HEStd_uniform, 32768, HEStd_256_classic => some 478
  | HEStd_error, 1024, HEStd_128_classic => some 29
  | HEStd_error, 1024, HEStd_192_classic => some 21
  | HEStd_error, 1024, HEStd_256_classic => some 16
  | HEStd_error, 2048, HEStd_128_classic => some 56
  | HEStd_error, 2048, HEStd_192_classic => some 39
  | HEStd_error, 2048, HEStd_256_classic => some 31
  | HEStd_error, 4096, HEStd_128_classic => some 111
  | HEStd_error, 4096, HEStd_192_classic => some 77
  | HEStd_error, 4096, HEStd_256_classic => some 60
  | HEStd_error, 8192, HEStd_128_classic => some 220
  | HEStd_error, 8192, HEStd_192_classic => some 154
  | HEStd_error, 8192, HEStd_256_classic => some 120
  | HEStd_error, 16384, HEStd_128_classic => some 440
  | HEStd_error, 16384, HEStd_192_classic => some 307
  | HEStd_error, 16384, HEStd_256_classic => some 239
  | HEStd_error, 32768, HEStd_128_classic => some 883
  | HEStd_error, 32768, HEStd_192_classic => some 613
  | HEStd_error, 32768, HEStd_256_classic => some 478
  | HEStd_ternary, 1024, HEStd_128_classic => some 27
  | HEStd_ternary, 1024, HEStd_192_classic => some 19
  | HEStd_ternary, 1024, HEStd_256_classic => some 14
  | HEStd_ternary, 2048, HEStd_128_classic => some 54
  | HEStd_ternary, 2048, HEStd_192_classic => some 37
  | HEStd_ternary, 2048, HEStd_256_classic => some 29
  | HEStd_ternary, 4096, HEStd_128_classic => some 109
  | HEStd_ternary, 4096, HEStd_192_classic => some 75
  | HEStd_ternary, 4096, HEStd_256_classic => some 58
  | HEStd_ternary, 8192, HEStd_128_classic => some 218
  | HEStd_ternary, 8192, HEStd_192_classic => some 152
  | HEStd_ternary, 8192, HEStd_256_classic => some 118
  | HEStd_ternary, 16384, HEStd_128_classic => some 438
  | HEStd_ternary, 16384, HEStd_192_classic => some 305
  | HEStd_ternary, 16384, HEStd_256_classic => some 237
  | HEStd_ternary, 32768, HEStd_128_classic => some 881
  | HEStd_ternary, 32768, HEStd_192_classic => some 611
  | HEStd_ternary, 32768, HEStd_256_classic => some 476
  | _, _, _ => none

/-- The ring sizes of the table. -/
def ringsizes : List ℕ := [1024, 2048, 4096, 8192, 16384, 32768]

variable {sec_level : SecLev} {ringsize : ℕ}

/-- What the table says about the entry `logQ` of a ring size. -/
structure Entry (ringsize logQ : ℕ) : Prop where
  pos : 1 ≤ logQ
  le : logQ ≤ 883
  small : ringsize ≤ 16384 → logQ ≤ 440
  large : 16384 ≤ ringsize → 237 ≤ logQ
  last : 16384 < ringsize → 476 ≤ logQ

/-- The table has an entry for each ring size and level. -/
theorem logQ_of_mem (dist_type : DistType) (h : ringsize ∈ ringsizes)
    (hl : sec_level ≠ HEStd_NotSet) :
    ∃ logQ, LogQ dist_type ringsize sec_level = some logQ ∧ Entry ringsize logQ := by
  have hcases : ringsize = 1024 ∨ ringsize = 2048 ∨ ringsize = 4096 ∨ ringsize = 8192 ∨
      ringsize = 16384 ∨ ringsize = 32768 := by simpa [ringsizes] using h
  rcases hcases with rfl | rfl | rfl | rfl | rfl | rfl <;> cases dist_type <;> cases sec_level <;>
    first
    | exact absurd rfl hl
    | exact ⟨_, rfl, by decide, by decide, by decide, by decide, by decide⟩

/-- Twice a ring size that is not the last one is the next one. -/
theorem two_mul_mem_ringsizes (h : ringsize ∈ ringsizes) (hle : ringsize ≤ 16384) :
    ringsize * 2 ∈ ringsizes := by
  simp only [ringsizes, List.mem_cons, List.not_mem_nil, or_false] at h ⊢
  omega

theorem two_mul_le_of_lt (h : ringsize ∈ ringsizes) (hlt : ringsize < 16384) :
    ringsize * 2 ≤ 16384 := by
  simp only [ringsizes, List.mem_cons, List.not_mem_nil, or_false] at h
  omega

theorem mem_ringsizes_le (h : ringsize ∈ ringsizes) :
    1024 ≤ ringsize ∧ (ringsize ≤ 16384 ∨ ringsize = 32768) := by
  simp only [ringsizes, List.mem_cons, List.not_mem_nil, or_false] at h
  omega

end Multihop

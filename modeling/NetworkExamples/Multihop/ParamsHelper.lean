import Mathlib.Analysis.Real.Sqrt
import Mathlib.Tactic.GCongr
import Mathlib.Tactic.Linarith
import Mathlib.Tactic.NormNum
import Mathlib.Tactic.Positivity
import Mathlib.Tactic.Ring
import NetworkExamples.Search.Range

/-!
# The noise searches of the multihop parameters

`multihop_params_helper.py` for the schemes `indcpa` and `fixednf`, over the exact reals. `find_qk`
looks for the bits of a modulus that supports `d` hops, `find_d` for the first number of hops that a
modulus of `k` bits does not support.

* `supports_iff`: the comparison of the noise with the modulus, over the rationals.
* `supports_down`: fewer hops have less noise.
* `noise_lt`: a bound on the noise of the standard parameters, for up to `2 ^ 60` hops.
* `searches_dual`: the two searches agree with each other.
-/

namespace Multihop

open Search

inductive Scheme
  | indcpa | fixednf
  deriving DecidableEq

/-- Standard deviation of the discrete gaussian. -/
def sigma_e : ℚ := 3.2

def alpha : ℚ := 6

/-- The bound of an error. -/
def B_e : ℚ := alpha * sigma_e

noncomputable def noise_indcpa (d n p r k : ℕ) : ℝ :=
  6 * √n * p * B_e * (1 + d * (1 + ((2 ^ r - 1) * ((k / r) + 1)))) + 2 * d * p * B_e

noncomputable def noise_fixednoise (d n p r k : ℕ) : ℝ :=
  6 * √n * p * B_e * (1 + d * (1 + ((2 ^ r - 1) * ((k / r) + 1)))) + 2 * d * alpha * 2 ^ 20 * p

namespace Scheme

noncomputable def noise : Scheme → ℕ → ℕ → ℕ → ℕ → ℕ → ℝ
  | indcpa => noise_indcpa
  | fixednf => noise_fixednoise

/-- The rational factor of `√n` in the noise. -/
def coeff (d p r k : ℕ) : ℚ :=
  6 * p * B_e * (1 + d * (1 + ((2 ^ r - 1) * ((k / r) + 1))))

/-- The rest of the noise. -/
def extra (d p : ℕ) : Scheme → ℚ
  | indcpa => 2 * d * p * B_e
  | fixednf => 2 * d * alpha * 2 ^ 20 * p

variable (s : Scheme) (d n p r k : ℕ)

theorem noise_eq : s.noise d n p r k = √n * coeff d p r k + extra d p s := by
  cases s <;>
    simp only [noise, noise_indcpa, noise_fixednoise, coeff, extra] <;>
    push_cast <;>
    ring

theorem base_nonneg : (0 : ℚ) ≤ 2 ^ r - 1 := sub_nonneg.mpr (one_le_pow₀ one_le_two)

theorem coeff_nonneg : 0 ≤ coeff d p r k := by
  have hr := base_nonneg r
  unfold coeff B_e alpha sigma_e
  positivity

variable {d}

theorem coeff_mono {d' : ℕ} (h : d ≤ d') : coeff d p r k ≤ coeff d' p r k := by
  have hr := base_nonneg r
  unfold coeff B_e alpha sigma_e
  gcongr

theorem extra_mono {d' : ℕ} (h : d ≤ d') : extra d p s ≤ extra d' p s := by
  cases s <;> unfold extra <;> norm_num only [B_e, alpha, sigma_e] <;> gcongr

theorem noise_mono {d' : ℕ} (h : d ≤ d') : s.noise d n p r k ≤ s.noise d' n p r k := by
  have hc : (coeff d p r k : ℝ) ≤ coeff d' p r k := by exact_mod_cast coeff_mono p r k h
  have he : (extra d p s : ℝ) ≤ extra d' p s := by exact_mod_cast extra_mono s p h
  rw [noise_eq, noise_eq]
  gcongr

end Scheme

/-- `2**k > noise`: a modulus of `k` bits supports `d` hops. -/
def Supports (s : Scheme) (n p r k d : ℕ) : Prop := s.noise d n p r k < 2 ^ k

variable {s : Scheme} {n p r k d : ℕ}

open Scheme in
/-- The comparison over the rationals: the noise is `√n` times `coeff`, plus `extra`. -/
theorem supports_iff :
    Supports s n p r k d ↔
      extra d p s < 2 ^ k ∧ coeff d p r k ^ 2 * n < (2 ^ k - extra d p s) ^ 2 := by
  have hc : (0 : ℝ) ≤ coeff d p r k := by exact_mod_cast coeff_nonneg d p r k
  have hle : 0 ≤ √n * coeff d p r k := mul_nonneg (Real.sqrt_nonneg _) hc
  have hsq : (√n * coeff d p r k) ^ 2 = coeff d p r k ^ 2 * n := by
    rw [mul_pow, Real.sq_sqrt (Nat.cast_nonneg n), mul_comm]
  unfold Supports
  rw [noise_eq, ← lt_sub_iff_add_lt]
  constructor
  · intro h
    refine ⟨by exact_mod_cast sub_pos.mp (hle.trans_lt h), ?_⟩
    have h2 := pow_lt_pow_left₀ h hle two_ne_zero
    rw [hsq] at h2
    exact_mod_cast h2
  · rintro ⟨he, h⟩
    have he' : (0 : ℝ) ≤ 2 ^ k - extra d p s := sub_nonneg.mpr (by exact_mod_cast he.le)
    refine lt_of_pow_lt_pow_left₀ 2 he' ?_
    rw [hsq]
    exact_mod_cast h

instance : Decidable (Supports s n p r k d) := decidable_of_iff _ supports_iff.symm

theorem supports_down : Down (Supports s n p r k) :=
  fun _ _ h hd => (s.noise_mono n p r k h).trans_lt hd

/-! ## The searches -/

/-- `find_qk_indcpa`, `find_qk_fixednoise`; `none`: there is no such modulus, and the program
quits. -/
def find_qk (s : Scheme) (d n p r lwl_k upl_k : ℕ) : Option ℕ :=
  inRange (fun k => Supports s n p r k d) lwl_k upl_k

def find_qk_indcpa : ℕ → ℕ → ℕ → ℕ → ℕ → ℕ → Option ℕ := find_qk .indcpa

def find_qk_fixednoise : ℕ → ℕ → ℕ → ℕ → ℕ → ℕ → Option ℕ := find_qk .fixednf

/-- `find_d_indcpa`, `find_d_fixednoise`. -/
def find_d (s : Scheme) (k n p r lwl_d upl_d : ℕ) : ℕ :=
  firstFailure (Supports s n p r k) lwl_d upl_d

def find_d_indcpa : ℕ → ℕ → ℕ → ℕ → ℕ → ℕ → ℕ := find_d .indcpa

def find_d_fixednoise : ℕ → ℕ → ℕ → ℕ → ℕ → ℕ → ℕ := find_d .fixednf

variable {lwl_k upl_k : ℕ}

theorem find_qk_eq_some_iff :
    find_qk s d n p r lwl_k upl_k = some k ↔
      IsLeast {k | lwl_k ≤ k ∧ k < upl_k ∧ Supports s n p r k d} k :=
  inRange_eq_some_iff (p := fun k => Supports s n p r k d)

theorem find_qk_eq_none_iff :
    find_qk s d n p r lwl_k upl_k = none ↔ ∀ k, lwl_k ≤ k → k < upl_k → ¬ Supports s n p r k d :=
  inRange_eq_none_iff (p := fun k => Supports s n p r k d)

theorem find_qk_self_iff (h : k < upl_k) :
    find_qk s d n p r k upl_k = some k ↔ Supports s n p r k d :=
  inRange_self_iff (p := fun k => Supports s n p r k d) h

theorem lt_find_d_iff {upl_d : ℕ} (h1 : 1 ≤ d) (hlt : d < upl_d) :
    d < find_d s k n p r 1 upl_d ↔ Supports s n p r k d :=
  lt_firstFailure_iff supports_down h1 hlt

theorem find_d_le {upl_d : ℕ} : find_d s k n p r 1 upl_d ≤ upl_d := firstFailure_le

theorem le_find_d_iff {upl_d : ℕ} (h : 1 ≤ upl_d) :
    d ≤ find_d s k n p r 1 upl_d ↔ d ≤ upl_d ∧ ∀ j, 1 ≤ j → j < d → Supports s n p r k j := by
  constructor
  · intro hd
    have hle := hd.trans find_d_le
    exact ⟨hle, (le_firstFailure_iff supports_down h hle).mp hd⟩
  · rintro ⟨hle, hsup⟩
    exact (le_firstFailure_iff supports_down h hle).mpr hsup

/-- **The two searches are dual.** A modulus of `k` bits is found for `d` hops exactly if `find_d`
goes beyond `d`: the number before `find_d` is the greatest number of hops that `k` bits support,
and `find_qk` finds the least modulus whose `find_d` goes beyond `d`, if there is one. -/
theorem searches_dual (s : Scheme) (n p r : ℕ) {d upl_d : ℕ} (h1 : 1 ≤ d) (hlt : d < upl_d)
    (upl_k : ℕ) :
    (∀ k, 1 ≤ k → k < upl_k →
      (d < find_d s k n p r 1 upl_d ↔ find_qk s d n p r k upl_k = some k)) ∧
    (∀ k, IsGreatest {d | d < upl_d ∧ (1 ≤ d → Supports s n p r k d)}
      (find_d s k n p r 1 upl_d - 1)) ∧
    ∀ lwl_k,
      (∀ k, find_qk s d n p r lwl_k upl_k = some k ↔
        IsLeast {k | lwl_k ≤ k ∧ k < upl_k ∧ d < find_d s k n p r 1 upl_d} k) ∧
      (find_qk s d n p r lwl_k upl_k = none ↔
        ∀ k, lwl_k ≤ k → k < upl_k → ¬ d < find_d s k n p r 1 upl_d) := by
  have hd : ∀ k, d < find_d s k n p r 1 upl_d ↔ Supports s n p r k d :=
    fun k => lt_find_d_iff h1 hlt
  simp only [hd]
  refine ⟨fun k _ hk => ?_, fun k => ?_, fun lwl_k => ⟨fun k => ?_, ?_⟩⟩
  · exact (find_qk_self_iff hk).symm
  · exact isGreatest_firstFailure supports_down (by omega)
  · exact find_qk_eq_some_iff
  · exact find_qk_eq_none_iff

/-- A ring of 1024 and `p = 2`, with the default limits. -/
theorem searches_dual_1024 :
    (∀ k, 1 ≤ k → k < 60 →
      (1 < find_d .indcpa k 1024 2 1 1 (2 ^ 60) ↔
        find_qk .indcpa 1 1024 2 1 k 60 = some k)) ∧
    (∀ k, IsGreatest {d | d < 2 ^ 60 ∧ (1 ≤ d → Supports .indcpa 1024 2 1 k d)}
      (find_d .indcpa k 1024 2 1 1 (2 ^ 60) - 1)) ∧
    ∀ lwl_k,
      (∀ k, find_qk .indcpa 1 1024 2 1 lwl_k 60 = some k ↔
        IsLeast {k | lwl_k ≤ k ∧ k < 60 ∧ 1 < find_d .indcpa k 1024 2 1 1 (2 ^ 60)} k) ∧
      (find_qk .indcpa 1 1024 2 1 lwl_k 60 = none ↔
        ∀ k, lwl_k ≤ k → k < 60 → ¬ 1 < find_d .indcpa k 1024 2 1 1 (2 ^ 60)) :=
  searches_dual .indcpa 1024 2 1 (by decide) (by norm_num) 60

/-! ## How large the noise is -/

/-- The noise is at least the number of hops. -/
theorem Scheme.le_noise_indcpa (hp : 1 ≤ p) : (d : ℝ) ≤ Scheme.indcpa.noise d n p r k := by
  have hc : (0 : ℝ) ≤ coeff d p r k := by exact_mod_cast coeff_nonneg d p r k
  have he : (d : ℚ) ≤ extra d p .indcpa := by
    have hp' : (1 : ℚ) ≤ p := by exact_mod_cast hp
    have hd : (0 : ℚ) ≤ d := Nat.cast_nonneg d
    simp only [extra, B_e, alpha, sigma_e]
    nlinarith
  have he' : (d : ℝ) ≤ extra d p .indcpa := by exact_mod_cast he
  rw [noise_eq]
  have := mul_nonneg (Real.sqrt_nonneg n) hc
  linarith

namespace Scheme

theorem coeff_le (hd : d ≤ 2 ^ 60) (hp : p ≤ 2 ^ 16) (hr : 1 ≤ r) (hk : k ≤ 1023) :
    coeff d p r k ≤ 6 * 2 ^ 16 * B_e * (1 + 2 ^ 60 * (2 ^ 10 * 2 ^ r)) := by
  have hdq : (d : ℚ) ≤ 2 ^ 60 := by exact_mod_cast hd
  have hpq : (p : ℚ) ≤ 2 ^ 16 := by exact_mod_cast hp
  have hbase := base_nonneg r
  have hdigits : (k : ℚ) / r + 1 ≤ 2 ^ 10 := by
    have h1 : (1 : ℚ) ≤ r := by exact_mod_cast hr
    have h2 : (k : ℚ) ≤ 1023 := by exact_mod_cast hk
    have h3 : (k : ℚ) / r ≤ k := div_le_self (Nat.cast_nonneg k) h1
    linarith
  have hhop : 1 + (2 ^ r - 1) * ((k : ℚ) / r + 1) ≤ 2 ^ 10 * 2 ^ r := by
    have h := mul_le_mul_of_nonneg_left hdigits hbase
    linarith
  have hB : (0 : ℚ) ≤ B_e := by norm_num [B_e, alpha, sigma_e]
  have h0 : 0 ≤ 1 + (2 ^ r - 1) * ((k : ℚ) / r + 1) := by positivity
  have h1 : 0 ≤ 1 + d * (1 + (2 ^ r - 1) * ((k : ℚ) / r + 1)) := by positivity
  unfold coeff
  gcongr

theorem extra_le (s : Scheme) (hd : d ≤ 2 ^ 60) (hp : p ≤ 2 ^ 16) :
    extra d p s ≤ 2 * 2 ^ 60 * 6 * 2 ^ 20 * 2 ^ 16 := by
  have hdq : (d : ℚ) ≤ 2 ^ 60 := by exact_mod_cast hd
  have hpq : (p : ℚ) ≤ 2 ^ 16 := by exact_mod_cast hp
  have h : 2 * (d : ℚ) * 6 * 2 ^ 20 * p ≤ 2 * 2 ^ 60 * 6 * 2 ^ 20 * 2 ^ 16 := by gcongr
  have h0 : (0 : ℚ) ≤ d * p := by positivity
  cases s <;> norm_num only [extra, B_e, alpha, sigma_e] at h ⊢ <;> linarith

/-- The noise of the standard parameters, for up to `2 ^ 60` hops. -/
theorem noise_lt (s : Scheme) (hd : d ≤ 2 ^ 60) (hn : n ≤ 2 ^ 16) (hp : p ≤ 2 ^ 16)
    (hr : 1 ≤ r) (hk : k ≤ 1023) : s.noise d n p r k < 2 ^ (102 + r) := by
  have hcoeff := coeff_le hd hp hr hk
  have hextra := extra_le s hd hp
  have hc0 : (0 : ℝ) ≤ coeff d p r k := by exact_mod_cast coeff_nonneg d p r k
  have hsqrt : √(n : ℝ) ≤ 2 ^ 8 := by
    rw [Real.sqrt_le_left (by norm_num)]
    have hnr : (n : ℝ) ≤ 2 ^ 16 := by exact_mod_cast hn
    linarith
  have hq : 2 ^ 8 * coeff d p r k + extra d p s < 2 ^ (102 + r) := by
    have hpow : (2 : ℚ) ≤ 2 ^ r := by
      calc (2 : ℚ) = 2 ^ 1 := (pow_one 2).symm
        _ ≤ 2 ^ r := pow_le_pow_right₀ one_le_two hr
    rw [pow_add]
    norm_num only [B_e, alpha, sigma_e] at hcoeff hextra ⊢
    linarith
  calc s.noise d n p r k = √n * coeff d p r k + extra d p s := noise_eq ..
    _ ≤ 2 ^ 8 * coeff d p r k + extra d p s := by gcongr
    _ < 2 ^ (102 + r) := by exact_mod_cast hq

end Scheme

theorem supports_of_le (hd : d ≤ 2 ^ 60) (hn : n ≤ 2 ^ 16) (hp : p ≤ 2 ^ 16) (hr : 1 ≤ r)
    (hk : k ≤ 1023) (hle : 102 + r ≤ k) : Supports s n p r k d :=
  calc s.noise d n p r k < 2 ^ (102 + r) := s.noise_lt hd hn hp hr hk
    _ ≤ 2 ^ k := pow_le_pow_right₀ one_le_two hle

end Multihop

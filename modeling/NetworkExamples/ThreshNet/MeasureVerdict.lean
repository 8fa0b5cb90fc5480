import NetworkExamples.ThreshNet.Measure
import Mathlib.Algebra.BigOperators.Ring.Finset
import Mathlib.Algebra.Field.ZMod
import Mathlib.Tactic.LinearCombination
import Mathlib.Tactic.NormNum.Prime

/-!
# The verdict of the client-server co-measurement

The values behind the ciphertexts of `ThreshNet.Measure`, over an encryption without noise: the
masked ciphertexts are folded to the mask times the difference of the first client's vector and the
sum of all others (`slot_plaintext`).

* `runs`: in every interleaving no client throws, all that end print the same, and all can end.
* `verdict_iff`: the verdict is right for two clients; for more it depends on the vectors.
-/

namespace ThreshNet

open P2P OpenFHE Finset

namespace Measure

variable {F : OpenFHE}

namespace Setting

section

variable (S : Setting F)

/-- Slot `k` of the measurements of client `i`. -/
def slot (i k : ℕ) : ZMod (F.plaintextModulus S.cc) := ((S.inputs i).getD k 0 : ℤ)

/-- Slot `k` of the mask. -/
def mask (k : ℕ) : ZMod (F.plaintextModulus S.cc) :=
  ((((List.range 12).map fun i => ((S.random_s i % F.plaintextModulus S.cc : ℕ) : ℤ)).getD k 0 : ℤ))

/-- The measurements of all clients are equal on the first 12 slots. -/
def AllEqual : Prop :=
  ∀ i j, 1 ≤ i ∧ i ≤ S.N → 1 ≤ j ∧ j ≤ S.N → ∀ k < 12, S.slot i k = S.slot j k

/-- **The verdict is right**: in every run no client throws, all clients can end, and a client that
has ended has printed that the measurements are the same if and only if they are. -/
def Right : Prop :=
  ∀ σ, (Rpc.System.init S.clients).Runs σ →
    (∀ i e, σ.client i ≠ .throw e) ∧
    (∀ i printed, σ.client i = .ret printed → (.theSame ∈ printed ↔ S.AllEqual)) ∧
    ∃ σ', σ.Runs σ' ∧ ∀ i, ∃ printed, σ'.client i = .ret printed

end

variable {S : Setting F} {printed : List Printed}

/-! ## The run -/

theorem promised (hp : 65536 ≤ F.plaintextModulus S.cc)
    (hprinted : printVerdict (F.getPackedValue S.cc S.plaintext 12) = some printed) :
    (Rpc.System.init S.clients).Promised S.spec (fun _ => Final S.cc S.rand S.N)
      fun _ x => x = printed :=
  .init fun i => promises_main (Nat.le_add_left _ _) i.isLt hp hprinted

theorem orderly (hp : 65536 ≤ F.plaintextModulus S.cc)
    (hprinted : printVerdict (F.getPackedValue S.cc S.plaintext 12) = some printed) :
    (Rpc.System.init S.clients).Orderly S.spec (CtPolled S.N) (ctRank S.N) where
  uploads s hs := by
    obtain ⟨i, h1, hN, hup⟩ := uploads_main hp hs
    obtain ⟨j, rfl⟩ : ∃ j, i = j + 1 := ⟨i - 1, by omega⟩
    exact .inr ⟨⟨j, by omega⟩, hup⟩
  ordered i := ⟨0, _, ordered_main (Nat.le_add_left _ _) i.isLt hp hprinted⟩

/-- **The run of the clients**: none throws, all that end print `printed`, and all can end. -/
theorem runs (hp : 65536 ≤ F.plaintextModulus S.cc)
    (hprinted : printVerdict (F.getPackedValue S.cc S.plaintext 12) = some printed)
    {σ : Rpc.System (Fin S.N) (Slot ⊕ CtSlot) (Sum.elim (Slot.Key F) (CtSlot.Ct F)) (Inserted F)
      (List Printed)} (hσ : (Rpc.System.init S.clients).Runs σ) :
    (∀ i e, σ.client i ≠ .throw e) ∧ (∀ i x, σ.client i = .ret x → x = printed) ∧
      ∃ σ', σ.Runs σ' ∧ ∀ i, ∃ x, σ'.client i = .ret x := by
  have h0 := promised hp hprinted
  have h := h0.runs hσ
  have ho := (orderly hp hprinted).runs h0 hσ
  refine ⟨fun i e he => ?_, fun i x hx => ?_, ?_⟩
  · obtain ⟨K, -, hc⟩ := h.client i
    rw [he] at hc
    exact hc
  · obtain ⟨K, -, hc⟩ := h.client i
    rw [hx] at hc
    exact hc
  · obtain ⟨σ', hr, hend⟩ := h.completes ho fun i hi => absurd (mem_univ i) hi
    refine ⟨σ', hr, fun i => ?_⟩
    obtain ⟨x, hx, -⟩ := hend i
    exact ⟨x, hx⟩

/-! ## The values -/

section

variable {L : F.Additive S.cc} (C : F.IdealBFV S.cc L)

theorem slot_drawRandom (hp : 0 < F.plaintextModulus S.cc) :
    C.slot (drawRandom S.cc S.random_s) = S.mask := by
  funext k
  refine C.makePackedPlaintext _ k (C.accepts _ (by simp) ?_)
  intro x hx
  obtain ⟨i, -, rfl⟩ := List.mem_map.mp hx
  have hlt := Nat.mod_lt (S.random_s i) hp
  rw [abs_of_nonneg (by positivity)]
  exact_mod_cast hlt

theorem mask_of_lt {k : ℕ} (hk : k < 12) :
    S.mask k = ((S.random_s k : ℕ) : ZMod (F.plaintextModulus S.cc)) := by
  unfold mask
  rw [List.getD_eq_getElem?_getD, List.getElem?_map, List.getElem?_range hk]
  simp

theorem encrypts_maskedCText (hp : 0 < F.plaintextModulus S.cc) {i : ℕ}
    (hi : C.Accepts (S.inputs i)) :
    C.Encrypts (∑ j ∈ Icc 1 S.N, L.secret (secretKey F S.cc S.rand j)) (S.maskedCText i)
      fun k => S.mask k * S.slot i k := by
  have hN : 1 ≤ S.N := by have := S.two_le; omega
  obtain ⟨a, ha⟩ := isPublicKey_keyPair L S.rand
  have hmask := C.encrypt a _ _ (S.controllerRand i) (drawRandom S.cc S.random_s) (ha S.N hN)
  rw [slot_drawRandom C hp] at hmask
  exact C.evalMult_chain S.rand hN hmask (C.encrypts_chain S.rand hN (S.rand i) hi)

theorem encrypts_foldl {s : L.Share} {f : ℕ → F.Ciphertext}
    {w : ℕ → ℕ → ZMod (F.plaintextModulus S.cc)} {l : List ℕ}
    (hl : ∀ i ∈ l, C.Encrypts s (f i) (w i)) {ct : F.Ciphertext}
    {v : ℕ → ZMod (F.plaintextModulus S.cc)} (hct : C.Encrypts s ct v) :
    C.Encrypts s ((l.map f).foldl (F.evalSub S.cc) ct)
      fun k => v k - (l.map fun i => w i k).sum := by
  induction l generalizing ct v with
  | nil => simpa using hct
  | cons i l ih =>
    have hi := C.evalSub _ _ _ _ _ hct (hl i List.mem_cons_self)
    have hrest := ih (fun j hj => hl j (List.mem_cons_of_mem i hj)) hi
    simpa only [List.map_cons, List.foldl_cons, List.sum_cons, sub_sub] using hrest

theorem sum_range' (f : ℕ → ZMod (F.plaintextModulus S.cc)) :
    ((List.range' 2 (S.N - 1)).map f).sum = ∑ i ∈ Icc 2 S.N, f i := by
  have hset : (List.range' 2 (S.N - 1)).toFinset = Icc 2 S.N := by
    ext i
    have := S.two_le
    simp only [List.mem_toFinset, List.mem_range'_1, mem_Icc]
    omega
  rw [← hset, List.sum_toFinset _ (List.nodup_range' 1)]

/-- **The decrypted values**: the mask times the difference of the first client's values and the
sum of all others. -/
theorem slot_plaintext (hp : 0 < F.plaintextModulus S.cc)
    (hacc : ∀ i, 1 ≤ i ∧ i ≤ S.N → C.Accepts (S.inputs i)) (k : ℕ) :
    C.slot S.plaintext k = S.mask k * (S.slot 1 k - ∑ i ∈ Icc 2 S.N, S.slot i k) := by
  have h2 := S.two_le
  have hrest : ∀ i ∈ List.range' 2 (S.N - 1), C.Encrypts
      (∑ j ∈ Icc 1 S.N, L.secret (secretKey F S.cc S.rand j)) (S.maskedCText i)
      fun k => S.mask k * S.slot i k := by
    intro i hi
    have := List.mem_range'_1.mp hi
    exact encrypts_maskedCText C hp (hacc i (by omega))
  have hresult : C.Encrypts (∑ j ∈ Icc 1 S.N, L.secret (secretKey F S.cc S.rand j)) S.resultCT _ :=
    encrypts_foldl C hrest (encrypts_maskedCText C hp (hacc 1 (by omega)))
  have hset : (List.range' 1 S.N).toFinset = Icc 1 S.N := by
    ext i
    simp only [List.mem_toFinset, List.mem_range'_1, mem_Icc]
    omega
  rw [← hset] at hresult
  have hslot : C.slot S.plaintext = _ :=
    C.multipartyDecryptFusion (secretKey F S.cc S.rand) S.rand (List.range' 1 S.N) 1 S.resultCT _
      (List.nodup_range' 1) (List.mem_range'_1.mpr (by omega)) hresult
  rw [hslot]
  simp only [sum_range', mul_sub, mul_sum]

end

/-! ## When the verdict is right -/

/-- The verdict is about the difference of the first client's values and the sum of all others. -/
theorem verdict_iff_sub {L : F.Additive S.cc} (C : F.IdealBFV S.cc L)
    (hprime : (F.plaintextModulus S.cc).Prime) (hp : 65536 ≤ F.plaintextModulus S.cc)
    (hacc : ∀ i, 1 ≤ i ∧ i ≤ S.N → C.Accepts (S.inputs i))
    (hmask : ∀ k < 12, ((S.random_s k : ℕ) : ZMod (F.plaintextModulus S.cc)) ≠ 0) :
    S.Right ↔ ((∀ k < 12, S.slot 1 k = ∑ i ∈ Icc 2 S.N, S.slot i k) ↔ S.AllEqual) := by
  have : Fact (F.plaintextModulus S.cc).Prime := ⟨hprime⟩
  obtain ⟨printed, hprinted, hiff⟩ := C.theSame_mem_printVerdict S.plaintext
  have hzero : ∀ k < 12, (C.slot S.plaintext k = 0 ↔
      S.slot 1 k = ∑ i ∈ Icc 2 S.N, S.slot i k) := by
    intro k hk
    rw [slot_plaintext C (by omega) hacc, mask_of_lt hk, mul_eq_zero, sub_eq_zero]
    simp [hmask k hk]
  have hsame : .theSame ∈ printed ↔ ∀ k < 12, S.slot 1 k = ∑ i ∈ Icc 2 S.N, S.slot i k := by
    rw [hiff]
    exact forall₂_congr hzero
  rw [← hsame]
  constructor
  · intro h
    obtain ⟨-, -, σ, hσ, hend⟩ := h _ .refl
    have hpos : 0 < S.N := by have := S.two_le; omega
    obtain ⟨x, hx⟩ := hend ⟨0, hpos⟩
    have hprint := (runs hp hprinted hσ).2.1 _ x hx
    subst hprint
    exact (h σ hσ).2.1 _ x hx
  · intro h σ hσ
    obtain ⟨hthrow, hret, hend⟩ := runs hp hprinted hσ
    refine ⟨hthrow, fun i x hx => ?_, hend⟩
    rw [hret i x hx]
    exact h

theorem sub_iff_of_two (hN : S.N = 2) :
    (∀ k < 12, S.slot 1 k = ∑ i ∈ Icc 2 S.N, S.slot i k) ↔ S.AllEqual := by
  simp only [hN, Icc_self, sum_singleton, AllEqual]
  constructor
  · intro h i j hi hj k hk
    obtain rfl | rfl : i = 1 ∨ i = 2 := by omega
    · obtain rfl | rfl : j = 1 ∨ j = 2 := by omega
      · rfl
      · exact h k hk
    · obtain rfl | rfl : j = 1 ∨ j = 2 := by omega
      · exact (h k hk).symm
      · rfl
  · intro h k hk
    exact h 1 2 (by decide) (by decide) k hk

/-- On equal vectors the sum is that many times the first one. -/
theorem sub_iff_of_allEqual (h : S.AllEqual) :
    (∀ k < 12, S.slot 1 k = ∑ i ∈ Icc 2 S.N, S.slot i k) ↔
      ∀ k < 12, ((S.N : ZMod (F.plaintextModulus S.cc)) - 2) * S.slot 1 k = 0 := by
  have h2 := S.two_le
  refine forall₂_congr fun k hk => ?_
  have hsum : ∑ i ∈ Icc 2 S.N, S.slot i k = ∑ _i ∈ Icc 2 S.N, S.slot 1 k := by
    refine sum_congr rfl fun i hi => ?_
    have := mem_Icc.mp hi
    exact h i 1 (by omega) (by omega) k hk
  have hcard : ((Icc 2 S.N).card : ZMod (F.plaintextModulus S.cc)) = S.N - 1 := by
    rw [Nat.card_Icc, show S.N + 1 - 2 = S.N - 1 by omega, Nat.cast_sub (by omega), Nat.cast_one]
  rw [hsum, sum_const, nsmul_eq_mul, hcard]
  constructor
  · intro heq
    linear_combination -heq
  · intro heq
    linear_combination -heq

/-- **The verdict is right** for two clients; for equal vectors of `N` clients if `N - 2` times the
first vector is 0; and for others if the first vector is not the sum of all others. -/
theorem verdict_iff {L : F.Additive S.cc} (C : F.IdealBFV S.cc L)
    (hprime : (F.plaintextModulus S.cc).Prime) (hp : 65536 ≤ F.plaintextModulus S.cc)
    (hacc : ∀ i, 1 ≤ i ∧ i ≤ S.N → C.Accepts (S.inputs i))
    (hmask : ∀ k < 12, ((S.random_s k : ℕ) : ZMod (F.plaintextModulus S.cc)) ≠ 0) :
    S.Right ↔ S.N = 2 ∨
      (S.AllEqual ∧ ∀ k < 12, ((S.N : ZMod (F.plaintextModulus S.cc)) - 2) * S.slot 1 k = 0) ∨
      (¬ S.AllEqual ∧ ∃ k < 12, S.slot 1 k ≠ ∑ i ∈ Icc 2 S.N, S.slot i k) := by
  rw [verdict_iff_sub C hprime hp hacc hmask]
  by_cases hN : S.N = 2
  · exact ⟨fun _ => .inl hN, fun _ => sub_iff_of_two hN⟩
  · by_cases hall : S.AllEqual
    · rw [sub_iff_of_allEqual hall]
      simp [hN, hall]
    · simp [hN, hall]

/-! ## Two and three clients -/

/-- `N` clients over the ideal instance, each with 12 times the same value. -/
def ideal (N : ℕ) (hN : 2 ≤ N) (values : ℕ → ℤ) : Setting OpenFHE.ideal where
  cc := .bfvrnsDefault 65537 4 1024
  N := N
  two_le := hN
  inputs i := List.replicate 12 (values i)
  rand i := (i : ℤ)
  controllerRand i := (i : ℤ)
  random_s _ := 1

section

variable {N : ℕ} {hN : 2 ≤ N} {values : ℕ → ℤ}

theorem prime_ideal : (OpenFHE.ideal.plaintextModulus (ideal N hN values).cc).Prime := by
  change Nat.Prime 65537
  norm_num

theorem accepts_ideal (h : ∀ i, |values i| < 65537) (i : ℕ) :
    (OpenFHE.idealBFV (ideal N hN values).cc).Accepts ((ideal N hN values).inputs i) := by
  intro x hx
  rw [List.eq_of_mem_replicate hx]
  exact h i

theorem mask_ideal (k : ℕ) : (((ideal N hN values).random_s k : ℕ) :
    ZMod (OpenFHE.ideal.plaintextModulus (ideal N hN values).cc)) ≠ 0 := by
  change ((1 : ℕ) : ZMod 65537) ≠ 0
  rw [Ne, ZMod.natCast_eq_zero_iff]
  decide

theorem slot_ideal {k : ℕ} (hk : k < 12) (i : ℕ) :
    (ideal N hN values).slot i k = ((values i : ℤ) : ZMod 65537) := by
  change (((List.replicate 12 (values i)).getD k 0 : ℤ) : ZMod 65537) = _
  rw [List.getD_eq_getElem?_getD, List.getElem?_replicate, if_pos hk, Option.getD_some]

end

theorem right_two : (ideal 2 (by decide) fun _ => 1).Right :=
  (verdict_iff (OpenFHE.idealBFV _) prime_ideal (by decide) (fun i _ => accepts_ideal (by simp) i)
    fun k _ => mask_ideal k).mpr (.inl rfl)

/-- Three clients: the third vector differs, and the first is the sum of the others. -/
theorem not_right_three : ¬ (ideal 3 (by decide) fun i => if i = 3 then 0 else 1).Right := by
  rw [verdict_iff_sub (OpenFHE.idealBFV _) prime_ideal (by decide)
    (fun i _ => accepts_ideal (fun j => by by_cases hj : j = 3 <;> simp [hj]) i)
    fun k _ => mask_ideal k]
  intro h
  have hall := h.mp fun k hk => by
    change _ = ∑ i ∈ Icc 2 3, _
    simp only [slot_ideal hk]
    rfl
  have h13 := hall 1 3 (by decide) (by decide) 0 (by decide)
  rw [slot_ideal (by decide), slot_ideal (by decide)] at h13
  change ((1 : ℤ) : ZMod 65537) = ((0 : ℤ) : ZMod 65537) at h13
  exact absurd h13 (by decide)

end Setting

end Measure

end ThreshNet

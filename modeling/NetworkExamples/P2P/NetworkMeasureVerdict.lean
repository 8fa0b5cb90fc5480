import NetworkExamples.P2P.NetworkMeasure
import Mathlib.Algebra.Field.ZMod
import Mathlib.Tactic.NormNum.Prime

/-!
# The verdict of the peer-to-peer co-measurement

The values behind the ciphertexts of `P2P.Measure`, over an encryption without noise: the mask times
the difference of the two vectors (`slot_plaintext`).

* `coMeasurement_iff`: the verdict is right if and only if the vectors are equal, or differ modulo the
  plaintext modulus on one of the first 12 slots where the mask is not 0.
-/

namespace P2P

open Fifo OpenFHE Finset

variable {F : OpenFHE}

namespace Measure

namespace Setting

section

variable (S : Setting F)

/-- Slot `k` of the measurements of node `i`. -/
def slot (i k : ℕ) : ZMod S.plaintextModulus := ((S.inputs i).getD k 0 : ℤ)

/-- Slot `k` of the mask: the product of the nodes' random values, or the controller's one. -/
def mask (k : ℕ) : ZMod S.plaintextModulus :=
  match S.version with
  | .peerToPeer => S.random 1 k * S.random 2 k
  | .withController => S.random 0 k

/-- **The verdict is right**: in every run no node throws, a node that has ended has printed that the
measurements are the same if and only if they are, and both nodes can end. -/
def Right : Prop :=
  ∀ s, Net.Reach false (Net.init S.network) s →
    (∀ i ∈ [1, 2], ∀ e, s.prog i ≠ .fail e) ∧
    (∀ i ∈ [1, 2], ∀ x, s.prog i = .ret x →
      ∃ printed, x = some printed ∧ (.theSame ∈ printed ↔ S.inputs 1 = S.inputs 2)) ∧
    ∃ s', Net.Reach false s s' ∧ ∀ i ∈ [1, 2], ∃ x, s'.prog i = .ret x

/-- Slot `k` of the masked vector of node `i`. -/
def masked (i k : ℕ) : ZMod S.plaintextModulus :=
  match S.version with
  | .peerToPeer => ((S.products i).getD k 0 : ℤ) * ((S.random_rvec (3 - i)).getD k 0 : ℤ)
  | .withController => ((drawRandom 65537 (S.random 0)).getD k 0 : ℤ) * S.slot i k

end

variable {S : Setting F} {printed : List Printed} {i : ℕ}

/-! ## The values -/

theorem abs_tmod_lt (x : ℤ) {p : ℕ} (hp : 0 < p) : |x.tmod p| < p := by
  have hpos : (0 : ℤ) < p := by exact_mod_cast hp
  exact abs_lt.mpr ⟨Int.lt_tmod_of_pos x hpos, Int.tmod_lt_of_pos x hpos⟩

/-- The remainder of `%` is the same residue. -/
theorem cast_tmod (x : ℤ) (p : ℕ) : ((x.tmod p : ℤ) : ZMod p) = x := by
  rw [Int.tmod_def]
  simp

theorem getD_drawRandom (p : ℕ) (rand : ℕ → ℕ) {k : ℕ} (hk : k < 12) :
    (((drawRandom p rand).getD k 0 : ℤ) : ZMod p) = rand k := by
  rw [List.getD_eq_getElem?_getD, getElem?_drawRandom p rand hk]
  simp

theorem slot_products (hlen : 12 ≤ (S.inputs i).length) {k : ℕ} (hk : k < 12) :
    (((S.products i).getD k 0 : ℤ) : ZMod S.plaintextModulus) = S.slot i k * S.random i k := by
  unfold products random_rvec
  rw [randomCiphertext_eq hlen, Option.getD_some, List.getD_eq_getElem?_getD, List.getElem?_map,
    List.getElem?_range hk, Option.map_some, Option.getD_some, cast_tmod]
  simp [slot]

/-- Both vectors have the same mask. -/
theorem masked_eq (hp : S.plaintextModulus = 65537)
    (hlen : S.version = .peerToPeer → ∀ i ∈ [1, 2], 12 ≤ (S.inputs i).length)
    (hi : i ∈ [1, 2]) {k : ℕ} (hk : k < 12) : S.masked i k = S.slot i k * S.mask k := by
  unfold masked mask
  cases hv : S.version with
  | peerToPeer =>
    simp only
    rw [slot_products (hlen hv i hi) hk, random_rvec, getD_drawRandom _ _ hk]
    obtain rfl | rfl : i = 1 ∨ i = 2 := by simpa using hi
    · exact mul_assoc _ _ _
    · exact (mul_right_comm _ _ _).trans (mul_assoc _ _ _)
  | withController =>
    simp only
    rw [← hp, getD_drawRandom _ _ hk, mul_comm]

section

variable {L : F.Additive S.cc} (C : F.IdealBFV S.cc L)

theorem accepts_drawRandom (hp : 0 < S.plaintextModulus) (rand : ℕ → ℕ) :
    C.Accepts (drawRandom S.plaintextModulus rand) := by
  refine C.accepts _ (by simp [drawRandom]) fun x hx => ?_
  obtain ⟨i, -, rfl⟩ := List.mem_map.mp hx
  have hlt := Nat.mod_lt (rand i) hp
  rw [abs_of_nonneg (by positivity)]
  exact_mod_cast hlt

theorem accepts_products (hp : 0 < S.plaintextModulus) (hlen : 12 ≤ (S.inputs i).length) :
    C.Accepts (S.products i) := by
  unfold products random_rvec
  rw [randomCiphertext_eq hlen, Option.getD_some]
  refine C.accepts _ (by simp) fun x hx => ?_
  obtain ⟨k, -, rfl⟩ := List.mem_map.mp hx
  exact abs_tmod_lt _ hp

theorem encrypts_maskedCT (hp : S.plaintextModulus = 65537)
    (hlen : S.version = .peerToPeer → ∀ i ∈ [1, 2], 12 ≤ (S.inputs i).length)
    (hacc : ∀ i ∈ [1, 2], C.Accepts (S.inputs i)) (hi : i ∈ [1, 2]) :
    C.Encrypts (∑ j ∈ Icc 1 2, L.secret (secretKey F S.cc S.rand j)) (S.maskedCT i) (S.masked i) := by
  have hpos : 0 < S.plaintextModulus := by omega
  have henc : ∀ {v : List ℤ} (j : ℕ), C.Accepts v → C.Encrypts _ (S.encrypted j v) _ :=
    fun j hv => C.encrypts_chain S.rand (N := 2) (by decide) (S.rand j) hv
  unfold maskedCT masked cipherText encryptedRandom
  cases hv : S.version with
  | peerToPeer =>
    exact C.evalMult_chain S.rand (by decide) (henc i (accepts_products C hpos (hlen hv i hi)))
      (henc _ (accepts_drawRandom C hpos _))
  | withController =>
    have hrandom := accepts_drawRandom C hpos (S.random 0)
    rw [hp] at hrandom
    exact C.evalMult_chain S.rand (by decide) (henc 0 hrandom) (henc i (hacc i hi))

/-- **The decrypted values**: the difference of the two vectors times the mask. -/
theorem slot_plaintext (hp : S.plaintextModulus = 65537)
    (hlen : S.version = .peerToPeer → ∀ i ∈ [1, 2], 12 ≤ (S.inputs i).length)
    (hacc : ∀ i ∈ [1, 2], C.Accepts (S.inputs i)) {k : ℕ} (hk : k < 12) :
    C.slot S.plaintext k = (S.slot 1 k - S.slot 2 k) * S.mask k := by
  have hsub : C.Encrypts (∑ j ∈ Icc 1 2, L.secret (secretKey F S.cc S.rand j)) S.resultCT _ :=
    C.evalSub _ _ _ _ _ (encrypts_maskedCT C hp hlen hacc (i := 1) (by simp))
      (encrypts_maskedCT C hp hlen hacc (i := 2) (by simp))
  have hslot : C.slot S.plaintext = _ :=
    C.multipartyDecryptFusion (secretKey F S.cc S.rand) S.rand [1, 2] startNode S.resultCT _
      (by decide) (by decide) hsub
  calc C.slot S.plaintext k = S.masked 1 k - S.masked 2 k := congrFun hslot k
    _ = S.slot 1 k * S.mask k - S.slot 2 k * S.mask k := by
      rw [masked_eq hp hlen (by simp) hk, masked_eq hp hlen (by simp) hk]
    _ = (S.slot 1 k - S.slot 2 k) * S.mask k := (sub_mul _ _ _).symm

end

/-! ## When the verdict is right -/

theorem right_iff_printed
    (hlen : S.version = .peerToPeer → ∀ i ∈ [1, 2], 12 ≤ (S.inputs i).length)
    (hprinted : printVerdict (F.getPackedValue S.cc S.plaintext 12) = some printed) :
    S.Right ↔ (.theSame ∈ printed ↔ S.inputs 1 = S.inputs 2) := by
  have hr := runs hlen hprinted
  have hstop : ∀ i ∈ [1, 2], S.stop printed i = .ret (some printed) := by
    intro i hi
    obtain rfl | rfl : i = 1 ∨ i = 2 := by simpa using hi
    · rfl
    · rfl
  -- A node that has ended is at the end of its script.
  have hend : ∀ s, Net.Reach false (Net.init S.network) s → ∀ i ∈ [1, 2],
      (s.prog i).halted = true → s.prog i = .ret (some printed) := fun s hs i hi hh =>
    (hr.prog_eq_stop hs (hr.hist_eq_of_halted hs hh)).trans (hstop i hi)
  constructor
  · intro h
    obtain ⟨-, -, s, hs, hret⟩ := h _ .refl
    obtain ⟨x, hx⟩ := hret 1 (by simp)
    obtain ⟨printed', hprinted', hiff⟩ := (h s hs).2.1 1 (by simp) x hx
    have hp := hend s hs 1 (by simp) (by rw [hx]; rfl)
    rw [hx, hprinted'] at hp
    cases hp
    exact hiff
  · intro h s hs
    refine ⟨fun i hi e he => ?_, fun i hi x hx => ?_, ?_⟩
    · have hp := hend s hs i hi (by rw [he]; rfl)
      rw [he] at hp
      cases hp
    · have hp := hend s hs i hi (by rw [hx]; rfl)
      rw [hx] at hp
      cases hp
      exact ⟨printed, rfl, h⟩
    · obtain ⟨s', hs', -, hp, -⟩ := hr.completes hs
      exact ⟨s', hs', fun i hi => ⟨_, (hp i).trans (hstop i hi)⟩⟩

/-- The verdict is about the slots where the mask is not 0. -/
theorem right_iff_slots {L : F.Additive S.cc} (C : F.IdealBFV S.cc L)
    (hp : F.plaintextModulus S.cc = 65537)
    (hlen : S.version = .peerToPeer → ∀ i ∈ [1, 2], 12 ≤ (S.inputs i).length)
    (hacc : ∀ i ∈ [1, 2], C.Accepts (S.inputs i)) :
    S.Right ↔ ((∀ k < 12, S.slot 1 k = S.slot 2 k ∨ S.mask k = 0) ↔ S.inputs 1 = S.inputs 2) := by
  have hprime : Fact (F.plaintextModulus S.cc).Prime := ⟨by rw [hp]; norm_num⟩
  obtain ⟨printed, hprinted, hiff⟩ := C.theSame_mem_printVerdict S.plaintext
  have hzero : ∀ k < 12, (C.slot S.plaintext k = 0 ↔ S.slot 1 k = S.slot 2 k ∨ S.mask k = 0) := by
    intro k hk
    rw [slot_plaintext C hp hlen hacc hk, mul_eq_zero, sub_eq_zero]
  rw [right_iff_printed hlen hprinted, hiff]
  exact iff_congr (forall₂_congr hzero) Iff.rfl

/-- **The verdict is right** if and only if the vectors are equal or differ on one of the 12 slots
where the mask is not 0. -/
theorem coMeasurement_iff {L : F.Additive S.cc} (C : F.IdealBFV S.cc L)
    (hp : F.plaintextModulus S.cc = 65537)
    (hlen : S.version = .peerToPeer → ∀ i ∈ [1, 2], 12 ≤ (S.inputs i).length)
    (hacc : ∀ i ∈ [1, 2], C.Accepts (S.inputs i)) :
    S.Right ↔ S.inputs 1 = S.inputs 2 ∨
      ∃ k < 12, S.slot 1 k ≠ S.slot 2 k ∧ S.mask k ≠ 0 := by
  rw [right_iff_slots C hp hlen hacc]
  by_cases heq : S.inputs 1 = S.inputs 2
  · have hslots : ∀ k, S.slot 1 k = S.slot 2 k := by
      intro k
      unfold slot
      rw [heq]
    exact ⟨fun _ => .inl heq, fun _ => ⟨fun _ => heq, fun _ k _ => .inl (hslots k)⟩⟩
  · simp [heq]

/-! ## Two runs -/

/-- The programs over the ideal instance. -/
def ideal (version : Version) (inputs : ℕ → List ℤ) (random : ℕ → ℕ → ℕ) :
    Setting OpenFHE.ideal where
  version := version
  inputs := inputs
  rand i := (i : ℤ)
  random := random
  peers i := [0, 1, 2].filter (· ≠ i)
  nodes_connected := by decide
  controller_connected _ := by decide

theorem accepts_ideal {version : Version} {inputs : ℕ → List ℤ} {random : ℕ → ℕ → ℕ}
    (h : ∀ i ∈ [1, 2], ∀ x ∈ inputs i, |x| < 65537) :
    ∀ i ∈ [1, 2], (OpenFHE.idealBFV (ideal version inputs random).cc).Accepts
      ((ideal version inputs random).inputs i) := h

theorem right_ones_twos :
    (ideal .peerToPeer (fun i => List.replicate 12 i) fun _ _ => 1).Right ∧
      (ideal .withController (fun i => List.replicate 12 i) fun _ _ => 1).Right :=
  ⟨(coMeasurement_iff (OpenFHE.idealBFV _) rfl (fun _ => by decide) (accepts_ideal (by decide))).mpr
      (.inr ⟨0, by decide, by decide, by decide⟩),
    (coMeasurement_iff (OpenFHE.idealBFV _) rfl (fun _ => by decide) (accepts_ideal (by decide))).mpr
      (.inr ⟨0, by decide, by decide, by decide⟩)⟩

/-- Vectors that differ in the thirteenth entry only; and a controller that draws zeros. -/
theorem not_right_slots :
    ¬ (ideal .peerToPeer (fun i => List.replicate 12 1 ++ [(i : ℤ)]) fun _ _ => 1).Right ∧
      ¬ (ideal .withController (fun i => List.replicate 12 i) fun _ _ => 65537).Right := by
  constructor
  · rw [right_iff_slots (OpenFHE.idealBFV _) rfl (fun _ => by decide) (accepts_ideal (by decide))]
    decide
  · rw [right_iff_slots (OpenFHE.idealBFV _) rfl (fun _ => by decide) (accepts_ideal (by decide))]
    decide

end Setting

end Measure

end P2P

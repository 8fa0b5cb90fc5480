import NetworkExamples.P2P.PathReceives
import Mathlib.Data.List.GetD
import Mathlib.Data.Rat.Defs
import Mathlib.Algebra.Field.Rat
import Mathlib.Tactic.Ring

/-!
# The statistics of the measurement along a path

What the controller of `controller_statistics.cpp` does with the decrypted values: it unpacks the
registers and prints the means. The registers are followed from the nodes' writes to the means over
an encryption without noise (`OpenFHE.IdealCKKS`).

* `encrypts_cipherText`: what the ciphertext holds after each node.
* `right_iff`: the printed means are right for three nodes, and for no other number.
-/

open Finset

namespace OpenFHE

/-- **An encryption of packed values without noise.** -/
structure IdealCKKS (F : OpenFHE) (cc : F.CryptoContext) (L : F.Additive cc) where
  /-- The packed values, as `GetCKKSPackedValue` gives them. -/
  slot : F.Plaintext → ℕ → ℚ
  /-- The ciphertext holds these values, under this secret. -/
  Encrypts : L.Share → F.Ciphertext → (ℕ → ℚ) → Prop
  makeCKKSPackedPlaintext : ∀ (v : List ℤ) (k : ℕ), v.length ≤ F.ringSize cc / 2 →
    slot (F.makeCKKSPackedPlaintext cc v) k = v.getD k 0
  encrypt : ∀ a s pk r pt, L.IsPublicKey a s pk → Encrypts s (F.encrypt cc r pk pt) (slot pt)
  evalAddPlain : ∀ s ct v pt, Encrypts s ct v →
    Encrypts s (F.evalAddPlain cc ct pt) fun k => v k + slot pt k
  /-- All partial decryptions, one of them the lead, in any order. -/
  multipartyDecryptFusion : ∀ (sk : ℕ → F.SecretKey) (r : ℕ → F.Rand) (nodes : List ℕ) (lead : ℕ)
    (ct : F.Ciphertext) (v : ℕ → ℚ), nodes.Nodup → lead ∈ nodes →
    Encrypts (∑ i ∈ nodes.toFinset, L.secret (sk i)) ct v →
    slot (F.multipartyDecryptFusion cc (nodes.map fun i =>
      if i = lead then F.multipartyDecryptLead cc (r i) ct (sk i)
      else F.multipartyDecryptMain cc (r i) ct (sk i))) = v

/-- The ideal instance, whose plaintexts and ciphertexts are the packed values. -/
def idealPacked (cc : CCParams) : ideal.IdealCKKS cc (idealAdditive cc) where
  slot pt k := (pt : List ℤ).getD k 0
  Encrypts _ ct v := (fun k => (((ct : List ℤ).getD k 0 : ℤ) : ℚ)) = v
  makeCKKSPackedPlaintext _ _ _ := rfl
  encrypt _ _ _ _ _ _ := rfl
  evalAddPlain _ _ _ _ h := by
    subst h
    funext k
    exact (congrArg Int.cast (getD_zipPacked (add_zero 0) _ _ k)).trans (Int.cast_add _ _)
  multipartyDecryptFusion _ _ nodes lead ct _ _ hlead h := by
    subst h
    obtain ⟨j, l, hl⟩ := List.exists_cons_of_ne_nil (List.ne_nil_of_mem hlead)
    rw [hl]
    -- Every partial decryption is the ciphertext, and the fusion takes the first.
    have hpart : (if j = lead then ct else ct) = ct := ite_self ct
    exact congrArg (fun (c : List ℤ) (k : ℕ) => ((c.getD k 0 : ℤ) : ℚ)) hpart

end OpenFHE

namespace P2P

open Fifo

namespace Statistics

/-! ## The controller's means -/

/-- The registers by their names. `none`: a register ends behind the vector. -/
def unpackPT (map2vector : Registers) (pt : List ℚ) : Option (List (String × List ℚ)) :=
  map2vector.mapM fun (name, offset, length) =>
    if offset + length ≤ pt.length then some (name, (pt.drop offset).take length) else none

/-- What the controller prints: the means of the three registers, and the number of elements. -/
structure Printed where
  ave_x1 : ℚ
  ave_x2 : ℚ
  ave_x3 : ℚ
  num_of_elements : ℚ
  deriving DecidableEq

def printMeans (map2vector : Registers) (ptvec : List ℚ) : Option Printed := do
  let unpacked_vectors ← unpackPT map2vector ptvec
  let x1 ← unpacked_vectors.lookup "v1"
  let x2 ← unpacked_vectors.lookup "v2"
  let x3 ← unpacked_vectors.lookup "v3"
  let n ← unpacked_vectors.lookup "n"
  let num_of_elements ← n[0]?
  pure ⟨x1.sum / num_of_elements, x2.sum / num_of_elements, x3.sum / num_of_elements,
    num_of_elements⟩

variable {F : OpenFHE}

/-! ## The registers -/

section

variable {cc : F.CryptoContext} {L : F.Additive cc} (C : F.IdealCKKS cc L) {s : L.Share}
  {ct : F.Ciphertext} {v : ℕ → ℚ}

/-- **A write adds to one entry.** -/
theorem encrypts_write {registers : Registers} {name : String} {offset length index : ℕ} (val : ℤ)
    (h : registers.lookup name = some (offset, length)) (hi : index < length)
    (hl : offset + length ≤ F.ringSize cc / 2) (hct : C.Encrypts s ct v) :
    ∃ ct', write registers cc ct name val index = some ct' ∧
      C.Encrypts s ct' fun k => v k + if k = offset + index then (val : ℚ) else 0 := by
  let invec := (List.replicate (offset + length) 0).set (offset + index) val
  have hslot : C.slot (F.makeCKKSPackedPlaintext cc invec) =
      fun k => if k = offset + index then (val : ℚ) else 0 := by
    funext k
    rw [C.makeCKKSPackedPlaintext invec k (by simpa [invec] using hl),
      Lists.getD_replicate_set _ _ _ (by omega)]
    by_cases hk : k = offset + index
    · rw [if_pos hk, if_pos hk]
    · rw [if_neg hk, if_neg hk]
      split <;> exact Int.cast_zero
  refine ⟨F.evalAddPlain cc ct (F.makeCKKSPackedPlaintext cc invec), write_eq h hi cc ct val, ?_⟩
  have hadd := C.evalAddPlain s ct v (F.makeCKKSPackedPlaintext cc invec) hct
  rwa [hslot] at hadd

/-- What a node adds to the entry `k`. -/
def contribution (vectorOfInts : List ℤ) (node_id k : ℕ) : ℚ :=
  ((if k = 0 + (node_id - 1) then (vectorOfInts.getD 0 0 : ℚ) else 0) +
    (if k = 4 + (node_id - 1) then (vectorOfInts.getD 1 0 : ℚ) else 0) +
    if k = 8 + (node_id - 1) then (vectorOfInts.getD 2 0 : ℚ) else 0) + if k = 12 + 0 then 1 else 0

/-- **A node adds its measurements** to the entries `node_id - 1` of the registers, and counts
itself. -/
theorem encrypts_accumulate (hring : 26 ≤ F.ringSize cc) {vectorOfInts : List ℤ}
    (hv : 3 ≤ vectorOfInts.length) {node_id : ℕ} (h1 : 1 ≤ node_id) (h4 : node_id ≤ 4)
    (hct : C.Encrypts s ct v) :
    ∃ ct', accumulate map2vector cc vectorOfInts node_id ct = some ct' ∧
      C.Encrypts s ct' fun k => v k + contribution vectorOfInts node_id k := by
  have hget : ∀ i, i < 3 → vectorOfInts[i]? = some (vectorOfInts.getD i 0) := by
    intro i hi
    rw [List.getD_eq_getElem?_getD, List.getElem?_eq_getElem (by omega), Option.getD_some]
  have hlt : node_id - 1 < 4 := by omega
  obtain ⟨ct₁, h₁, hct₁⟩ := encrypts_write C (vectorOfInts.getD 0 0)
    (show map2vector.lookup "v1" = some (0, 4) by decide) hlt (by omega) hct
  obtain ⟨ct₂, h₂, hct₂⟩ := encrypts_write C (vectorOfInts.getD 1 0)
    (show map2vector.lookup "v2" = some (4, 4) by decide) hlt (by omega) hct₁
  obtain ⟨ct₃, h₃, hct₃⟩ := encrypts_write C (vectorOfInts.getD 2 0)
    (show map2vector.lookup "v3" = some (8, 4) by decide) hlt (by omega) hct₂
  obtain ⟨ct₄, h₄, hct₄⟩ := encrypts_write C 1
    (show map2vector.lookup "n" = some (12, 1) by decide) Nat.one_pos (by omega) hct₃
  refine ⟨ct₄, ?_, ?_⟩
  · have hnames : "v" ++ toString (0 + 1) = "v1" ∧ "v" ++ toString (1 + 1) = "v2" ∧
        "v" ++ toString (2 + 1) = "v3" := by decide
    have hrange : List.range 3 = [0, 1, 2] := rfl
    simp only [accumulate, add, hrange, List.foldlM_cons, List.foldlM_nil, hget 0 (by decide),
      hget 1 (by decide), hget 2 (by decide), hnames, Option.bind_eq_bind, Option.bind_some,
      Option.pure_def, h₁, h₂, h₃, h₄]
  · convert hct₄ using 1
    funext k
    simp only [contribution]
    push_cast
    ring

end

/-! ## The run -/

namespace Setting

variable (S : Setting F) {L : F.Additive S.cc} (C : F.IdealCKKS S.cc L)

/-- What the registers hold after the nodes up to `i`. -/
def values (i k : ℕ) : ℚ := ∑ j ∈ range i, contribution (S.inputs (j + 1)) (j + 1) k

/-- The mean of the values `j` of all nodes. -/
def mean (j : ℕ) : ℚ := (∑ i ∈ Icc 1 S.N, ((S.inputs i).getD j 0 : ℚ)) / S.N

/-- **The statistics are right**: every run can be continued until the controller has ended, it
never fails, and what it prints are the means of the nodes' values. -/
def Right : Prop :=
  ∀ s, Net.Reach false (Net.init S.network) s →
    (∀ e, s.prog 0 ≠ .fail e) ∧
    (∀ x, s.prog 0 = .ret x → ∃ pt, x = some pt ∧
      (initializeMap (F.ringSize S.cc)).bind
          (printMeans · ((List.range 16).map (C.slot pt))) =
        some ⟨S.mean 0, S.mean 1, S.mean 2, S.N⟩) ∧
    ∃ s', Net.Reach false s s' ∧ ∃ x, s'.prog 0 = .ret x

variable {S} {i : ℕ}

/-- The secret of the joint public key. -/
theorem isPublicKey_finalPubKey : ∃ a, L.IsPublicKey a
    (∑ j ∈ Icc 1 S.N, L.secret (secretKey F S.cc S.rand j)) S.finalPubKey := by
  obtain ⟨a, ha⟩ := isPublicKey_keyPair L S.rand
  exact ⟨a, ha S.N (by have := S.two_le; omega)⟩

/-- **The ciphertext after node `i`** holds what the nodes up to `i` have added. -/
theorem encrypts_cipherText (hring : 26 ≤ F.ringSize S.cc) (hi : i ≤ 4) :
    C.Encrypts (∑ j ∈ Icc 1 S.N, L.secret (secretKey F S.cc S.rand j)) (S.cipherText i)
      (S.values i) := by
  induction i with
  | zero =>
    obtain ⟨a, ha⟩ := isPublicKey_finalPubKey (S := S) (L := L)
    have hzero : C.slot (F.makeCKKSPackedPlaintext S.cc
        (List.replicate (F.ringSize S.cc / 4 + F.ringSize S.cc / 4) 0)) = S.values 0 := by
      funext k
      rw [C.makeCKKSPackedPlaintext _ k (by rw [List.length_replicate]; omega),
        List.getD_eq_getElem?_getD, List.getElem?_replicate]
      split <;> simp [values]
    rw [← hzero]
    exact C.encrypt a _ _ _ _ ha
  | succ i ih =>
    obtain ⟨ct, hct, henc⟩ := encrypts_accumulate C hring (S.three_le (i + 1))
      (Nat.succ_pos i) hi (ih (by omega))
    have hsucc : S.cipherText (i + 1) = ct :=
      Option.some.inj ((cipherText_succ (by omega)).symm.trans hct)
    rw [hsucc]
    convert henc using 1
    funext k
    simp [values, sum_range_succ]

/-- The controller's plaintext holds what all nodes have added. -/
theorem slot_plaintext (hring : 26 ≤ F.ringSize S.cc) (hN4 : S.N ≤ 4) :
    C.slot S.plaintext = S.values S.N := by
  have hset : (S.peers 0).toFinset = Icc 1 S.N := by
    ext j
    simp [S.mem_names]
  refine C.multipartyDecryptFusion (secretKey F S.cc S.rand) S.rand (S.peers 0) 1
    (S.cipherText S.N) (S.values S.N) S.nodup_names ((S.mem_names 1).mpr (one_isNode S.two_le)) ?_
  rw [hset]
  exact encrypts_cipherText C hring hN4

/-- Three nodes: the means of the registers are the means of the nodes' values. -/
theorem printMeans_values (hN : S.N = 3) :
    printMeans map2vector ((List.range 16).map (S.values S.N)) =
      some ⟨S.mean 0, S.mean 1, S.mean 2, S.N⟩ := by
  have hprint : printMeans map2vector ((List.range 16).map (S.values 3)) =
      some ⟨(∑ k ∈ range 4, S.values 3 k) / S.values 3 12,
        (∑ k ∈ range 4, S.values 3 (4 + k)) / S.values 3 12,
        (∑ k ∈ range 4, S.values 3 (8 + k)) / S.values 3 12, S.values 3 12⟩ := by
    simp [printMeans, unpackPT, map2vector, sum_range_succ, List.range_succ, List.lookup_cons, add_assoc]
  have hcount : S.values 3 12 = 3 := by
    simp [values, contribution, sum_range_succ]
    norm_num
  have hsum : ∀ j, j < 3 → ∑ k ∈ range 4, S.values 3 (4 * j + k) =
      ∑ i ∈ Icc 1 3, ((S.inputs i).getD j 0 : ℚ) := by
    intro j hj
    obtain rfl | rfl | rfl : j = 0 ∨ j = 1 ∨ j = 2 := by omega
    · simp [values, contribution, sum_range_succ, sum_Icc_succ_top]
    · simp [values, contribution, sum_range_succ, sum_Icc_succ_top]
    · simp [values, contribution, sum_range_succ, sum_Icc_succ_top]
  have h0 := hsum 0 (by decide)
  have h1 := hsum 1 (by decide)
  have h2 := hsum 2 (by decide)
  simp only [Nat.mul_zero, Nat.zero_add, Nat.mul_one, Nat.reduceMul] at h0 h1 h2
  rw [hN, hprint, hcount, h0, h1, h2]
  simp [mean, hN]

/-- Three nodes: the statistics are right. -/
theorem right_of_three (hring : 26 ≤ F.ringSize S.cc) (hN : S.N = 3) : S.Right C := by
  have hr := runs (S := S) hring (by omega)
  have hnet : S.networkFor S.N = S.network := by rw [hN]; rfl
  rw [hnet] at hr
  have hstop : S.stop 0 = .ret (some S.plaintext) := if_pos rfl
  intro s hs
  -- A controller that has ended is at the end of its script.
  have hend : (s.prog 0).halted = true → s.prog 0 = .ret (some S.plaintext) := fun hh =>
    (hr.prog_eq_stop hs (hr.hist_eq_of_halted hs hh)).trans hstop
  refine ⟨fun e he => ?_, fun x hx => ?_, ?_⟩
  · have hp := hend (by rw [he]; rfl)
    rw [he] at hp
    cases hp
  · have hp := hend (by rw [hx]; rfl)
    rw [hx] at hp
    cases hp
    refine ⟨S.plaintext, rfl, ?_⟩
    rw [initializeMap_eq hring, slot_plaintext C hring (by omega)]
    exact printMeans_values hN
  · obtain ⟨s', hs', -, hp, -⟩ := hr.completes hs
    exact ⟨s', hs', _, (hp 0).trans hstop⟩

/-- Any other number: the run ends with the controller waiting for `Node3`. -/
theorem not_right (hN : S.N ≠ 3) : ¬ S.Right C := by
  intro h
  obtain ⟨stop, left, hwaits, hr⟩ := stuck_runs (S := S) (M := 3) (by decide) hN.symm
  obtain ⟨s, hs, -, hp, he⟩ := hr.completes (s := Net.init (S.networkFor 3)) .refl
  obtain ⟨-, -, s', hs', x, hx⟩ := h s hs
  rcases hs'.cases_head with rfl | ⟨t, ⟨i, hi⟩, -⟩
  · obtain ⟨a, sel, k, hw⟩ := hwaits
    rw [hp 0] at hx
    simp only [hw] at hx
    cases hx
  · exact he i ⟨t, hi⟩

/-- **The statistics are right** if and only if there are three nodes. -/
theorem right_iff (hring : 26 ≤ F.ringSize S.cc) : S.Right C ↔ S.N = 3 := by
  constructor
  · intro h
    by_contra hN
    exact not_right C hN h
  · exact right_of_three C hring

theorem right_three : (ideal 3 (by decide)).Right (OpenFHE.idealPacked _) :=
  (right_iff _ (by decide)).mpr rfl

theorem not_right_two : ¬ (ideal 2 (by decide)).Right (OpenFHE.idealPacked _) :=
  not_right _ (by decide)

end Setting

end Statistics

end P2P

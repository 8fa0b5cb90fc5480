import NetworkExamples.P2P.OpenFHE
import Mathlib.Algebra.BigOperators.Intervals
import Mathlib.Algebra.Order.Interval.Finset.SuccPred

/-!
# The joint keys of a chain of nodes

The keys that the nodes `1, …, N` compute in the joint key generations, as functions of their
random tapes. Both versions of the programs compute these.

* Public key: node 1 makes a key pair, and each next node a multiparty key pair from the public
  key of its predecessor (`keyPair`). The public key of node `N` is the joint key.
* Multiplication key: a switching key accumulates down the chain (`evalMultPrevandCurrent`); then
  each node's part of the final key accumulates back up (`evalMultAddskAll`).
* Summation keys: each node's keys are made from its predecessor's (`evalSumKeys0`), and
  accumulate down the chain (`evalSumKeys1`).

`isJoint`: if OpenFHE's operations are additive, each node's contribution is in each key once.
-/

namespace P2P

open OpenFHE Finset

/-- The results of the joint key generations at one node. -/
structure JointKeys (F : OpenFHE) where
  finalPubKey : F.PublicKey
  evalMultFinal : Option F.EvalKey
  evalSumFinal : Option F.EvalSumKeys

/-- **The keys are joint**: `sk i` is the secret key of node `i`. The public key belongs to the
sum of the secrets; the multiplication key is the sum of the `MultiMultEvalKey` of all nodes for a
switching key of that sum; the summation keys are the sum of the nodes' keys. -/
structure JointKeys.IsJoint {F : OpenFHE} {cc : F.CryptoContext} (L : F.Additive cc) (N : ℕ)
    (r : ℕ → F.Rand) (sk : ℕ → F.SecretKey) (K : JointKeys F) : Prop where
  finalPubKey : ∃ a, L.IsPublicKey a (∑ i ∈ Icc 1 N, L.secret (sk i)) K.finalPubKey
  evalMultFinal : ∃ a evalMultAll evalMult, K.evalMultFinal = some evalMult ∧
    L.IsEvalKey a (∑ i ∈ Icc 1 N, L.secret (sk i)) evalMultAll ∧
    L.evalKeyData evalMult = ∑ i ∈ Icc 1 N, L.evalKeyData
      (F.multiMultEvalKey cc (r i) (sk i) evalMultAll (F.getKeyTag K.finalPubKey))
  evalSumFinal : ∃ (a : L.Common) (keys : ℕ → F.EvalSumKeys) (evalSum : F.EvalSumKeys),
    K.evalSumFinal = some evalSum ∧
    (∀ i ∈ Icc 1 N, L.IsEvalSumKeys a (L.secret (sk i)) (keys i)) ∧
    L.evalSumKeysData evalSum = ∑ i ∈ Icc 1 N, L.evalSumKeysData (keys i)

section

variable (F : OpenFHE) (cc : F.CryptoContext) (r : ℕ → F.Rand)

/-! ## The chain of keys -/

/-- The key pair of node `i`. -/
def keyPair : ℕ → KeyPair F.PublicKey F.SecretKey
  | 0 => F.keyGen cc (r 0)
  | 1 => F.keyGen cc (r 1)
  | i + 2 => F.multipartyKeyGen cc (r (i + 2)) (keyPair (i + 1)).publicKey

/-- The secret key of node `i`. -/
abbrev secretKey (i : ℕ) : F.SecretKey := (keyPair F cc r i).secretKey

/-- The switching key of the nodes up to `i`. -/
def evalMultPrevandCurrent : ℕ → F.EvalKey
  | 0 => F.keySwitchGen cc (r 0) (secretKey F cc r 0) (secretKey F cc r 0)
  | 1 => F.keySwitchGen cc (r 1) (secretKey F cc r 1) (secretKey F cc r 1)
  | i + 2 => F.multiAddEvalKeys cc (evalMultPrevandCurrent (i + 1))
      (F.multiKeySwitchGen cc (r (i + 2)) (secretKey F cc r (i + 2)) (secretKey F cc r (i + 2))
        (evalMultPrevandCurrent (i + 1)))
      (F.getKeyTag (keyPair F cc r (i + 2)).publicKey)

/-- The part of node `i` in the final multiplication key. -/
abbrev evalMultskAll (N i : ℕ) : F.EvalKey :=
  F.multiMultEvalKey cc (r i) (secretKey F cc r i) (evalMultPrevandCurrent F cc r N)
    (F.getKeyTag (keyPair F cc r N).publicKey)

/-- The parts of the `k + 1` last nodes of the chain, accumulated. -/
def evalMultAddskAllFrom (N : ℕ) : ℕ → F.EvalKey
  | 0 => evalMultskAll F cc r N N
  | k + 1 => F.multiAddEvalMultKeys cc (evalMultskAll F cc r N (N - (k + 1)))
      (evalMultAddskAllFrom N k) (F.getKeyTag (keyPair F cc r N).publicKey)

/-- The parts of the nodes `i, …, N`, accumulated: what node `i` sends up the chain. -/
def evalMultAddskAll (N i : ℕ) : F.EvalKey := evalMultAddskAllFrom F cc r N (N - i)

/-- The summation keys of node `i`. -/
def evalSumKeys0 : ℕ → F.EvalSumKeys
  | 0 => F.evalSumKeyGen cc (r 0) (secretKey F cc r 0)
  | 1 => F.evalSumKeyGen cc (r 1) (secretKey F cc r 1)
  | i + 2 => F.multiEvalSumKeyGen cc (r (i + 2)) (secretKey F cc r (i + 2)) (evalSumKeys0 (i + 1))
      (F.getKeyTag (keyPair F cc r (i + 2)).publicKey)

/-- The summation keys of the nodes up to `i`, accumulated. -/
def evalSumKeys1 : ℕ → F.EvalSumKeys
  | 0 => evalSumKeys0 F cc r 0
  | 1 => evalSumKeys0 F cc r 1
  | i + 2 => F.multiAddEvalSumKeys cc (evalSumKeys1 (i + 1)) (evalSumKeys0 F cc r (i + 2))
      (F.getKeyTag (keyPair F cc r (i + 2)).publicKey)

/-- The keys that all nodes end with. -/
def jointKeys (N : ℕ) : JointKeys F where
  finalPubKey := (keyPair F cc r N).publicKey
  evalMultFinal := some (evalMultAddskAll F cc r N 1)
  evalSumFinal := some (evalSumKeys1 F cc r N)

variable {i N : ℕ}

theorem keyPair_of_lt (hi : 1 < i) :
    keyPair F cc r i = F.multipartyKeyGen cc (r i) (keyPair F cc r (i - 1)).publicKey := by
  obtain ⟨j, rfl⟩ : ∃ j, i = j + 2 := ⟨i - 2, by omega⟩
  rfl

theorem evalMultPrevandCurrent_of_lt (hi : 1 < i) :
    evalMultPrevandCurrent F cc r i = F.multiAddEvalKeys cc (evalMultPrevandCurrent F cc r (i - 1))
      (F.multiKeySwitchGen cc (r i) (secretKey F cc r i) (secretKey F cc r i)
        (evalMultPrevandCurrent F cc r (i - 1))) (F.getKeyTag (keyPair F cc r i).publicKey) := by
  obtain ⟨j, rfl⟩ : ∃ j, i = j + 2 := ⟨i - 2, by omega⟩
  rfl

theorem evalMultAddskAll_last :
    evalMultAddskAll F cc r N N = F.multiMultEvalKey cc (r N) (secretKey F cc r N)
      (evalMultPrevandCurrent F cc r N) (F.getKeyTag (keyPair F cc r N).publicKey) := by
  simp [evalMultAddskAll, evalMultAddskAllFrom]

theorem evalMultAddskAll_of_lt (hi : i < N) :
    evalMultAddskAll F cc r N i = F.multiAddEvalMultKeys cc (evalMultskAll F cc r N i)
      (evalMultAddskAll F cc r N (i + 1)) (F.getKeyTag (keyPair F cc r N).publicKey) := by
  obtain ⟨k, hk⟩ : ∃ k, N - i = k + 1 := ⟨N - i - 1, by omega⟩
  have h1 : N - (i + 1) = k := by omega
  have h2 : N - (k + 1) = i := by omega
  simp [evalMultAddskAll, hk, h1, h2, evalMultAddskAllFrom]

theorem evalSumKeys0_of_lt (hi : 1 < i) :
    evalSumKeys0 F cc r i = F.multiEvalSumKeyGen cc (r i) (secretKey F cc r i)
      (evalSumKeys0 F cc r (i - 1)) (F.getKeyTag (keyPair F cc r i).publicKey) := by
  obtain ⟨j, rfl⟩ : ∃ j, i = j + 2 := ⟨i - 2, by omega⟩
  rfl

theorem evalSumKeys1_of_lt (hi : 1 < i) :
    evalSumKeys1 F cc r i = F.multiAddEvalSumKeys cc (evalSumKeys1 F cc r (i - 1))
      (evalSumKeys0 F cc r i) (F.getKeyTag (keyPair F cc r i).publicKey) := by
  obtain ⟨j, rfl⟩ : ∃ j, i = j + 2 := ⟨i - 2, by omega⟩
  rfl

end

/-! ## Each contribution once -/

section

variable {F : OpenFHE} {cc : F.CryptoContext} (L : F.Additive cc) (r : ℕ → F.Rand)

theorem isPublicKey_keyPair : ∃ a, ∀ i, 1 ≤ i →
    L.IsPublicKey a (∑ j ∈ Icc 1 i, L.secret (secretKey F cc r j)) (keyPair F cc r i).publicKey := by
  obtain ⟨a, ha⟩ := L.keyGen (r 1)
  refine ⟨a, fun i hi => ?_⟩
  induction i, hi using Nat.le_induction with
  | base => simpa [secretKey, keyPair] using ha
  | succ i hi ih =>
    rw [sum_Icc_succ_top (by omega), secretKey, keyPair_of_lt F cc r (by omega : 1 < i + 1)]
    exact L.multipartyKeyGen _ _ _ _ ih

theorem isEvalKey_evalMultPrevandCurrent : ∃ a, ∀ i, 1 ≤ i →
    L.IsEvalKey a (∑ j ∈ Icc 1 i, L.secret (secretKey F cc r j))
      (evalMultPrevandCurrent F cc r i) := by
  obtain ⟨a, ha⟩ := L.keySwitchGen (r 1) (secretKey F cc r 1)
  refine ⟨a, fun i hi => ?_⟩
  induction i, hi using Nat.le_induction with
  | base => simpa [evalMultPrevandCurrent] using ha
  | succ i hi ih =>
    rw [sum_Icc_succ_top (by omega), evalMultPrevandCurrent_of_lt F cc r (by omega : 1 < i + 1)]
    exact L.multiAddEvalKeys _ _ _ _ _ _ ih (L.multiKeySwitchGen _ _ _ _ _ ih)

/-- What goes up the chain is the sum of the parts of the nodes behind. -/
theorem evalKeyData_evalMultAddskAll {N i : ℕ} (hi : i ≤ N) :
    L.evalKeyData (evalMultAddskAll F cc r N i) =
      ∑ j ∈ Icc i N, L.evalKeyData (evalMultskAll F cc r N j) := by
  induction hi using Nat.decreasingInduction with
  | self => simp [evalMultAddskAll_last]
  | of_succ i hi ih =>
    rw [evalMultAddskAll_of_lt F cc r hi, L.multiAddEvalMultKeys, ih, Icc_add_one_left_eq_Ioc,
      add_sum_Ioc_eq_sum_Icc (f := fun j => L.evalKeyData (evalMultskAll F cc r N j)) hi.le]

theorem isEvalSumKeys_evalSumKeys0 : ∃ a, ∀ i, 1 ≤ i →
    L.IsEvalSumKeys a (L.secret (secretKey F cc r i)) (evalSumKeys0 F cc r i) := by
  obtain ⟨a, ha⟩ := L.evalSumKeyGen (r 1) (secretKey F cc r 1)
  refine ⟨a, fun i hi => ?_⟩
  induction i, hi using Nat.le_induction with
  | base => exact ha
  | succ i hi ih =>
    rw [evalSumKeys0_of_lt F cc r (by omega : 1 < i + 1)]
    exact L.multiEvalSumKeyGen _ _ _ _ _ _ ih

theorem evalSumKeysData_evalSumKeys1 {i : ℕ} (hi : 1 ≤ i) :
    L.evalSumKeysData (evalSumKeys1 F cc r i) =
      ∑ j ∈ Icc 1 i, L.evalSumKeysData (evalSumKeys0 F cc r j) := by
  induction i, hi using Nat.le_induction with
  | base => simp [evalSumKeys1]
  | succ i hi ih =>
    rw [sum_Icc_succ_top (by omega), evalSumKeys1_of_lt F cc r (by omega : 1 < i + 1),
      L.multiAddEvalSumKeys, Nat.add_sub_cancel, ih]

/-- **The keys of the chain are joint.** -/
theorem isJoint {N : ℕ} (hN : 1 ≤ N) :
    (jointKeys F cc r N).IsJoint L N r (secretKey F cc r) where
  finalPubKey := by
    obtain ⟨a, ha⟩ := isPublicKey_keyPair L r
    exact ⟨a, ha N hN⟩
  evalMultFinal := by
    obtain ⟨a, ha⟩ := isEvalKey_evalMultPrevandCurrent L r
    exact ⟨a, _, _, rfl, ha N hN, evalKeyData_evalMultAddskAll L r hN⟩
  evalSumFinal := by
    obtain ⟨a, ha⟩ := isEvalSumKeys_evalSumKeys0 L r
    exact ⟨a, _, _, rfl, fun i hi => ha i (mem_Icc.mp hi).1, evalSumKeysData_evalSumKeys1 L r hN⟩

end

end P2P

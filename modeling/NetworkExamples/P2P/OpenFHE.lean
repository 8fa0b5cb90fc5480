import Mathlib.Algebra.BigOperators.Group.Finset.Basic
import Mathlib.Data.List.GetD
import Mathlib.Data.ZMod.ValMinAbs
import Mathlib.Order.Interval.Finset.Nat

/-!
# What the programs use of OpenFHE

OpenFHE is not part of the repository: its types and operations are a parameter (`OpenFHE`), under
the names of the C++ calls. A random operation takes the random tape of the node that calls it.

* `OpenFHE.Additive`: the multiparty key operations are additive in the key shares. A key is known
  by the secret it belongs to and the common random polynomials it is made with; the noise is not
  fixed.
* `OpenFHE.Recovers`: enough shares of a secret key recover it.
* `OpenFHE.ideal`: an instance without noise, in which a key is its secret and a share names its
  dealer's secret.
-/

/-- A public key and its secret key. -/
structure KeyPair (PublicKey SecretKey : Type) where
  publicKey : PublicKey
  secretKey : SecretKey

/-- The parameters of a crypto context. -/
inductive CCParams where
  | bfvrns (plaintextModulus multDepth batchSize digitSize dcrtBits : ℕ)
  /-- The digit size and the size of the moduli are left to OpenFHE. -/
  | bfvrnsDefault (plaintextModulus multDepth batchSize : ℕ)
  | ckksrns (multDepth scaleFactorBits : ℕ)

/-- The plaintext modulus of a BFV context. -/
def CCParams.modulus : CCParams → ℕ
  | .bfvrns plaintextModulus .. | .bfvrnsDefault plaintextModulus .. => plaintextModulus
  | .ckksrns .. => 0

/-- The types and operations of OpenFHE. -/
structure OpenFHE where
  CryptoContext : Type
  PublicKey : Type
  SecretKey : Type
  KeyTag : Type
  EvalKey : Type
  /-- The shared `std::map` from automorphism indices to evaluation keys. -/
  EvalSumKeys : Type
  DCRTPoly : Type
  Plaintext : Type
  Ciphertext : Type
  /-- The random tape of a node. -/
  Rand : Type
  genCryptoContext : CCParams → CryptoContext
  /-- Half the cyclotomic order. -/
  ringSize : CryptoContext → ℕ
  plaintextModulus : CryptoContext → ℕ
  keyGen : CryptoContext → Rand → KeyPair PublicKey SecretKey
  multipartyKeyGen : CryptoContext → Rand → PublicKey → KeyPair PublicKey SecretKey
  getKeyTag : PublicKey → KeyTag
  keySwitchGen : CryptoContext → Rand → SecretKey → SecretKey → EvalKey
  multiKeySwitchGen : CryptoContext → Rand → SecretKey → SecretKey → EvalKey → EvalKey
  multiAddEvalKeys : CryptoContext → EvalKey → EvalKey → KeyTag → EvalKey
  multiMultEvalKey : CryptoContext → Rand → SecretKey → EvalKey → KeyTag → EvalKey
  multiAddEvalMultKeys : CryptoContext → EvalKey → EvalKey → KeyTag → EvalKey
  /-- `EvalSumKeyGen`, then the key map it has stored. -/
  evalSumKeyGen : CryptoContext → Rand → SecretKey → EvalSumKeys
  multiEvalSumKeyGen : CryptoContext → Rand → SecretKey → EvalSumKeys → KeyTag → EvalSumKeys
  multiAddEvalSumKeys : CryptoContext → EvalSumKeys → EvalSumKeys → KeyTag → EvalSumKeys
  /-- The shares of a secret key, dealt by node `index`, by their holders. -/
  shareKeys : CryptoContext → Rand → SecretKey → (N threshold index : ℕ) → ℕ → DCRTPoly
  /-- `none`: the call throws. -/
  recoverSharedKey : CryptoContext → (ℕ → Option DCRTPoly) → (N threshold : ℕ) → Option SecretKey
  makePackedPlaintext : CryptoContext → List ℤ → Plaintext
  makeCKKSPackedPlaintext : CryptoContext → List ℤ → Plaintext
  encrypt : CryptoContext → Rand → PublicKey → Plaintext → Ciphertext
  evalAddPlain : CryptoContext → Ciphertext → Plaintext → Ciphertext
  evalSub : CryptoContext → Ciphertext → Ciphertext → Ciphertext
  /-- Uses the multiplication key that was inserted in the context. -/
  evalMult : CryptoContext → EvalKey → Ciphertext → Ciphertext → Ciphertext
  /-- Uses the multiplication key that was inserted in the context. -/
  evalMultMany : CryptoContext → EvalKey → List Ciphertext → Ciphertext
  evalAddMany : CryptoContext → List Ciphertext → Ciphertext
  /-- Uses the summation keys that were inserted in the context. -/
  evalSum : CryptoContext → EvalSumKeys → Ciphertext → (batchSize : ℕ) → Ciphertext
  multipartyDecryptLead : CryptoContext → Rand → Ciphertext → SecretKey → Ciphertext
  multipartyDecryptMain : CryptoContext → Rand → Ciphertext → SecretKey → Ciphertext
  multipartyDecryptFusion : CryptoContext → List Ciphertext → Plaintext
  /-- `SetLength`, then `GetPackedValue`. -/
  getPackedValue : CryptoContext → Plaintext → (length : ℕ) → List ℤ

namespace OpenFHE

/-- **The key operations are additive in the key shares.** -/
structure Additive (F : OpenFHE) (cc : F.CryptoContext) where
  /-- The group of the secrets. -/
  Share : Type
  [share : AddCommMonoid Share]
  secret : F.SecretKey → Share
  /-- The random polynomials that the parts of a joint key have in common. -/
  Common : Type
  /-- A public key for a secret. -/
  IsPublicKey : Common → Share → F.PublicKey → Prop
  /-- A switching key from the square of a secret to the secret. -/
  IsEvalKey : Common → Share → F.EvalKey → Prop
  /-- The summation keys of a secret. -/
  IsEvalSumKeys : Common → Share → F.EvalSumKeys → Prop
  /-- The group of the evaluation keys: their polynomials without the key tag. -/
  KeyData : Type
  [keyData : AddCommMonoid KeyData]
  evalKeyData : F.EvalKey → KeyData
  SumKeyData : Type
  [sumKeyData : AddCommMonoid SumKeyData]
  evalSumKeysData : F.EvalSumKeys → SumKeyData
  keyGen : ∀ r, ∃ a, IsPublicKey a (secret (F.keyGen cc r).secretKey) (F.keyGen cc r).publicKey
  multipartyKeyGen : ∀ a s pk r, IsPublicKey a s pk →
    IsPublicKey a (s + secret (F.multipartyKeyGen cc r pk).secretKey)
      (F.multipartyKeyGen cc r pk).publicKey
  keySwitchGen : ∀ r sk, ∃ a, IsEvalKey a (secret sk) (F.keySwitchGen cc r sk sk)
  multiKeySwitchGen : ∀ a s ek r sk, IsEvalKey a s ek →
    IsEvalKey a (secret sk) (F.multiKeySwitchGen cc r sk sk ek)
  multiAddEvalKeys : ∀ a s s' ek ek' t, IsEvalKey a s ek → IsEvalKey a s' ek' →
    IsEvalKey a (s + s') (F.multiAddEvalKeys cc ek ek' t)
  multiAddEvalMultKeys : ∀ ek ek' t,
    evalKeyData (F.multiAddEvalMultKeys cc ek ek' t) = evalKeyData ek + evalKeyData ek'
  evalSumKeyGen : ∀ r sk, ∃ a, IsEvalSumKeys a (secret sk) (F.evalSumKeyGen cc r sk)
  multiEvalSumKeyGen : ∀ a s ks r sk t, IsEvalSumKeys a s ks →
    IsEvalSumKeys a (secret sk) (F.multiEvalSumKeyGen cc r sk ks t)
  multiAddEvalSumKeys : ∀ ks ks' t,
    evalSumKeysData (F.multiAddEvalSumKeys cc ks ks' t) = evalSumKeysData ks + evalSumKeysData ks'

attribute [instance] Additive.share Additive.keyData Additive.sumKeyData

/-- **Any `threshold` shares of a secret key recover it**: `shares` holds the shares that node
`index` dealt to some of the other nodes, and no others. -/
def Recovers (F : OpenFHE) (cc : F.CryptoContext) : Prop :=
  ∀ r sk N threshold index (shares : ℕ → Option F.DCRTPoly) (holders : Finset ℕ),
    0 < threshold → threshold ≤ holders.card → (∀ j ∈ holders, 1 ≤ j ∧ j ≤ N ∧ j ≠ index) →
    (∀ j, shares j =
      if j ∈ holders then some (F.shareKeys cc r sk N threshold index j) else none) →
    F.recoverSharedKey cc shares N threshold = some sk

/-! ## An ideal instance -/

/-- An operation on two packed vectors; the shorter one is filled up with zeros. -/
def zipPacked (f : ℤ → ℤ → ℤ) (v w : List ℤ) : List ℤ :=
  (List.range (max v.length w.length)).map fun k => f (v.getD k 0) (w.getD k 0)

theorem getD_zipPacked {f : ℤ → ℤ → ℤ} (hf : f 0 0 = 0) (v w : List ℤ) (k : ℕ) :
    (zipPacked f v w).getD k 0 = f (v.getD k 0) (w.getD k 0) := by
  unfold zipPacked
  by_cases hk : k < max v.length w.length
  · rw [List.getD_eq_getElem?_getD, List.getElem?_map, List.getElem?_range hk]
    rfl
  · have hlen : v.length ≤ k ∧ w.length ≤ k := by omega
    rw [List.getD_eq_default v 0 hlen.1, List.getD_eq_default w 0 hlen.2,
      List.getD_eq_default _ 0 (by simpa using hlen), hf]

/-- Keys and ciphertexts in the clear: a random tape is the secret key that it gives. -/
def ideal : OpenFHE where
  CryptoContext := CCParams
  PublicKey := ℤ
  SecretKey := ℤ
  KeyTag := ℤ
  EvalKey := ℤ
  EvalSumKeys := ℤ
  DCRTPoly := ℤ
  Plaintext := List ℤ
  Ciphertext := List ℤ
  Rand := ℤ
  genCryptoContext params := params
  ringSize _ := 8192
  plaintextModulus cc := cc.modulus
  keyGen _ r := ⟨r, r⟩
  multipartyKeyGen _ r pk := ⟨pk + r, r⟩
  getKeyTag pk := pk
  keySwitchGen _ _ sk _ := sk
  multiKeySwitchGen _ _ sk _ _ := sk
  multiAddEvalKeys _ ek ek' _ := ek + ek'
  multiMultEvalKey _ _ sk ek _ := sk * ek
  multiAddEvalMultKeys _ ek ek' _ := ek + ek'
  evalSumKeyGen _ _ sk := sk
  multiEvalSumKeyGen _ _ sk _ _ := sk
  multiAddEvalSumKeys _ ks ks' _ := ks + ks'
  shareKeys _ _ sk _ _ _ _ := sk
  recoverSharedKey _ shares N threshold :=
    let held := (List.range' 1 N).filterMap shares
    if threshold ≤ held.length then held.head? else none
  makePackedPlaintext _ v := v
  makeCKKSPackedPlaintext _ v := v
  encrypt _ _ _ pt := pt
  evalAddPlain _ ct pt := zipPacked (· + ·) ct pt
  evalSub _ ct ct' := zipPacked (· - ·) ct ct'
  evalMult _ _ ct ct' := zipPacked (· * ·) ct ct'
  evalMultMany _ _ cts := cts.foldl (List.zipWith (· * ·)) (cts.headD [])
  evalAddMany _ cts := cts.foldl (List.zipWith (· + ·)) (cts.headD [])
  evalSum _ _ ct batchSize := [(ct.take batchSize).sum]
  multipartyDecryptLead _ _ ct _ := ct
  multipartyDecryptMain _ _ ct _ := ct
  multipartyDecryptFusion _ cts := cts.headD []
  getPackedValue cc pt length :=
    (List.range length).map fun k => ((pt.getD k 0 : ℤ) : ZMod cc.modulus).valMinAbs

/-- The ideal instance is additive. -/
def idealAdditive (cc : CCParams) : ideal.Additive cc where
  Share := ℤ
  secret sk := sk
  Common := Unit
  IsPublicKey _ s pk := pk = s
  IsEvalKey _ s ek := ek = s
  IsEvalSumKeys _ s ks := ks = s
  KeyData := ℤ
  evalKeyData ek := ek
  SumKeyData := ℤ
  evalSumKeysData ks := ks
  keyGen _ := ⟨(), rfl⟩
  multipartyKeyGen _ _ _ _ h := by subst h; rfl
  keySwitchGen _ _ := ⟨(), rfl⟩
  multiKeySwitchGen _ _ _ _ _ _ := rfl
  multiAddEvalKeys _ _ _ _ _ _ h h' := by subst h h'; rfl
  multiAddEvalMultKeys _ _ _ := rfl
  evalSumKeyGen _ _ := ⟨(), rfl⟩
  multiEvalSumKeyGen _ _ _ _ _ _ _ := rfl
  multiAddEvalSumKeys _ _ _ := rfl

theorem head?_held {shares : ℕ → Option ℤ} {sk : ℤ} {N threshold : ℕ} {holders : Finset ℕ}
    (hpos : 0 < threshold) (hle : threshold ≤ holders.card)
    (hmem : ∀ j ∈ holders, 1 ≤ j ∧ j ≤ N)
    (hshares : ∀ j, shares j = if j ∈ holders then some sk else none) :
    (if threshold ≤ ((List.range' 1 N).filterMap shares).length then
      ((List.range' 1 N).filterMap shares).head? else none) = some sk := by
  have hheld : (List.range' 1 N).filterMap shares =
      ((List.range' 1 N).filter (· ∈ holders)).map fun _ => sk := by
    rw [← List.filterMap_eq_map, List.filterMap_filter]
    refine List.filterMap_congr fun j _ => ?_
    simp only [hshares, decide_eq_true_eq]
    rfl
  have hlen : ((List.range' 1 N).filter (· ∈ holders)).length = holders.card := by
    rw [← List.toFinset_card_of_nodup ((List.nodup_range' 1).filter _)]
    congr 1
    ext j
    simp only [List.mem_toFinset, List.mem_filter, List.mem_range'_1, decide_eq_true_eq,
      and_iff_right_iff_imp]
    intro hj
    have := hmem j hj
    omega
  rw [hheld, List.length_map, hlen, if_pos hle]
  obtain ⟨j, l, hl⟩ := List.exists_cons_of_ne_nil
    (List.ne_nil_of_length_pos (hlen ▸ hpos.trans_le hle))
  rw [hl]
  rfl

/-- In the ideal instance every share is the key itself. -/
theorem ideal_recovers (cc : CCParams) : ideal.Recovers cc :=
  fun _ _ _ _ _ _ _ hpos hle hmem hshares =>
    head?_held hpos hle (fun j hj => ⟨(hmem j hj).1, (hmem j hj).2.1⟩) hshares

end OpenFHE

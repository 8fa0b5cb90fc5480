import NetworkExamples.P2P.JointKeys

/-!
# What the co-measurement programs have in common

The co-measurements of the client-server network (`thresh_client_measure.cpp`) and of the
peer-to-peer network (`network_measure.cpp`, `network_measure_with_controller.cpp`) mask the nodes'
vectors, subtract the ciphertexts, and test whether the first 12 slots of the decrypted difference
are 0.

* `OpenFHE.IdealBFV`: what these programs rely on, an encryption of packed values without noise.
* `P2P.printVerdict`: the loop over the 12 slots.
* `P2P.theSame_mem_printVerdict`: which differences print `theSame`.
-/

open Finset

namespace OpenFHE

/-- **An encryption of packed values modulo the plaintext modulus, without noise.** -/
structure IdealBFV (F : OpenFHE) (cc : F.CryptoContext) (L : F.Additive cc) where
  slot : F.Plaintext → ℕ → ZMod (F.plaintextModulus cc)
  /-- The ciphertext holds these values, under this secret. -/
  Encrypts : L.Share → F.Ciphertext → (ℕ → ZMod (F.plaintextModulus cc)) → Prop
  /-- The vectors that the encoder takes. -/
  Accepts : List ℤ → Prop
  abs_lt : ∀ v, Accepts v → ∀ x ∈ v, |x| < F.plaintextModulus cc
  accepts : ∀ v : List ℤ, v.length = 12 → (∀ x ∈ v, |x| < F.plaintextModulus cc) → Accepts v
  makePackedPlaintext : ∀ v k, Accepts v → slot (F.makePackedPlaintext cc v) k = (v.getD k 0 : ℤ)
  getPackedValue : ∀ pt length, F.getPackedValue cc pt length =
    (List.range length).map fun k => (slot pt k).valMinAbs
  encrypt : ∀ a s pk r pt, L.IsPublicKey a s pk → Encrypts s (F.encrypt cc r pk pt) (slot pt)
  evalSub : ∀ s ct ct' v v', Encrypts s ct v → Encrypts s ct' v' →
    Encrypts s (F.evalSub cc ct ct') fun k => v k - v' k
  /-- The multiplication key is the sum of the parts of all nodes. -/
  evalMult : ∀ (N : ℕ) (r : ℕ → F.Rand) (sk : ℕ → F.SecretKey) a evalMultAll tag ek ct ct' v v',
    L.IsEvalKey a (∑ i ∈ Icc 1 N, L.secret (sk i)) evalMultAll →
    L.evalKeyData ek =
      ∑ i ∈ Icc 1 N, L.evalKeyData (F.multiMultEvalKey cc (r i) (sk i) evalMultAll tag) →
    Encrypts (∑ i ∈ Icc 1 N, L.secret (sk i)) ct v →
    Encrypts (∑ i ∈ Icc 1 N, L.secret (sk i)) ct' v' →
    Encrypts (∑ i ∈ Icc 1 N, L.secret (sk i)) (F.evalMult cc ek ct ct') fun k => v k * v' k
  /-- All partial decryptions, one of them the lead, in any order. -/
  multipartyDecryptFusion : ∀ (sk : ℕ → F.SecretKey) (r : ℕ → F.Rand) (nodes : List ℕ) (lead : ℕ)
    (ct : F.Ciphertext) v, nodes.Nodup → lead ∈ nodes →
    Encrypts (∑ i ∈ nodes.toFinset, L.secret (sk i)) ct v →
    slot (F.multipartyDecryptFusion cc (nodes.map fun i =>
      if i = lead then F.multipartyDecryptLead cc (r i) ct (sk i)
      else F.multipartyDecryptMain cc (r i) ct (sk i))) = v

/-- The ideal instance, whose plaintexts and ciphertexts are the packed values. -/
def idealBFV (cc : CCParams) : ideal.IdealBFV cc (idealAdditive cc) where
  slot pt k := ((pt : List ℤ).getD k 0 : ℤ)
  Encrypts _ ct v := (fun k => (((ct : List ℤ).getD k 0 : ℤ) : ZMod cc.modulus)) = v
  Accepts v := ∀ x ∈ v, |x| < cc.modulus
  abs_lt _ h := h
  accepts _ _ h := h
  makePackedPlaintext _ _ _ := rfl
  getPackedValue _ _ := rfl
  encrypt _ _ _ _ _ _ := rfl
  evalSub _ _ _ _ _ h h' := by
    subst h h'
    funext k
    exact (congrArg Int.cast (getD_zipPacked (sub_zero 0) _ _ k)).trans (Int.cast_sub _ _)
  evalMult _ _ _ _ _ _ _ _ _ _ _ _ _ h h' := by
    subst h h'
    funext k
    exact (congrArg Int.cast (getD_zipPacked (mul_zero 0) _ _ k)).trans (Int.cast_mul _ _)
  multipartyDecryptFusion _ _ nodes lead ct _ _ hlead h := by
    subst h
    obtain ⟨j, l, hl⟩ := List.exists_cons_of_ne_nil (List.ne_nil_of_mem hlead)
    rw [hl]
    -- Every partial decryption is the ciphertext, and the fusion takes the first.
    have hpart : (if j = lead then ct else ct) = ct := ite_self ct
    exact congrArg (fun (c : List ℤ) (k : ℕ) => ((c.getD k 0 : ℤ) : ZMod cc.modulus)) hpart

namespace IdealBFV

variable {F : OpenFHE} {cc : F.CryptoContext} {L : F.Additive cc} (C : F.IdealBFV cc L)
  (r : ℕ → F.Rand) {N : ℕ}

/-- A vector encrypted under the key of the chain. -/
theorem encrypts_chain (hN : 1 ≤ N) (r' : F.Rand) {v : List ℤ} (hv : C.Accepts v) :
    C.Encrypts (∑ i ∈ Icc 1 N, L.secret (P2P.secretKey F cc r i))
      (F.encrypt cc r' (P2P.keyPair F cc r N).publicKey (F.makePackedPlaintext cc v))
      fun k => (v.getD k 0 : ℤ) := by
  obtain ⟨a, ha⟩ := P2P.isPublicKey_keyPair L r
  have henc := C.encrypt a _ _ r' (F.makePackedPlaintext cc v) (ha N hN)
  have hslot : C.slot (F.makePackedPlaintext cc v) = fun k => ((v.getD k 0 : ℤ) : ZMod _) :=
    funext fun k => C.makePackedPlaintext v k hv
  rwa [hslot] at henc

/-- A multiplication with the key of the chain. -/
theorem evalMult_chain (hN : 1 ≤ N) {ct ct' : F.Ciphertext}
    {v v' : ℕ → ZMod (F.plaintextModulus cc)}
    (h : C.Encrypts (∑ i ∈ Icc 1 N, L.secret (P2P.secretKey F cc r i)) ct v)
    (h' : C.Encrypts (∑ i ∈ Icc 1 N, L.secret (P2P.secretKey F cc r i)) ct' v') :
    C.Encrypts (∑ i ∈ Icc 1 N, L.secret (P2P.secretKey F cc r i))
      (F.evalMult cc (P2P.evalMultAddskAll F cc r N 1) ct ct') fun k => v k * v' k := by
  obtain ⟨a, ha⟩ := P2P.isEvalKey_evalMultPrevandCurrent L r
  exact C.evalMult N r (P2P.secretKey F cc r) a _ _ _ ct ct' v v' (ha N hN)
    (P2P.evalKeyData_evalMultAddskAll L r hN) h h'

end IdealBFV

end OpenFHE

namespace P2P

/-! ## The verdict -/

/-- What a node prints. -/
inductive Printed where
  | notTheSameAt (index : ℕ)
  | theSame
  deriving DecidableEq

/-- One turn of the loop. `none`: the vector is too short. -/
def checkIndex (plaintextvec : List ℤ) (s : Bool × List Printed) (i : ℕ) :
    Option (Bool × List Printed) := do
  let x ← plaintextvec[i]?
  pure (if x ≠ 0 then (false, s.2 ++ [.notTheSameAt i]) else s)

/-- The loop over the first 12 slots. -/
def printVerdict (plaintextvec : List ℤ) : Option (List Printed) := do
  let (flag, printed) ← (List.range 12).foldlM (checkIndex plaintextvec) (true, [])
  pure (if flag then printed ++ [.theSame] else printed)

/-- The loop keeps the flag as long as it finds 0. -/
theorem foldlM_checkIndex {plaintextvec : List ℤ} {f : ℕ → ℤ} {l : List ℕ}
    (hl : ∀ i ∈ l, plaintextvec[i]? = some (f i)) (flag : Bool) (printed : List Printed) :
    l.foldlM (checkIndex plaintextvec) (flag, printed) =
      some (flag && l.all fun i => f i = 0,
        printed ++ (l.filter fun i => f i ≠ 0).map .notTheSameAt) := by
  induction l generalizing flag printed with
  | nil => simp
  | cons i l ih =>
    have hi : checkIndex plaintextvec (flag, printed) i =
        some (if f i ≠ 0 then (false, printed ++ [.notTheSameAt i]) else (flag, printed)) := by
      unfold checkIndex
      rw [hl i List.mem_cons_self]
      rfl
    have hrest := ih fun j hj => hl j (List.mem_cons_of_mem i hj)
    rw [List.foldlM_cons, hi]
    by_cases h0 : f i = 0
    · simp [h0, hrest]
    · simp [h0, hrest]

/-- **The verdict** is `theSame` if all 12 values are 0, and only then. -/
theorem theSame_mem_printVerdict (f : ℕ → ℤ) :
    ∃ printed, printVerdict ((List.range 12).map f) = some printed ∧
      (.theSame ∈ printed ↔ ∀ k < 12, f k = 0) := by
  have hget : ∀ i ∈ List.range 12, ((List.range 12).map f)[i]? = some (f i) := by
    intro i hi
    rw [List.getElem?_map, List.getElem?_range (List.mem_range.mp hi)]
    rfl
  have hloop := foldlM_checkIndex hget true []
  refine ⟨_, by rw [printVerdict, hloop]; rfl, ?_⟩
  have hall : ((List.range 12).all fun i => f i = 0) = true ↔ ∀ k < 12, f k = 0 := by
    simp
  rw [← hall, Bool.true_and]
  split
  · next h => simp [h]
  · next h => simp [h]

end P2P

namespace OpenFHE.IdealBFV

open P2P

variable {F : OpenFHE} {cc : F.CryptoContext} {L : F.Additive cc} (C : F.IdealBFV cc L)

/-- The verdict on a plaintext. -/
theorem theSame_mem_printVerdict (pt : F.Plaintext) :
    ∃ printed, printVerdict (F.getPackedValue cc pt 12) = some printed ∧
      (.theSame ∈ printed ↔ ∀ k < 12, C.slot pt k = 0) := by
  obtain ⟨printed, h, hiff⟩ := P2P.theSame_mem_printVerdict fun k => (C.slot pt k).valMinAbs
  refine ⟨printed, by rw [C.getPackedValue, h], ?_⟩
  simpa only [ZMod.valMinAbs_eq_zero] using hiff

end OpenFHE.IdealBFV

import NetworkExamples.P2P.CoMeasurement
import NetworkExamples.ThreshNet.KeyGen

/-!
# The co-measurement of the client-server network

The code of `thresh_client_measure.cpp`, over the maps of the threshold server (the key maps of
`ThreshNet.Slot`, and those of the ciphertexts), and the handler of the measurement controller
(`controller_cipher_text_from_client_request.h`).

Each client makes its keys, lets the controller mask its ciphertext, and subtracts the masked
ciphertexts of all clients from the first one.

* `masks_eq`: the controller masks all requests for a measure id with one plaintext.
* `promises_main`, `ordered_main`: what a client uploads, and in which order.
-/

namespace ThreshNet

open P2P OpenFHE Finset

namespace Measure

/-- The entries of the ciphertext maps. -/
inductive CtSlot where
  | cipherText (client_id : ℕ)
  | partialCipherText (client_id : ℕ)
  deriving DecidableEq

/-- What the entries are. -/
def CtSlot.Ct (F : OpenFHE) : CtSlot → Type
  | cipherText _ => F.Ciphertext
  | partialCipherText _ => List F.Ciphertext

abbrev MeasureM (F : OpenFHE) : Type → Type :=
  Rpc.Client (Slot ⊕ CtSlot) (Sum.elim (Slot.Key F) (CtSlot.Ct F)) (Inserted F)

variable {F : OpenFHE}

/-! ## The controller -/

/-- A random vector `s`, packed; `rand` are the values of `std::rand`. -/
def drawRandom (controllercc : F.CryptoContext) (rand : ℕ → ℕ) : F.Plaintext :=
  F.makePackedPlaintext controllercc
    ((List.range 12).map fun i => (rand i % F.plaintextModulus controllercc : ℕ))

/-- The mask of a measure id: a new one, if it has none. -/
def plainrandom (controllercc : F.CryptoContext) (rs : ℕ → Option F.Plaintext) (measure_id : ℕ)
    (rand : ℕ → ℕ) : F.Plaintext × (ℕ → Option F.Plaintext) :=
  match rs measure_id with
  | none =>
    let plainrandom_s := drawRandom controllercc rand
    (plainrandom_s, Function.update rs measure_id (some plainrandom_s))
  | some plainrandom_s => (plainrandom_s, rs)

/-- The masks of the requests in turn, each with its measure id and the values of `std::rand`. -/
def masks (controllercc : F.CryptoContext) (rs : ℕ → Option F.Plaintext) :
    List (ℕ × (ℕ → ℕ)) → List F.Plaintext
  | [] => []
  | (measure_id, rand) :: l =>
    (plainrandom controllercc rs measure_id rand).1 ::
      masks controllercc (plainrandom controllercc rs measure_id rand).2 l

/-- **All requests for a measure id are masked with one plaintext**, the stored one, or one drawn
for the id. -/
theorem masks_eq (controllercc : F.CryptoContext) (rs : ℕ → Option F.Plaintext)
    (requests : List (ℕ × (ℕ → ℕ))) : ∃ plainrandom_s : ℕ → F.Plaintext,
      masks controllercc rs requests = requests.map (fun request => plainrandom_s request.1) ∧
      ∀ measure_id, match rs measure_id with
        | some p => plainrandom_s measure_id = p
        | none => ∃ rand, plainrandom_s measure_id = drawRandom controllercc rand := by
  induction requests generalizing rs with
  | nil =>
    refine ⟨fun id => (rs id).getD (drawRandom controllercc fun _ => 0), rfl, fun id => ?_⟩
    cases h : rs id with
    | some p => simp [h]
    | none => exact ⟨fun _ => 0, by simp [h]⟩
  | cons request l ih =>
    obtain ⟨id, rand⟩ := request
    obtain ⟨s, hs, hid⟩ := ih (plainrandom controllercc rs id rand).2
    have hhead := hid id
    refine ⟨s, ?_, fun id' => ?_⟩
    · unfold masks
      rw [hs]
      cases h : rs id <;> simp [plainrandom, h] at hhead ⊢ <;> exact hhead.symm
    · have hid' := hid id'
      cases h : rs id with
      | some p => simpa [plainrandom, h] using hid'
      | none =>
        by_cases heq : id' = id
        · subst heq
          simp only [plainrandom, h, Function.update_self] at hid' ⊢
          exact ⟨rand, hid'⟩
        · simpa [plainrandom, h, heq] using hid'

/-- The handler with the mask of the measure id. It asks the threshold server once for the keys. -/
def cipherTextFromClientToController (controllercc : F.CryptoContext) (r : F.Rand)
    (plainrandom_s : F.Plaintext) (Num_of_parties : ℕ) (ct : F.Ciphertext) :
    MeasureM F F.Ciphertext :=
  .query (.inl (.publicKey Num_of_parties)) fun reply_publickeyclient =>
  .query (.inl (.evalMixMultKey 1)) fun reply_evalmultkey =>
  match reply_publickeyclient with
  | none => .throw "Received empty serialized public key"
  | some FinalPubKey =>
    match reply_evalmultkey with
    | none => .throw "Received empty evalmult key"
    | some EvalMultKey =>
      let encryptedrandom_s := F.encrypt controllercc r FinalPubKey plainrandom_s
      pure (F.evalMult controllercc EvalMultKey encryptedrandom_s ct)

/-! ## The client -/

def cipherTextFromClient (ctext : F.Ciphertext) (client_id : ℕ) : MeasureM F Unit :=
  .upload (.inr (.cipherText client_id)) ctext (pure ())

def cipherTextToClient (client_id : ℕ) : MeasureM F F.Ciphertext :=
  .poll (.inr (.cipherText client_id)) pure

def partialCipherTextFromClient (ctext : List F.Ciphertext) (client_id : ℕ) : MeasureM F Unit :=
  .upload (.inr (.partialCipherText client_id)) ctext (pure ())

/-- The flag that the upload sets. -/
def partialCipherTextsReceivedWait (client_id : ℕ) : MeasureM F Bool :=
  .query (.inr (.partialCipherText client_id)) fun ctext => pure ctext.isSome

def partialCipherTextToClient (client_id : ℕ) : MeasureM F (List F.Ciphertext) :=
  .poll (.inr (.partialCipherText client_id)) pure

/-- Follow a pointer. -/
def nonNull {α : Type} : Option α → MeasureM F α
  | some x => pure x
  | none => .throw "null pointer"

def genCT (cc : F.CryptoContext) (r : F.Rand) (publicKey : F.PublicKey) (vectorOfInts : List ℤ) :
    MeasureM F F.Ciphertext :=
  let plaintextModulus := F.plaintextModulus cc
  let minPlaintextMod := 65536
  if plaintextModulus < minPlaintextMod then
    .throw ("code is designed for plaintextModulus>=" ++ toString minPlaintextMod ++
      "; modulus is " ++ toString plaintextModulus)
  else pure (F.encrypt cc r publicKey (F.makePackedPlaintext cc vectorOfInts))

section

variable (cc : F.CryptoContext) (r : F.Rand) (client_id Num_of_parties : ℕ)

/-- The key generations. The clients of this network do not share their secret keys. -/
def measureKeys : MeasureM F (KeyPair F.PublicKey F.SecretKey × F.PublicKey) := do
  let keyPair ← (makeKeyPair cc r client_id).onLeft
  (publicKeyFromClient keyPair.publicKey client_id).onLeft
  let FinalPubKey ← (getFinalPubKey client_id Num_of_parties keyPair).onLeft
  (evalKeyGen cc r client_id Num_of_parties .multiply keyPair FinalPubKey).onLeft
  pure (keyPair, FinalPubKey)

/-- The ciphertexts of all clients. -/
def receiveCipherTexts (controllerCipherText : F.Ciphertext) : MeasureM F (List F.Ciphertext) :=
  (List.range' 1 Num_of_parties).mapM fun i =>
    if client_id ≠ i then cipherTextToClient i else pure controllerCipherText

/-- All other ciphertexts are subtracted from the first one. -/
def evalSubAll : List F.Ciphertext → Option F.Ciphertext
  | [] => none
  | ct :: cts => some (cts.foldl (F.evalSub cc) ct)

def partialDecrypt (resultCT : F.Ciphertext) (secretKey : F.SecretKey) : List F.Ciphertext :=
  if client_id = 1 then [F.multipartyDecryptLead cc r resultCT secretKey]
  else [F.multipartyDecryptMain cc r resultCT secretKey]

/-- The partial decryptions of all clients; null pointers, if the own one has not been sent. -/
def receivePartials (ciphertextPartial : List F.Ciphertext) (PartialCTSent : Bool) :
    MeasureM F (List (Option F.Ciphertext)) :=
  if PartialCTSent then
    (List.range' 1 Num_of_parties).mapM fun i =>
      if client_id ≠ i then do
        let ciphertextPartial1 ← partialCipherTextToClient i
        pure ciphertextPartial1[0]?
      else pure ciphertextPartial[0]?
  else pure (List.replicate Num_of_parties none)

/-- Send the own partial decryption, and get those of the others. -/
def exchangePartials (ciphertextPartial : List F.Ciphertext) :
    MeasureM F (List (Option F.Ciphertext)) := do
  partialCipherTextFromClient ciphertextPartial client_id
  let PartialCTSent ← partialCipherTextsReceivedWait client_id
  receivePartials client_id Num_of_parties ciphertextPartial PartialCTSent

/-- Fuse the partial decryptions, and print the verdict. -/
def fuse (partialCiphertextVec : List (Option F.Ciphertext)) : MeasureM F (List Printed) := do
  let partialCiphertextVec ← nonNull (partialCiphertextVec.mapM id)
  let plaintextMultipartyNew := F.multipartyDecryptFusion cc partialCiphertextVec
  nonNull (printVerdict (F.getPackedValue cc plaintextMultipartyNew 12))

/-- The co-measurement of a client with its keys; its result is what it prints. -/
def measure (controllerRand : F.Rand) (plainrandom_s : F.Plaintext) (vectorOfInts : List ℤ)
    (keyPair : KeyPair F.PublicKey F.SecretKey) (FinalPubKey : F.PublicKey) :
    MeasureM F (List Printed) := do
  let cipherText ← genCT cc r FinalPubKey vectorOfInts
  let controllerCipherText ←
    cipherTextFromClientToController cc controllerRand plainrandom_s Num_of_parties cipherText
  cipherTextFromClient controllerCipherText client_id
  let CipherTexts ← receiveCipherTexts client_id Num_of_parties controllerCipherText
  let resultCT ← nonNull (evalSubAll cc CipherTexts)
  let partialCiphertextVec ← exchangePartials client_id Num_of_parties
    (partialDecrypt cc r client_id resultCT keyPair.secretKey)
  fuse cc partialCiphertextVec

/-- The client. -/
def main (controllerRand : F.Rand) (plainrandom_s : F.Plaintext) (vectorOfInts : List ℤ) :
    MeasureM F (List Printed) := do
  let (keyPair, FinalPubKey) ← measureKeys cc r client_id Num_of_parties
  measure cc r client_id Num_of_parties controllerRand plainrandom_s vectorOfInts keyPair
    FinalPubKey

end

/-! ## The runs -/

/-- The parameters of a run: the random tapes, those of the controller by its clients, the values
of `std::rand` for the mask, and the measurements. -/
structure Setting (F : OpenFHE) where
  cc : F.CryptoContext
  N : ℕ
  two_le : 2 ≤ N
  inputs : ℕ → List ℤ
  rand : ℕ → F.Rand
  controllerRand : ℕ → F.Rand
  random_s : ℕ → ℕ

namespace Setting

section

variable (S : Setting F)

/-- The clients `1, …, N`. -/
def clients (i : Fin S.N) : MeasureM F (List Printed) :=
  main S.cc (S.rand (i + 1)) (i + 1) S.N (S.controllerRand (i + 1)) (drawRandom S.cc S.random_s)
    (S.inputs (i + 1))

/-! ### What the clients compute -/

def finalPubKey : F.PublicKey := (P2P.keyPair F S.cc S.rand S.N).publicKey

/-- The ciphertext of client `i`. -/
def cipherText (i : ℕ) : F.Ciphertext :=
  F.encrypt S.cc (S.rand i) S.finalPubKey (F.makePackedPlaintext S.cc (S.inputs i))

/-- The ciphertext of client `i`, masked. -/
def maskedCText (i : ℕ) : F.Ciphertext :=
  F.evalMult S.cc (evalMultAddskAll F S.cc S.rand S.N 1)
    (F.encrypt S.cc (S.controllerRand i) S.finalPubKey (drawRandom S.cc S.random_s)) (S.cipherText i)

def resultCT : F.Ciphertext :=
  ((List.range' 2 (S.N - 1)).map S.maskedCText).foldl (F.evalSub S.cc) (S.maskedCText 1)

def partialCT (i : ℕ) : F.Ciphertext :=
  if i = 1 then
    F.multipartyDecryptLead S.cc (S.rand i) S.resultCT (secretKey F S.cc S.rand i)
  else F.multipartyDecryptMain S.cc (S.rand i) S.resultCT (secretKey F S.cc S.rand i)

def plaintext : F.Plaintext :=
  F.multipartyDecryptFusion S.cc ((List.range' 1 S.N).map S.partialCT)

/-- What the clients upload to the ciphertext maps. -/
def ctSpec : ∀ s : CtSlot, s.Ct F
  | .cipherText i => S.maskedCText i
  | .partialCipherText i => [S.partialCT i]

/-- What the clients upload. -/
abbrev spec : ∀ s : Slot ⊕ CtSlot, Sum.elim (Slot.Key F) (CtSlot.Ct F) s :=
  Rpc.Client.bothSpec (chainKey S.cc S.rand S.N) S.ctSpec

end

variable {S : Setting F} {i j : ℕ} {K : Set (Slot ⊕ CtSlot)} {printed : List Printed}

/-! ### The promises -/

theorem promises_finalPubKey (hi : i = S.N → .inl (.publicKey S.N) ∈ K) :
    (getFinalPubKey i S.N (P2P.keyPair F S.cc S.rand i)).onLeft.Promises S.spec
      (Final S.cc S.rand S.N)
      (fun K' pk => pk = S.finalPubKey ∧ .inl (.publicKey S.N) ∈ K') K := by
  refine promises_getFinalPubKey.onLeft.imp ?_
  rintro K' pk hK ⟨hpk, hlast⟩
  refine ⟨hpk, ?_⟩
  by_cases h : i = S.N
  · exact hK (hi h)
  · exact hlast h

theorem promises_evalMultFinal (h1 : 1 ≤ i) (hN : i ≤ S.N)
    (hpk : .inl (.publicKey S.N) ∈ K) :
    (evalKeyGen S.cc (S.rand i) i S.N .multiply (P2P.keyPair F S.cc S.rand i)
      S.finalPubKey).onLeft.Promises S.spec (Final S.cc S.rand S.N)
      (fun K' _ => .inl (.publicKey S.N) ∈ K' ∧ .inl (.evalMixMultKey 1) ∈ K') K := by
  refine (promises_evalKeyGen .multiply h1 hN).onLeft.imp ?_
  intro K' _ hK hfinal
  exact ⟨hK hpk, hfinal rfl S.two_le⟩

/-- After the key generations a client knows that both keys for the controller are there. -/
theorem promises_measureKeys (h1 : 1 ≤ i) (hN : i ≤ S.N) :
    (measureKeys S.cc (S.rand i) i S.N).Promises S.spec (Final S.cc S.rand S.N)
      (fun K' keys => keys = (P2P.keyPair F S.cc S.rand i, S.finalPubKey) ∧
        .inl (.publicKey S.N) ∈ K' ∧ .inl (.evalMixMultKey 1) ∈ K') K := by
  unfold measureKeys
  refine (promises_makeKeyPair h1).onLeft.bind ?_
  rintro K₁ _ rfl
  refine ⟨rfl, (promises_finalPubKey fun hi => hi ▸ Set.mem_insert _ _).bind ?_⟩
  rintro K₂ _ ⟨rfl, hpk⟩
  exact (promises_evalMultFinal h1 hN hpk).bind fun K₃ _ h => ⟨rfl, h⟩

theorem genCT_eq (hp : 65536 ≤ F.plaintextModulus S.cc) :
    genCT S.cc (S.rand i) S.finalPubKey (S.inputs i) = pure (S.cipherText i) := by
  unfold genCT
  exact if_neg (by omega)

/-- The controller finds both keys. -/
theorem promises_controller (hpk : .inl (.publicKey S.N) ∈ K)
    (hek : .inl (.evalMixMultKey 1) ∈ K) :
    (cipherTextFromClientToController S.cc (S.controllerRand i) (drawRandom S.cc S.random_s) S.N
      (S.cipherText i)).Promises S.spec (Final S.cc S.rand S.N)
      (fun _ ct => ct = S.maskedCText i) K :=
  ⟨hpk, hek, rfl⟩

theorem promises_turn (j : ℕ) : (if i ≠ j then cipherTextToClient j
      else pure (S.maskedCText i) : MeasureM F F.Ciphertext).Promises S.spec
      (Final S.cc S.rand S.N) (fun _ ct => ct = S.maskedCText j) K := by
  split
  · exact rfl
  · next h => rw [not_not.mp h]; exact rfl

theorem promises_receiveCipherTexts :
    (receiveCipherTexts i S.N (S.maskedCText i)).Promises S.spec (Final S.cc S.rand S.N)
      (fun _ cts => cts = (List.range' 1 S.N).map S.maskedCText) K :=
  Rpc.Client.Promises.mapM fun j _ _ => promises_turn j

theorem evalSubAll_eq : evalSubAll S.cc ((List.range' 1 S.N).map S.maskedCText) =
    some S.resultCT := by
  obtain ⟨n, hn⟩ : ∃ n, S.N = n + 1 := ⟨S.N - 1, by have := S.two_le; omega⟩
  simp [evalSubAll, resultCT, hn, List.range'_succ]

theorem partialDecrypt_eq : partialDecrypt S.cc (S.rand i) i S.resultCT
    (secretKey F S.cc S.rand i) = [S.partialCT i] := by
  unfold partialDecrypt partialCT
  split <;> rfl

theorem promises_turnPartial (j : ℕ) : (if i ≠ j then do
        let ciphertextPartial1 ← partialCipherTextToClient j
        pure ciphertextPartial1[0]?
      else pure [S.partialCT i][0]? : MeasureM F (Option F.Ciphertext)).Promises S.spec
      (Final S.cc S.rand S.N) (fun _ ct => ct = some (S.partialCT j)) K := by
  split
  · exact rfl
  · next h => rw [not_not.mp h]; exact rfl

/-- The own upload has set the flag. -/
theorem promises_exchangePartials :
    (exchangePartials i S.N [S.partialCT i]).Promises S.spec (Final S.cc S.rand S.N)
      (fun _ cts => cts = (List.range' 1 S.N).map fun j => some (S.partialCT j)) K :=
  ⟨rfl, Set.mem_insert _ _, Rpc.Client.Promises.mapM fun j _ _ => promises_turnPartial j⟩

theorem fuse_eq (hprinted : printVerdict (F.getPackedValue S.cc S.plaintext 12) = some printed) :
    fuse S.cc ((List.range' 1 S.N).map fun j => some (S.partialCT j)) = pure printed := by
  have hvec : ((List.range' 1 S.N).map fun j => some (S.partialCT j)).mapM id =
      some ((List.range' 1 S.N).map S.partialCT) := List.mapM_map.trans List.mapM_pure
  unfold fuse
  rw [hvec]
  exact congrArg nonNull hprinted

/-- Client `i` with the keys of the chain. -/
abbrev measureOf (S : Setting F) (i : ℕ) : MeasureM F (List Printed) :=
  measure S.cc (S.rand i) i S.N (S.controllerRand i) (drawRandom S.cc S.random_s) (S.inputs i)
    (P2P.keyPair F S.cc S.rand i) S.finalPubKey

theorem promises_measure (hp : 65536 ≤ F.plaintextModulus S.cc)
    (hprinted : printVerdict (F.getPackedValue S.cc S.plaintext 12) = some printed)
    (hpk : .inl (.publicKey S.N) ∈ K) (hek : .inl (.evalMixMultKey 1) ∈ K) :
    (S.measureOf i).Promises S.spec (Final S.cc S.rand S.N) (fun _ x => x = printed) K := by
  unfold measureOf measure
  rw [genCT_eq hp, pure_bind]
  refine (promises_controller hpk hek).bind ?_
  rintro K₂ _ rfl
  refine ⟨rfl, promises_receiveCipherTexts.bind ?_⟩
  rintro K₃ _ rfl
  rw [evalSubAll_eq]
  change Rpc.Client.Promises S.spec _ _ _ (exchangePartials i S.N
    (partialDecrypt S.cc (S.rand i) i S.resultCT (secretKey F S.cc S.rand i)) >>= _)
  rw [partialDecrypt_eq]
  refine promises_exchangePartials.bind ?_
  rintro K₄ _ rfl
  rw [fuse_eq hprinted]
  exact rfl

/-- **A client uploads what it is meant to**, if all that it gets is meant. -/
theorem promises_main (h1 : 1 ≤ i) (hN : i ≤ S.N) (hp : 65536 ≤ F.plaintextModulus S.cc)
    (hprinted : printVerdict (F.getPackedValue S.cc S.plaintext 12) = some printed) :
    (main S.cc (S.rand i) i S.N (S.controllerRand i) (drawRandom S.cc S.random_s)
      (S.inputs i)).Promises S.spec (Final S.cc S.rand S.N) (fun _ x => x = printed) K := by
  unfold main
  refine (promises_measureKeys h1 hN).bind ?_
  rintro K₁ _ ⟨rfl, hpk, hek⟩
  exact promises_measure hp hprinted hpk hek

/-! ### The order of the uploads -/

/-- The ciphertexts come after the keys. -/
def ctRank (N : ℕ) : Slot ⊕ CtSlot → ℕ
  | .inl s => rank N s
  | .inr (.cipherText _) => 3 * N + 2
  | .inr (.partialCipherText _) => 3 * N + 3

/-- The slots that the clients poll. -/
def CtPolled (N : ℕ) : Slot ⊕ CtSlot → Prop
  | .inl s => Polled N .multiply s
  | .inr (.cipherText i) | .inr (.partialCipherText i) => 1 ≤ i ∧ i ≤ N

theorem ordered_measureKeys (h1 : 1 ≤ i) (hN : i ≤ S.N) :
    (measureKeys S.cc (S.rand i) i S.N).Ordered S.spec (CtPolled S.N) (ctRank S.N) 0
      (3 * S.N + 1) := by
  have hU : ∀ s, Polled S.N .multiply s → CtPolled S.N (.inl s) := fun s h => h
  have hrank : ∀ s, ctRank S.N (.inl s) = rank S.N s := fun s => rfl
  unfold measureKeys
  refine ((ordered_makeKeyPair .multiply h1 hN).onLeft hU hrank).bind
    ((promises_makeKeyPair h1).onLeft (K := ∅)) ?_
  rintro _ _ rfl
  refine .upload (show i - 1 < i by omega) ?_
  refine ((ordered_getFinalPubKey .multiply h1 hN).onLeft hU hrank).bind
    (promises_getFinalPubKey.onLeft (K := ∅)) ?_
  rintro _ _ ⟨rfl, -⟩
  refine ((ordered_evalKeyGen .multiply h1 hN).onLeft hU hrank).bind
    ((promises_evalKeyGen .multiply h1 hN).onLeft (K := ∅)) fun _ _ _ => ?_
  exact .ret _ le_rfl

theorem ordered_controller :
    (cipherTextFromClientToController S.cc (S.controllerRand i) (drawRandom S.cc S.random_s) S.N
      (S.cipherText i)).Ordered S.spec (CtPolled S.N) (ctRank S.N) (3 * S.N + 1) (3 * S.N + 1) :=
  le_refl (3 * S.N + 1)

theorem ordered_turn (hj : 1 ≤ j ∧ j ≤ S.N) : (if i ≠ j then cipherTextToClient j
      else pure (S.maskedCText i) : MeasureM F F.Ciphertext).Ordered S.spec (CtPolled S.N)
      (ctRank S.N) (3 * S.N + 2) (3 * S.N + 2) := by
  split
  · exact .poll hj le_rfl (.ret _ le_rfl)
  · exact .ret _ le_rfl

theorem ordered_receiveCipherTexts :
    (receiveCipherTexts i S.N (S.maskedCText i)).Ordered S.spec (CtPolled S.N) (ctRank S.N)
      (3 * S.N + 1) (3 * S.N + 2) := by
  refine .mapM (Nat.le_succ _) (fun j _ _ => promises_turn j) fun j hj => ordered_turn ?_
  have := List.mem_range'_1.mp hj
  omega

theorem ordered_turnPartial (hj : 1 ≤ j ∧ j ≤ S.N) : (if i ≠ j then do
        let ciphertextPartial1 ← partialCipherTextToClient j
        pure ciphertextPartial1[0]?
      else pure [S.partialCT i][0]? : MeasureM F (Option F.Ciphertext)).Ordered S.spec
      (CtPolled S.N) (ctRank S.N) (3 * S.N + 3) (3 * S.N + 3) := by
  split
  · exact .poll hj le_rfl (.ret _ le_rfl)
  · exact .ret _ le_rfl

theorem ordered_exchangePartials :
    (exchangePartials i S.N [S.partialCT i]).Ordered S.spec (CtPolled S.N) (ctRank S.N)
      (3 * S.N + 2) (3 * S.N + 3) := by
  refine .upload (show 3 * S.N + 2 < 3 * S.N + 3 by omega) ?_
  refine .mapM (Nat.le_succ _) (fun j _ _ => promises_turnPartial j) fun j hj =>
    ordered_turnPartial ?_
  have := List.mem_range'_1.mp hj
  omega

theorem ordered_measure (hp : 65536 ≤ F.plaintextModulus S.cc)
    (hprinted : printVerdict (F.getPackedValue S.cc S.plaintext 12) = some printed) :
    (S.measureOf i).Ordered S.spec (CtPolled S.N) (ctRank S.N) (3 * S.N + 1) (3 * S.N + 3) := by
  unfold measureOf measure
  rw [genCT_eq hp, pure_bind]
  refine ordered_controller.bind (promises_controller (K := Set.univ) trivial trivial) ?_
  rintro K₂ _ rfl
  refine .upload (show 3 * S.N + 1 < 3 * S.N + 2 by omega) ?_
  refine ordered_receiveCipherTexts.bind (promises_receiveCipherTexts (K := ∅)) ?_
  rintro K₃ _ rfl
  rw [evalSubAll_eq]
  change Rpc.Client.Ordered S.spec _ _ _ _ (exchangePartials i S.N
    (partialDecrypt S.cc (S.rand i) i S.resultCT (secretKey F S.cc S.rand i)) >>= _)
  rw [partialDecrypt_eq]
  refine ordered_exchangePartials.bind (promises_exchangePartials (K := ∅)) ?_
  rintro K₄ _ rfl
  rw [fuse_eq hprinted]
  exact .ret _ le_rfl

/-- **A client uploads in the order of the ranks.** -/
theorem ordered_main (h1 : 1 ≤ i) (hN : i ≤ S.N) (hp : 65536 ≤ F.plaintextModulus S.cc)
    (hprinted : printVerdict (F.getPackedValue S.cc S.plaintext 12) = some printed) :
    (main S.cc (S.rand i) i S.N (S.controllerRand i) (drawRandom S.cc S.random_s)
      (S.inputs i)).Ordered S.spec (CtPolled S.N) (ctRank S.N) 0 (3 * S.N + 3) := by
  unfold main
  refine (ordered_measureKeys h1 hN).bind (promises_measureKeys (K := ∅) h1 hN) ?_
  rintro K₁ _ ⟨rfl, -, -⟩
  exact ordered_measure hp hprinted

theorem uploads_measureKeys {s : Slot} (hs : Polled S.N .multiply s) : ∃ i, 1 ≤ i ∧ i ≤ S.N ∧
    (measureKeys S.cc (S.rand i) i S.N).Uploads S.spec (.inl s) := by
  by_cases hp : ∃ i, s = .publicKey i
  · obtain ⟨i, rfl⟩ := hp
    refine ⟨i, hs.1, hs.2, ?_⟩
    unfold measureKeys
    refine Rpc.Client.uploads_bind ((promises_makeKeyPair hs.1).onLeft (K := ∅)) ?_
    rintro _ _ rfl
    exact .inl rfl
  · obtain ⟨i, h1, hN, hup⟩ := uploads_evalKeyGen .multiply hs (not_exists.mp hp)
    refine ⟨i, h1, hN, ?_⟩
    unfold measureKeys
    refine Rpc.Client.uploads_bind ((promises_makeKeyPair h1).onLeft (K := ∅)) ?_
    rintro _ _ rfl
    refine .inr ?_
    change Rpc.Client.Uploads S.spec _
      ((getFinalPubKey i S.N (P2P.keyPair F S.cc S.rand i)).onLeft >>= _)
    refine Rpc.Client.uploads_bind (promises_getFinalPubKey.onLeft (K := ∅)) ?_
    rintro _ _ ⟨rfl, -⟩
    exact hup.onLeft.bind _

theorem uploads_measure (hp : 65536 ≤ F.plaintextModulus S.cc) (s : CtSlot)
    (hs : s = .cipherText i ∨ s = .partialCipherText i) :
    (S.measureOf i).Uploads S.spec (.inr s) := by
  unfold measureOf measure
  rw [genCT_eq hp, pure_bind]
  refine Rpc.Client.uploads_bind (promises_controller (K := Set.univ) trivial trivial) ?_
  rintro _ _ rfl
  rcases hs with rfl | rfl
  · exact .inl rfl
  · refine .inr ?_
    change Rpc.Client.Uploads S.spec _ (receiveCipherTexts i S.N (S.maskedCText i) >>= _)
    refine Rpc.Client.uploads_bind (promises_receiveCipherTexts (K := ∅)) ?_
    rintro _ _ rfl
    rw [evalSubAll_eq]
    exact .inl rfl

/-- A client uploads every slot of its own that is polled. -/
theorem uploads_main (hp : 65536 ≤ F.plaintextModulus S.cc) {s : Slot ⊕ CtSlot}
    (hs : CtPolled S.N s) : ∃ i, 1 ≤ i ∧ i ≤ S.N ∧
      (main S.cc (S.rand i) i S.N (S.controllerRand i) (drawRandom S.cc S.random_s)
        (S.inputs i)).Uploads S.spec s := by
  have hct : ∀ s i, 1 ≤ i ∧ i ≤ S.N → (s = .cipherText i ∨ s = .partialCipherText i) →
      ∃ i, 1 ≤ i ∧ i ≤ S.N ∧
        (main S.cc (S.rand i) i S.N (S.controllerRand i) (drawRandom S.cc S.random_s)
          (S.inputs i)).Uploads S.spec (.inr s) := by
    intro s i hi hs
    refine ⟨i, hi.1, hi.2, ?_⟩
    unfold main
    refine Rpc.Client.uploads_bind (promises_measureKeys (K := ∅) hi.1 hi.2) ?_
    rintro _ _ ⟨rfl, -, -⟩
    exact uploads_measure hp s hs
  cases s with
  | inl s =>
    obtain ⟨i, h1, hN, hup⟩ := uploads_measureKeys hs
    exact ⟨i, h1, hN, hup.bind _⟩
  | inr s =>
    cases s with
    | cipherText i => exact hct _ i hs (.inl rfl)
    | partialCipherText i => exact hct _ i hs (.inr rfl)

end Setting

end Measure

end ThreshNet

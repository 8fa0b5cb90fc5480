import NetworkExamples.P2P.AbortsClient
import NetworkExamples.P2P.JointKeys
import NetworkExamples.Rpc.Board

/-!
# The key generations of the client-server threshold network

The code of `thresh_client.cpp` up to the evaluation keys, over the maps of the threshold server.
The four families of handlers (public keys, switching keys, mixed keys, summation keys) are the
uploads and the polls of one board, whose slots are named after the maps.

The clients make the keys of the chain (`chainKey`), as the nodes of the peer-to-peer network do:

* `promises_keyGen`: a client that polls keys of the chain uploads keys of the chain.
* `keyGen_agree`: what the server gives out and the clients insert, in every interleaving.
-/

namespace ThreshNet

open P2P OpenFHE Finset

/-- The entries of the maps of the server. -/
inductive Slot where
  | publicKey (client_id : ℕ)
  | secretShares (client_id : ℕ)
  | evalMultKey (client_id : ℕ)
  | evalMixMultKey (client_id : ℕ)
  | evalSumKey (client_id : ℕ) (index_num : Fin 2)
  deriving DecidableEq

/-- What the entries are. -/
def Slot.Key (F : OpenFHE) : Slot → Type
  | publicKey _ => F.PublicKey
  | secretShares _ => ℕ → F.DCRTPoly
  | evalMultKey _ | evalMixMultKey _ => F.EvalKey
  | evalSumKey _ _ => F.EvalSumKeys

/-- A final key that a client inserts in its crypto context. -/
inductive Inserted (F : OpenFHE) where
  | evalMultKey (key : F.EvalKey)
  | evalSumKey (keys : F.EvalSumKeys)

abbrev ClientM (F : OpenFHE) : Type → Type := Rpc.Client Slot (Slot.Key F) (Inserted F)

variable {F : OpenFHE}

/-! ## The calls -/

def publicKeyFromClient (pkey : F.PublicKey) (client_id : ℕ) : ClientM F Unit :=
  .upload (.publicKey client_id) pkey (pure ())

def publicKeyToClient (client_id : ℕ) : ClientM F F.PublicKey :=
  .poll (.publicKey client_id) pure

def secretSharesFromClient (secretshares : ℕ → F.DCRTPoly) (client_id : ℕ) : ClientM F Unit :=
  .upload (.secretShares client_id) secretshares (pure ())

def evalMultKeyFromClient (ekey : F.EvalKey) (client_id : ℕ) : ClientM F Unit :=
  .upload (.evalMultKey client_id) ekey (pure ())

def evalMultKeyToClient (client_id : ℕ) : ClientM F F.EvalKey :=
  .poll (.evalMultKey client_id) pure

def evalMixMultKeyFromClient (ekey : F.EvalKey) (client_id : ℕ) : ClientM F Unit :=
  .upload (.evalMixMultKey client_id) ekey (pure ())

def evalMixMultKeyToClient (client_id : ℕ) : ClientM F F.EvalKey :=
  .poll (.evalMixMultKey client_id) pure

def evalSumKeyFromClient (ekey : F.EvalSumKeys) (client_id : ℕ) (index_num : Fin 2) :
    ClientM F Unit :=
  .upload (.evalSumKey client_id index_num) ekey (pure ())

def evalSumKeyToClient (client_id : ℕ) (index_num : Fin 2) : ClientM F F.EvalSumKeys :=
  .poll (.evalSumKey client_id index_num) pure

def insertEvalMultKey (key : F.EvalKey) : ClientM F Unit := .note (.evalMultKey key) (pure ())

def insertEvalSumKey (keys : F.EvalSumKeys) : ClientM F Unit := .note (.evalSumKey keys) (pure ())

/-! ## The client -/

section

variable (cc : F.CryptoContext) (r : F.Rand) (client_id Num_of_parties : ℕ)

/-- Make the own key pair, from the public key of the previous client. -/
def makeKeyPair : ClientM F (KeyPair F.PublicKey F.SecretKey) :=
  if client_id = 1 then pure (F.keyGen cc r)
  else do
    let prevPubKey ← publicKeyToClient (client_id - 1)
    pure (F.multipartyKeyGen cc r prevPubKey)

/-- The final public key is the one of the last client. -/
def getFinalPubKey (keyPair : KeyPair F.PublicKey F.SecretKey) : ClientM F F.PublicKey :=
  if client_id ≠ Num_of_parties then publicKeyToClient Num_of_parties
  else pure keyPair.publicKey

/-- Send the shares of the own secret key. -/
def sendSecretShares (secretKey : F.SecretKey) : ClientM F Unit :=
  let thresh := Num_of_parties / 2 + 1
  secretSharesFromClient (F.shareKeys cc r secretKey Num_of_parties thresh client_id) client_id

variable (keyPair : KeyPair F.PublicKey F.SecretKey) (FinalPubKey : F.PublicKey)

/-- The switching key of the clients up to this one. -/
def evalMultKeyGen : ClientM F Unit :=
  let sk := keyPair.secretKey
  if client_id = 1 then evalMultKeyFromClient (F.keySwitchGen cc r sk sk) client_id
  else if client_id ≤ Num_of_parties ∧ 1 < client_id then do
    let PrevevalMultKey ← evalMultKeyToClient (client_id - 1)
    let evalMultKey := F.multiKeySwitchGen cc r sk sk PrevevalMultKey
    let evalMultPrevandCurrent :=
      F.multiAddEvalKeys cc PrevevalMultKey evalMultKey (F.getKeyTag keyPair.publicKey)
    evalMultKeyFromClient evalMultPrevandCurrent client_id
    if client_id = Num_of_parties then
      evalMixMultKeyFromClient
        (F.multiMultEvalKey cc r sk evalMultPrevandCurrent (F.getKeyTag FinalPubKey)) client_id
  else pure ()

/-- The part of this client in the final multiplication key, added to those of the clients behind;
the key of the first client is final. -/
def evalMixMultKeyGen : ClientM F Unit :=
  if client_id ≠ Num_of_parties then do
    let evalMultAll ← evalMultKeyToClient Num_of_parties
    let PrevevalMixMultKey ← evalMixMultKeyToClient (client_id + 1)
    let evalMultKeyskAll :=
      F.multiMultEvalKey cc r keyPair.secretKey evalMultAll (F.getKeyTag FinalPubKey)
    let evalMultAddskAll :=
      F.multiAddEvalMultKeys cc evalMultKeyskAll PrevevalMixMultKey (F.getKeyTag FinalPubKey)
    evalMixMultKeyFromClient evalMultAddskAll client_id
    if client_id = 1 then insertEvalMultKey evalMultAddskAll
  else pure ()

/-- Get the final multiplication key if the client id is not 1. -/
def getEvalMultFinal : ClientM F Unit :=
  if client_id ≠ 1 then do
    let evalMultFinal ← evalMixMultKeyToClient 1
    insertEvalMultKey evalMultFinal
  else pure ()

/-- The summation keys of this client, and those of the clients up to it. -/
def evalSumKeyGen : ClientM F Unit :=
  let sk := keyPair.secretKey
  if client_id = 1 then do
    let evalSumKeys := F.evalSumKeyGen cc r sk
    evalSumKeyFromClient evalSumKeys client_id 0
    evalSumKeyFromClient evalSumKeys client_id 1
  else if client_id ≤ Num_of_parties ∧ 1 < client_id then do
    let PrevevalSumKey0 ← evalSumKeyToClient (client_id - 1) 0
    let PrevevalSumKey1 ← evalSumKeyToClient (client_id - 1) 1
    let tag := F.getKeyTag keyPair.publicKey
    let evalSumKeys0 := F.multiEvalSumKeyGen cc r sk PrevevalSumKey0 tag
    let evalSumKeys1 := F.multiAddEvalSumKeys cc PrevevalSumKey1 evalSumKeys0 tag
    evalSumKeyFromClient evalSumKeys0 client_id 0
    evalSumKeyFromClient evalSumKeys1 client_id 1
    if client_id = Num_of_parties then insertEvalSumKey evalSumKeys1
  else pure ()

/-- Get the final summation keys from the last client. -/
def getEvalSumFinal : ClientM F Unit :=
  if client_id ≠ Num_of_parties then do
    let evalSumFinal ← evalSumKeyToClient Num_of_parties 1
    insertEvalSumKey evalSumFinal
  else pure ()

end

/-- The evaluation keys that the operation needs. -/
def evalKeyGen (cc : F.CryptoContext) (r : F.Rand) (client_id Num_of_parties : ℕ)
    (compute_operation : ComputeOperation) (keyPair : KeyPair F.PublicKey F.SecretKey)
    (FinalPubKey : F.PublicKey) : ClientM F Unit :=
  match compute_operation with
  | .multiply => do
    evalMultKeyGen cc r client_id Num_of_parties keyPair FinalPubKey
    evalMixMultKeyGen cc r client_id Num_of_parties keyPair FinalPubKey
    getEvalMultFinal client_id
  | .vectorsum => do
    evalSumKeyGen cc r client_id Num_of_parties keyPair
    getEvalSumFinal client_id Num_of_parties
  | .add => pure ()

/-- The key generations of a client, in the order of `main`; its result is its key pair. -/
def keyGen (cc : F.CryptoContext) (r : F.Rand) (client_id Num_of_parties : ℕ)
    (compute_operation : ComputeOperation) : ClientM F (KeyPair F.PublicKey F.SecretKey) := do
  let keyPair ← makeKeyPair cc r client_id
  publicKeyFromClient keyPair.publicKey client_id
  let FinalPubKey ← getFinalPubKey client_id Num_of_parties keyPair
  sendSecretShares cc r client_id Num_of_parties keyPair.secretKey
  evalKeyGen cc r client_id Num_of_parties compute_operation keyPair FinalPubKey
  pure keyPair

/-- The clients `1, …, Num_of_parties`. -/
def clients (cc : F.CryptoContext) (r : ℕ → F.Rand) (Num_of_parties : ℕ)
    (compute_operation : ComputeOperation) (i : Fin Num_of_parties) :
    ClientM F (KeyPair F.PublicKey F.SecretKey) :=
  keyGen cc (r (i + 1)) (i + 1) Num_of_parties compute_operation

/-! ## The keys of the chain -/

section

variable (cc : F.CryptoContext) (r : ℕ → F.Rand) (N : ℕ)

/-- The entries of the chain of the clients `1, …, N`. -/
def chainKey : ∀ s : Slot, s.Key F
  | .publicKey i => (P2P.keyPair F cc r i).publicKey
  | .secretShares i => F.shareKeys cc (r i) (secretKey F cc r i) N (N / 2 + 1) i
  | .evalMultKey i => evalMultPrevandCurrent F cc r i
  | .evalMixMultKey i => evalMultAddskAll F cc r N i
  | .evalSumKey i 0 => evalSumKeys0 F cc r i
  | .evalSumKey i 1 => evalSumKeys1 F cc r i

/-- A final key of the chain. -/
def Final (x : Inserted F) : Prop :=
  x = .evalMultKey (chainKey cc r N (.evalMixMultKey 1)) ∨
    x = .evalSumKey (chainKey cc r N (.evalSumKey N 1))

end

section

variable {cc : F.CryptoContext} {r : ℕ → F.Rand} {N i : ℕ} {K : Set Slot}

/-! ### The promises -/

/-- Client `i` makes its key pair from the public key of its predecessor. -/
theorem promises_makeKeyPair (h1 : 1 ≤ i) :
    (makeKeyPair cc (r i) i).Promises (chainKey cc r N) (Final cc r N)
      (fun _ keyPair => keyPair = P2P.keyPair F cc r i) K := by
  unfold makeKeyPair publicKeyToClient
  split
  · next h => subst h; exact rfl
  · exact (keyPair_of_lt F cc r (by omega)).symm

theorem promises_getFinalPubKey :
    (getFinalPubKey i N (P2P.keyPair F cc r i)).Promises (chainKey cc r N) (Final cc r N)
      (fun K' pk => pk = (P2P.keyPair F cc r N).publicKey ∧ (i ≠ N → .publicKey N ∈ K')) K := by
  unfold getFinalPubKey publicKeyToClient
  split
  · exact ⟨rfl, fun _ => Set.mem_insert _ _⟩
  · next h =>
    rw [not_not.mp h]
    exact ⟨rfl, fun hne => absurd rfl hne⟩

theorem promises_evalMultKeyGen (h1 : 1 ≤ i) (hN : i ≤ N) :
    (evalMultKeyGen cc (r i) i N (P2P.keyPair F cc r i) (P2P.keyPair F cc r N).publicKey).Promises
      (chainKey cc r N) (Final cc r N) (fun _ _ => True) K := by
  unfold evalMultKeyGen evalMultKeyFromClient evalMultKeyToClient evalMixMultKeyFromClient
  split
  · next h => subst h; exact ⟨rfl, trivial⟩
  · next h =>
    rw [if_pos ⟨hN, by omega⟩]
    have hkey := evalMultPrevandCurrent_of_lt F cc r (show 1 < i by omega)
    refine ⟨hkey.symm, ?_⟩
    split
    · next h =>
      subst h
      refine ⟨?_, trivial⟩
      exact (congrArg (fun k => F.multiMultEvalKey _ _ _ k _) hkey.symm).trans
        (evalMultAddskAll_last F cc r).symm
    · trivial

theorem promises_evalMixMultKeyGen (hN : i ≤ N) :
    (evalMixMultKeyGen cc (r i) i N (P2P.keyPair F cc r i) (P2P.keyPair F cc r N).publicKey).Promises
      (chainKey cc r N) (Final cc r N)
      (fun K' _ => i = 1 → i ≠ N → .evalMixMultKey 1 ∈ K') K := by
  unfold evalMixMultKeyGen evalMultKeyToClient evalMixMultKeyToClient evalMixMultKeyFromClient
    insertEvalMultKey
  split
  · next h =>
    have hkey := evalMultAddskAll_of_lt F cc r (show i < N by omega)
    refine ⟨hkey.symm, ?_⟩
    split
    · next h =>
      subst h
      exact ⟨.inl (congrArg Inserted.evalMultKey hkey.symm), fun _ _ => Set.mem_insert _ _⟩
    · next h => exact fun h1 => absurd h1 h
  · next h => exact fun _ hne => absurd hne h

theorem promises_getEvalMultFinal :
    (getEvalMultFinal i).Promises (chainKey cc r N) (Final cc r N)
      (fun K' _ => i ≠ 1 → .evalMixMultKey 1 ∈ K') K := by
  unfold getEvalMultFinal evalMixMultKeyToClient insertEvalMultKey
  split
  · exact ⟨.inl rfl, fun _ => Set.mem_insert _ _⟩
  · next h => exact fun h1 => absurd h1 h

theorem promises_evalSumKeyGen (h1 : 1 ≤ i) (hN : i ≤ N) :
    (evalSumKeyGen cc (r i) i N (P2P.keyPair F cc r i)).Promises (chainKey cc r N) (Final cc r N)
      (fun _ _ => True) K := by
  unfold evalSumKeyGen evalSumKeyFromClient evalSumKeyToClient insertEvalSumKey
  split
  · next h => subst h; exact ⟨rfl, rfl, trivial⟩
  · next h =>
    rw [if_pos ⟨hN, by omega⟩]
    have hkey0 := evalSumKeys0_of_lt F cc r (show 1 < i by omega)
    have hkey1 := evalSumKeys1_of_lt F cc r (show 1 < i by omega)
    rw [hkey0] at hkey1
    refine ⟨hkey0.symm, hkey1.symm, ?_⟩
    split
    · next h =>
      subst h
      exact ⟨.inr (congrArg Inserted.evalSumKey hkey1.symm), trivial⟩
    · trivial

theorem promises_getEvalSumFinal :
    (getEvalSumFinal i N).Promises (chainKey cc r N) (Final cc r N) (fun _ _ => True) K := by
  unfold getEvalSumFinal evalSumKeyToClient insertEvalSumKey
  split
  · exact ⟨.inr rfl, trivial⟩
  · trivial

/-- Each client has had the final multiplication key, or uploaded it. -/
theorem promises_evalKeyGen (op : ComputeOperation) (h1 : 1 ≤ i) (hN : i ≤ N) :
    (evalKeyGen cc (r i) i N op (P2P.keyPair F cc r i) (P2P.keyPair F cc r N).publicKey).Promises
      (chainKey cc r N) (Final cc r N)
      (fun K' _ => op = .multiply → 2 ≤ N → .evalMixMultKey 1 ∈ K') K := by
  cases op with
  | multiply =>
    refine (promises_evalMultKeyGen h1 hN).bind fun _ _ _ => ?_
    refine (promises_evalMixMultKeyGen hN).bind fun _ _ hmix => ?_
    refine promises_getEvalMultFinal.imp fun _ _ hK hfinal _ h2 => ?_
    by_cases hi : i = 1
    · exact hK (hmix hi (by omega))
    · exact hfinal hi
  | add => exact fun hop => nomatch hop
  | vectorsum =>
    refine (promises_evalSumKeyGen h1 hN).bind fun _ _ _ => ?_
    exact promises_getEvalSumFinal.imp fun _ _ _ _ hop => nomatch hop

/-- **A client that polls keys of the chain uploads keys of the chain**, and inserts a final
one. -/
theorem promises_keyGen (op : ComputeOperation) (h1 : 1 ≤ i) (hN : i ≤ N) :
    (keyGen cc (r i) i N op).Promises (chainKey cc r N) (Final cc r N)
      (fun _ keyPair => keyPair = P2P.keyPair F cc r i) K := by
  unfold keyGen
  refine (promises_makeKeyPair h1).bind ?_
  rintro _ _ rfl
  refine ⟨rfl, promises_getFinalPubKey.bind ?_⟩
  rintro _ _ ⟨rfl, -⟩
  refine ⟨rfl, (promises_evalKeyGen op h1 hN).bind fun _ _ _ => ?_⟩
  rfl

/-! ### The order of the uploads -/

/-- Where a slot stands in the key generations. -/
def rank (N : ℕ) : Slot → ℕ
  | .publicKey i => i
  | .secretShares _ => N + 1
  | .evalMultKey i => N + 1 + i
  | .evalMixMultKey i => 2 * N + 2 + (N - i)
  | .evalSumKey i _ => N + 1 + i

/-- The slots that the clients poll. -/
def Polled (N : ℕ) (op : ComputeOperation) : Slot → Prop
  | .publicKey i => 1 ≤ i ∧ i ≤ N
  | .secretShares _ => False
  | .evalMultKey i | .evalMixMultKey i => 1 ≤ i ∧ i ≤ N ∧ 2 ≤ N ∧ op = .multiply
  | .evalSumKey i _ => 1 ≤ i ∧ i ≤ N ∧ op = .vectorsum

theorem ordered_makeKeyPair (op : ComputeOperation) (h1 : 1 ≤ i) (hN : i ≤ N) :
    (makeKeyPair cc (r i) i).Ordered (chainKey cc r N) (Polled N op) (rank N) 0 (i - 1) := by
  unfold makeKeyPair publicKeyToClient
  split
  · exact Nat.zero_le _
  · exact .poll ⟨by omega, by omega⟩ (Nat.zero_le _) (.ret _ le_rfl)

theorem ordered_getFinalPubKey (op : ComputeOperation) (h1 : 1 ≤ i) (hN : i ≤ N) :
    (getFinalPubKey i N (P2P.keyPair F cc r i)).Ordered (chainKey cc r N) (Polled N op) (rank N)
      (i - 1) N := by
  unfold getFinalPubKey publicKeyToClient
  split
  · exact .poll ⟨by omega, le_rfl⟩ (show i - 1 ≤ N by omega) (.ret _ le_rfl)
  · exact .ret _ (by omega)

theorem ordered_evalMultKeyGen (h1 : 1 ≤ i) (hN : i ≤ N) :
    (evalMultKeyGen cc (r i) i N (P2P.keyPair F cc r i) (P2P.keyPair F cc r N).publicKey).Ordered
      (chainKey cc r N) (Polled N .multiply) (rank N) N (N + i) := by
  unfold evalMultKeyGen evalMultKeyFromClient evalMultKeyToClient evalMixMultKeyFromClient
  split
  · exact .upload (show N < N + 1 + i by omega) (.ret _ (by omega))
  · rw [if_pos ⟨hN, by omega⟩]
    refine .poll ⟨by omega, by omega, by omega, rfl⟩ (show N ≤ N + 1 + (i - 1) by omega) ?_
    refine .upload (show N + 1 + (i - 1) < N + 1 + i by omega) ?_
    split
    · exact .upload (show N + 1 + (i - 1) < 2 * N + 2 + (N - i) by omega)
        (.ret _ (show N + 1 + (i - 1) ≤ N + i by omega))
    · exact .ret _ (show N + 1 + (i - 1) ≤ N + i by omega)

theorem ordered_evalMixMultKeyGen (h1 : 1 ≤ i) (hN : i ≤ N) :
    (evalMixMultKeyGen cc (r i) i N (P2P.keyPair F cc r i) (P2P.keyPair F cc r N).publicKey).Ordered
      (chainKey cc r N) (Polled N .multiply) (rank N) (N + i) (3 * N + 1) := by
  unfold evalMixMultKeyGen evalMultKeyToClient evalMixMultKeyToClient evalMixMultKeyFromClient
    insertEvalMultKey
  split
  · refine .poll ⟨by omega, le_rfl, by omega, rfl⟩ (show N + i ≤ N + 1 + N by omega) ?_
    refine .poll ⟨by omega, by omega, by omega, rfl⟩
      (show N + 1 + N ≤ 2 * N + 2 + (N - (i + 1)) by omega) ?_
    refine .upload (show 2 * N + 2 + (N - (i + 1)) < 2 * N + 2 + (N - i) by omega) ?_
    have hle : 2 * N + 2 + (N - (i + 1)) ≤ 3 * N + 1 := by omega
    split
    · exact hle
    · exact hle
  · exact .ret _ (by omega)

theorem ordered_getEvalMultFinal (h1 : 1 ≤ i) (hN : i ≤ N) :
    (getEvalMultFinal i).Ordered (chainKey cc r N) (Polled N .multiply) (rank N) (3 * N + 1)
      (3 * N + 1) := by
  unfold getEvalMultFinal evalMixMultKeyToClient insertEvalMultKey
  split
  · refine .poll ⟨le_rfl, by omega, by omega, rfl⟩
      (show 3 * N + 1 ≤ 2 * N + 2 + (N - 1) by omega) ?_
    exact show 2 * N + 2 + (N - 1) ≤ 3 * N + 1 by omega
  · exact .ret _ le_rfl

theorem ordered_evalSumKeyGen (h1 : 1 ≤ i) (hN : i ≤ N) :
    (evalSumKeyGen cc (r i) i N (P2P.keyPair F cc r i)).Ordered (chainKey cc r N)
      (Polled N .vectorsum) (rank N) N (N + i) := by
  unfold evalSumKeyGen evalSumKeyFromClient evalSumKeyToClient insertEvalSumKey
  split
  · have hlt : N < N + 1 + i := by omega
    exact .upload hlt (.upload hlt (.ret _ (by omega)))
  · rw [if_pos ⟨hN, by omega⟩]
    have hlt : N + 1 + (i - 1) < N + 1 + i := by omega
    have hle : N + 1 + (i - 1) ≤ N + i := by omega
    refine .poll ⟨by omega, by omega, rfl⟩ (show N ≤ N + 1 + (i - 1) by omega) ?_
    refine .poll ⟨by omega, by omega, rfl⟩ le_rfl ?_
    refine .upload hlt (.upload hlt ?_)
    split
    · exact hle
    · exact hle

theorem ordered_getEvalSumFinal (h1 : 1 ≤ i) (hN : i ≤ N) :
    (getEvalSumFinal i N).Ordered (chainKey cc r N) (Polled N .vectorsum) (rank N) (N + i)
      (3 * N + 1) := by
  unfold getEvalSumFinal evalSumKeyToClient insertEvalSumKey
  split
  · refine .poll ⟨by omega, le_rfl, rfl⟩ (show N + i ≤ N + 1 + N by omega) ?_
    exact show N + 1 + N ≤ 3 * N + 1 by omega
  · exact .ret _ (by omega)

theorem ordered_evalKeyGen (op : ComputeOperation) (h1 : 1 ≤ i) (hN : i ≤ N) :
    (evalKeyGen cc (r i) i N op (P2P.keyPair F cc r i) (P2P.keyPair F cc r N).publicKey).Ordered
      (chainKey cc r N) (Polled N op) (rank N) N (3 * N + 1) := by
  cases op with
  | multiply =>
    refine (ordered_evalMultKeyGen h1 hN).bind (promises_evalMultKeyGen (K := ∅) h1 hN) ?_
    intro _ _ _
    refine (ordered_evalMixMultKeyGen h1 hN).bind (promises_evalMixMultKeyGen (K := ∅) hN) ?_
    intro _ _ _
    exact ordered_getEvalMultFinal h1 hN
  | add => exact .ret _ (by omega)
  | vectorsum =>
    refine (ordered_evalSumKeyGen h1 hN).bind (promises_evalSumKeyGen (K := ∅) h1 hN) ?_
    intro _ _ _
    exact ordered_getEvalSumFinal h1 hN

/-- **A client uploads in the order of the ranks.** -/
theorem ordered_keyGen (op : ComputeOperation) (h1 : 1 ≤ i) (hN : i ≤ N) :
    (keyGen cc (r i) i N op).Ordered (chainKey cc r N) (Polled N op) (rank N) 0 (3 * N + 1) := by
  unfold keyGen
  refine (ordered_makeKeyPair op h1 hN).bind (promises_makeKeyPair (K := ∅) h1) ?_
  rintro _ _ rfl
  refine .upload (show i - 1 < i by omega) ?_
  refine (ordered_getFinalPubKey op h1 hN).bind (promises_getFinalPubKey (K := ∅)) ?_
  rintro _ _ ⟨rfl, -⟩
  refine .upload (show N < N + 1 by omega) ?_
  refine (ordered_evalKeyGen op h1 hN).bind (promises_evalKeyGen (K := ∅) op h1 hN) ?_
  exact fun _ _ _ => .ret _ le_rfl

/-- A client uploads every evaluation key of its own that is polled. -/
theorem uploads_evalKeyGen (op : ComputeOperation) {s : Slot} (hs : Polled N op s)
    (hp : ∀ i, s ≠ .publicKey i) : ∃ i, 1 ≤ i ∧ i ≤ N ∧
      (evalKeyGen cc (r i) i N op (P2P.keyPair F cc r i) (P2P.keyPair F cc r N).publicKey).Uploads
        (chainKey cc r N) s := by
  cases s with
  | publicKey i => exact absurd rfl (hp i)
  | secretShares i => exact hs.elim
  | evalMultKey i =>
    obtain ⟨h1, hN, h2, rfl⟩ := hs
    refine ⟨i, h1, hN, Rpc.Client.Uploads.bind ?_ _⟩
    unfold evalMultKeyGen evalMultKeyFromClient
    split
    · exact .inl rfl
    · rw [if_pos ⟨hN, by omega⟩]
      exact .inl rfl
  | evalMixMultKey i =>
    obtain ⟨h1, hN, h2, rfl⟩ := hs
    refine ⟨i, h1, hN, ?_⟩
    by_cases hi : i = N
    · subst hi
      refine Rpc.Client.Uploads.bind ?_ _
      unfold evalMultKeyGen
      rw [if_neg (by omega), if_pos ⟨hN, by omega⟩]
      refine .inr ?_
      rw [if_pos rfl]
      exact .inl rfl
    · refine Rpc.Client.uploads_bind (promises_evalMultKeyGen (K := ∅) h1 hN) fun _ _ _ => ?_
      refine Rpc.Client.Uploads.bind ?_ _
      unfold evalMixMultKeyGen
      rw [if_pos hi]
      exact .inl rfl
  | evalSumKey i index_num =>
    obtain ⟨h1, hN, rfl⟩ := hs
    refine ⟨i, h1, hN, Rpc.Client.Uploads.bind ?_ _⟩
    have hindex : index_num = 0 ∨ index_num = 1 := by omega
    unfold evalSumKeyGen
    split
    · rcases hindex with rfl | rfl
      · exact .inl rfl
      · exact .inr (.inl rfl)
    · rw [if_pos ⟨hN, by omega⟩]
      rcases hindex with rfl | rfl
      · exact .inl rfl
      · exact .inr (.inl rfl)

/-- A client uploads every slot of its own that is polled. -/
theorem uploads_keyGen (op : ComputeOperation) {s : Slot} (hs : Polled N op s) :
    ∃ i, 1 ≤ i ∧ i ≤ N ∧ (keyGen cc (r i) i N op).Uploads (chainKey cc r N) s := by
  by_cases hp : ∃ i, s = .publicKey i
  · obtain ⟨i, rfl⟩ := hp
    refine ⟨i, hs.1, hs.2, ?_⟩
    unfold keyGen
    refine Rpc.Client.uploads_bind (promises_makeKeyPair (K := ∅) hs.1) ?_
    rintro _ _ rfl
    exact .inl rfl
  · -- The evaluation keys come after the public key and the shares.
    obtain ⟨i, h1, hN, hup⟩ := uploads_evalKeyGen op hs (not_exists.mp hp)
    refine ⟨i, h1, hN, ?_⟩
    unfold keyGen
    refine Rpc.Client.uploads_bind (promises_makeKeyPair (K := ∅) h1) ?_
    rintro _ _ rfl
    refine .inr ?_
    change Rpc.Client.Uploads _ s (getFinalPubKey i N (P2P.keyPair F cc r i) >>= _)
    refine Rpc.Client.uploads_bind (promises_getFinalPubKey (K := ∅)) ?_
    rintro _ _ ⟨rfl, -⟩
    exact .inr (hup.bind _)

end

/-! ## The runs -/

/-- **The entries are those of the chain**: the public key and the switching key of client `i` are
those of the clients up to `i`, its mixed key adds up the parts of the clients from `i` on, and its
summation keys are its own (at index 0) and those of the clients up to `i` (at index 1). -/
structure IsChain {cc : F.CryptoContext} (L : F.Additive cc) (r : ℕ → F.Rand) (N : ℕ)
    (sk : ℕ → F.SecretKey) (key : ∀ s : Slot, s.Key F) : Prop where
  publicKey : ∃ a, ∀ i, 1 ≤ i →
    L.IsPublicKey a (∑ j ∈ Icc 1 i, L.secret (sk j)) (key (.publicKey i))
  evalMultKey : ∃ a, ∀ i, 1 ≤ i →
    L.IsEvalKey a (∑ j ∈ Icc 1 i, L.secret (sk j)) (key (.evalMultKey i))
  evalMixMultKey : ∀ i, i ≤ N → L.evalKeyData (key (.evalMixMultKey i)) =
    ∑ j ∈ Icc i N, L.evalKeyData (F.multiMultEvalKey cc (r j) (sk j) (key (.evalMultKey N))
      (F.getKeyTag (key (.publicKey N))))
  evalSumKey0 : ∃ a, ∀ i, 1 ≤ i → L.IsEvalSumKeys a (L.secret (sk i)) (key (.evalSumKey i 0))
  evalSumKey1 : ∀ i, 1 ≤ i → L.evalSumKeysData (key (.evalSumKey i 1)) =
    ∑ j ∈ Icc 1 i, L.evalSumKeysData (key (.evalSumKey j 0))

section

variable (cc : F.CryptoContext) (r : ℕ → F.Rand) (N : ℕ)

theorem chainKey_isChain {cc : F.CryptoContext} (L : F.Additive cc) :
    IsChain L r N (secretKey F cc r) (chainKey cc r N) where
  publicKey := isPublicKey_keyPair L r
  evalMultKey := isEvalKey_evalMultPrevandCurrent L r
  evalMixMultKey _ hi := evalKeyData_evalMultAddskAll L r hi
  evalSumKey0 := isEvalSumKeys_evalSumKeys0 L r
  evalSumKey1 _ hi := evalSumKeysData_evalSumKeys1 L r hi

theorem promised_clients (op : ComputeOperation) :
    (Rpc.System.init (clients cc r N op)).Promised (chainKey cc r N) (fun _ => Final cc r N)
      fun i keyPair => keyPair = P2P.keyPair F cc r (i.val + 1) :=
  .init fun i => promises_keyGen op (Nat.le_add_left _ _) i.isLt

theorem orderly_clients (op : ComputeOperation) :
    (Rpc.System.init (clients cc r N op)).Orderly (chainKey cc r N) (Polled N op) (rank N) where
  uploads s hs := by
    obtain ⟨i, h1, hN, hup⟩ := uploads_keyGen op hs
    obtain ⟨j, rfl⟩ : ∃ j, i = j + 1 := ⟨i - 1, by omega⟩
    exact .inr ⟨⟨j, by omega⟩, hup⟩
  ordered i := ⟨0, _, ordered_keyGen op (Nat.le_add_left _ _) i.isLt⟩

variable {cc}

/-- **The key generations of the clients**: in every interleaving a poll returns the entry of the
chain or nothing, every final key that a client inserts is the complete one, the same for all, and
the clients can always go on until all have ended. -/
theorem keyGen_agree (L : F.Additive cc) :
    ∃ (sk : ℕ → F.SecretKey) (key : ∀ s : Slot, s.Key F), IsChain L r N sk key ∧
      ∀ op σ, (Rpc.System.init (clients cc r N op)).Runs σ →
        (∀ s v, σ.board.toClient s = (true, v) → v = some (key s)) ∧
        (∀ i, ∀ x ∈ σ.hist i, x = .evalMultKey (key (.evalMixMultKey 1)) ∨
          x = .evalSumKey (key (.evalSumKey N 1))) ∧
        ∃ σ', σ.Runs σ' ∧
          ∀ i, ∃ keyPair, σ'.client i = .ret keyPair ∧ keyPair.secretKey = sk (i.val + 1) := by
  refine ⟨secretKey F cc r, chainKey cc r N, chainKey_isChain r N L, fun op σ hσ => ?_⟩
  have h0 := promised_clients cc r N op
  have h := h0.runs hσ
  have ho := (orderly_clients cc r N op).runs h0 hσ
  refine ⟨fun s v hs => h.polled hs, h.hist, ?_⟩
  obtain ⟨σ', hr, hend⟩ := h.completes ho fun i hi => absurd (mem_univ i) hi
  refine ⟨σ', hr, fun i => ?_⟩
  obtain ⟨keyPair, hc, hq⟩ := hend i
  exact ⟨keyPair, hc, congrArg KeyPair.secretKey hq⟩

/-- Two clients, with the secret keys 1 and 2, insert the complete key, which is 9. -/
theorem keyGen_agree_two :
    let σ := (List.replicate 16 [(0 : Fin 2), 1]).flatten.foldl Rpc.System.step
      (Rpc.System.init
        (clients (F := OpenFHE.ideal) (.ckksrns 1 50) (fun i => (i : ℤ)) 2 .multiply))
    ∃ (sk : ℕ → ℤ) (key : ∀ s : Slot, s.Key OpenFHE.ideal),
      IsChain (OpenFHE.idealAdditive (.ckksrns 1 50)) (fun i => (i : ℤ)) 2 sk key ∧
      key (.evalMixMultKey 1) = (9 : ℤ) ∧
      ∀ i, σ.hist i = [.evalMultKey (key (.evalMixMultKey 1))] := by
  intro σ
  obtain ⟨sk, key, hchain, h⟩ :=
    keyGen_agree (fun i => (i : ℤ)) 2 (OpenFHE.idealAdditive (.ckksrns 1 50))
  obtain ⟨-, hinserted, -⟩ := h .multiply σ (.foldl (fun _ _ _ => trivial) _)
  have hist0 : σ.hist 0 = [.evalMultKey (9 : ℤ)] := rfl
  have hist1 : σ.hist 1 = [.evalMultKey (9 : ℤ)] := rfl
  have hkey : key (.evalMixMultKey 1) = (9 : ℤ) := by
    rcases hinserted 0 (.evalMultKey (9 : ℤ)) (by rw [hist0]; exact List.mem_singleton_self _) with
      hmult | hsum
    · exact (Inserted.evalMultKey.inj hmult).symm
    · cases hsum
  refine ⟨sk, key, hchain, hkey, fun i => ?_⟩
  rw [hkey]
  match i with
  | 0 => exact hist0
  | 1 => exact hist1

end

end ThreshNet

import NetworkExamples.P2P.CryptoFunctions

/-!
# The client of the peer-to-peer threshold network with aborts

The code of `thresh_aborts_client.cpp`, from the synchronization of the nodes to the fusion of
their partial decryptions, and the two recovery functions of `crypto_functions.cpp`.

* `setup`: up to the abort point, where a node with the argument `abort` exits.
* `receivePartials`: the partial decryptions of the others; who does not answer in time is in
  `node_nack`.
* `recoverDropped`: for each dropped node, the recovering node collects the shares of its secret
  key and sends the missing partial decryption.

Ghost notes mark a node's way: it enters the recovery with its `node_nack`, it calls
`RecoverSharedKey`, and it reaches `MultipartyDecryptFusion` with its vector of partial
decryptions.
-/

namespace P2P

open Fifo

/-- The ghost notes of a client. -/
inductive Note (F : OpenFHE) where
  | recovering (node_nack : List ℕ)
  | recoverSharedKey (recoveryShares : ℕ → Option F.DCRTPoly)
  | fusion (partialCiphertextVec : List (Option F.Ciphertext))

inductive ComputeOperation where
  | multiply
  | add
  | vectorsum
  deriving DecidableEq

/-- The arguments and the input file of a client. -/
structure ClientParams where
  num_of_nodes : ℕ
  node_id : ℕ
  compute_operation : ComputeOperation
  aborts : Bool
  vectorOfInts : List ℤ

namespace Aborts

variable {F : OpenFHE}

/-- The time-out of the partial decryptions, in ms. -/
def TIME_OUT : ℕ := 1000

abbrev recovering_node_id : ℕ := 1

abbrev startNode : ℕ := 1

/-- The parameters of the crypto context of the first node. -/
def parameters : CCParams := .bfvrns 65537 4 16 30 60

/-- At least this number of nodes can decrypt. -/
def threshold (num_of_nodes : ℕ) : ℕ := num_of_nodes / 2 + 1

def synchronizeMsg : MessageFormat F := ⟨"synchronize msg", .text "synchronize"⟩

section

variable (mynode : NodeImpl F) (r : F.Rand) (params : ClientParams)

/-! ## Up to the abort point -/

/-- Establish the connections. -/
def synchronize : NodeM F (Note F) Unit := do
  broadcastMsg mynode synchronizeMsg
  (others params.num_of_nodes params.node_id).foldlM (fun _ i => do
    let _ ← getMsgWait i "synchronize msg"
    pure ()) ()

/-- The first node makes the crypto context. -/
def shareContext : NodeM F (Note F) F.CryptoContext :=
  if params.node_id = startNode then do
    let cc := F.genCryptoContext parameters
    broadcastSerialMsg mynode .cryptoContext cc "cryptocontext"
    pure cc
  else getSerialMsgWait .cryptoContext "cryptocontext" startNode

/-- Send every other node its share of the own secret key, and receive its share. -/
def exchangeShares (cc : F.CryptoContext) (secretKey : F.SecretKey) :
    NodeM F (Note F) (ℕ → Option F.DCRTPoly) :=
  let secretshares := F.shareKeys cc r secretKey params.num_of_nodes
    (threshold params.num_of_nodes) params.node_id
  (others params.num_of_nodes params.node_id).foldlM (fun recdSecretShares i => do
    sendSerialMsg mynode .poly (secretshares i) "secretshare" i
    let recdShare ← getSerialMsgWait .poly "secretshare" i
    pure (Function.update recdSecretShares i (some recdShare))) fun _ => none

/-- The evaluation keys that the operation needs, as inserted in the crypto context. -/
inductive InsertedKeys (F : OpenFHE) where
  | multiply (evalMultFinal : F.EvalKey)
  | add
  | vectorsum (evalSumFinal : F.EvalSumKeys)

def insertKeys (cc : F.CryptoContext) : NodeM F (Note F) (InsertedKeys F × NodeImpl F) :=
  let node_id := params.node_id
  let endNode := params.num_of_nodes
  let nodes_path := nodesPath params.num_of_nodes node_id
  match params.compute_operation with
  | .multiply => do
    let (evalMultFinal, mynode) ←
      Broadcast.jointEvalMultkeyGen mynode r node_id startNode endNode nodes_path cc
    let key ← nonNull evalMultFinal
    pure (.multiply key, mynode)
  | .vectorsum => do
    let (evalSumFinal, mynode) ←
      Broadcast.jointEvalSumkeyGen mynode r node_id startNode endNode nodes_path cc
    let keys ← nonNull evalSumFinal
    pure (.vectorsum keys, mynode)
  | .add => pure (.add, mynode)

/-- Encrypt the input, broadcast it, and receive the ciphertexts of all nodes. -/
def exchangeCiphertexts (cc : F.CryptoContext) (finalPubKey : F.PublicKey) :
    NodeM F (Note F) (List F.Ciphertext) := do
  let pt := F.makePackedPlaintext cc params.vectorOfInts
  let cipherText := F.encrypt cc r finalPubKey pt
  broadcastSerialMsg mynode .ciphertext cipherText "ciphertext"
  (List.range' 1 params.num_of_nodes).mapM fun i =>
    if params.node_id ≠ i then getSerialMsgWait .ciphertext "ciphertext" i else pure cipherText

/-- What a client knows at the abort point. -/
structure Ready (F : OpenFHE) where
  cc : F.CryptoContext
  mynode : NodeImpl F
  secretKey : F.SecretKey
  recdSecretShares : ℕ → Option F.DCRTPoly
  keys : InsertedKeys F
  cipherTexts : List F.Ciphertext

/-- The client up to the abort point. -/
def setup : NodeM F (Note F) (Ready F) := do
  synchronize mynode params
  let cc ← shareContext mynode params
  let (finalPubKey, mynode) ← Broadcast.jointPublickeyGen mynode r params.node_id startNode
    params.num_of_nodes (nodesPath params.num_of_nodes params.node_id) cc
  let keyPair ← nonNull mynode.keyPair
  let recdSecretShares ← exchangeShares mynode r params cc keyPair.secretKey
  let (keys, mynode) ← insertKeys mynode r params cc
  let cipherTexts ← exchangeCiphertexts mynode r params cc finalPubKey
  pure ⟨cc, mynode, keyPair.secretKey, recdSecretShares, keys, cipherTexts⟩

/-! ## After the abort point -/

/-- Compute on the ciphertexts. -/
def compute (cc : F.CryptoContext) (keys : InsertedKeys F) (cipherTexts : List F.Ciphertext) :
    NodeM F (Note F) F.Ciphertext :=
  match keys with
  | .multiply key => pure (F.evalMultMany cc key cipherTexts)
  | .add => pure (F.evalAddMany cc cipherTexts)
  | .vectorsum keys => do
    let ct ← nonNull cipherTexts.head?
    pure (F.evalSum cc keys ct 16)

/-- The own partial decryption. -/
def partialDecrypt (cc : F.CryptoContext) (resultCT : F.Ciphertext) (secretKey : F.SecretKey) :
    F.Ciphertext :=
  if params.node_id = 1 then F.multipartyDecryptLead cc r resultCT secretKey
  else F.multipartyDecryptMain cc r resultCT secretKey

/-- `node_nack` and the vector of the partial decryptions. -/
structure Partials (F : OpenFHE) where
  node_nack : List ℕ
  vec : List (Option F.Ciphertext)

/-- Receive the partial decryption of one node. -/
def receivePartial (ciphertextPartial : F.Ciphertext) (st : Partials F) (i : ℕ) :
    NodeM F (Note F) (Partials F) :=
  if params.node_id ≠ i then do
    match ← getMsgWait i "partialciphertext" TIME_OUT with
    | none => pure { st with node_nack := st.node_nack ++ [i] }
    | some replyMsg =>
      let ciphertextPartial1 ← deserialize .ciphertexts "partial ct" replyMsg.data
      let ct ← nonNull ciphertextPartial1.head?
      pure { st with vec := st.vec.set (i - 1) (some ct) }
  else pure { st with vec := st.vec.set (i - 1) (some ciphertextPartial) }

def receivePartials (ciphertextPartial : F.Ciphertext) : NodeM F (Note F) (Partials F) :=
  (List.range' 1 params.num_of_nodes).foldlM (receivePartial params ciphertextPartial)
    ⟨[], List.replicate params.num_of_nodes none⟩

/-- The other nodes that are not in `node_nack`. -/
def livePeers (node_nack : List ℕ) : List ℕ :=
  (others params.num_of_nodes params.node_id).filter (· ∉ node_nack)

/-- One turn of the loop of `RecoverDroppedSecret`: a share from every live peer. -/
def collectOnce (node_nack : List ℕ) (st : ℕ × (ℕ → Option F.DCRTPoly)) :
    NodeM F (Note F) (ℕ × (ℕ → Option F.DCRTPoly)) :=
  (livePeers params node_nack).foldlM (fun st j => do
    let secretshareRecover ← getSerialMsgWait .poly "secretsharerecovery" j
    pure (st.1 + 1, Function.update st.2 j (some secretshareRecover))) st

/-- The loop of `RecoverDroppedSecret`. With a live peer every turn increases `ctr`, so that
`threshold` turns are enough; without one the loop never ends. -/
def collectShares (node_nack : List ℕ) :
    ℕ → ℕ × (ℕ → Option F.DCRTPoly) → NodeM F (Note F) (ℕ → Option F.DCRTPoly)
  | 0, _ => .spin
  | turns + 1, (ctr, recoveryShares) =>
    if ctr < threshold params.num_of_nodes then do
      let st ← collectOnce params node_nack (ctr, recoveryShares)
      collectShares node_nack turns st
    else pure recoveryShares

/-- Recover the secret key of a dropped node; also the shares as the loop leaves them. -/
def recoverDroppedSecret (cc : F.CryptoContext) (node_nack : List ℕ)
    (recoveryShares : ℕ → Option F.DCRTPoly) :
    NodeM F (Note F) (F.SecretKey × (ℕ → Option F.DCRTPoly)) := do
  let recoveryShares ← collectShares params node_nack (threshold params.num_of_nodes)
    (1, recoveryShares)
  .note (.recoverSharedKey recoveryShares) <|
    match F.recoverSharedKey cc recoveryShares params.num_of_nodes
        (threshold params.num_of_nodes) with
    | some recovered_sk => pure (recovered_sk, recoveryShares)
    | none => .fail "RecoverSharedKey"

/-- Send the partial decryption under a recovered key to the live peers. -/
def sendRecoveredPartialCT (cc : F.CryptoContext) (node_nack : List ℕ) (resultCT : F.Ciphertext)
    (recovered_sk : F.SecretKey) : NodeM F (Note F) F.Ciphertext := do
  let ciphertextPartial1 := F.multipartyDecryptMain cc r resultCT recovered_sk
  (livePeers params node_nack).foldlM (fun _ j =>
    sendSerialMsg mynode .ciphertexts [ciphertextPartial1] "abortspartialciphertext" j 10) ()
  pure ciphertextPartial1

/-- The turn of the recovery for the dropped node `dropped`. -/
def recoverOne (cc : F.CryptoContext) (recdSecretShares : ℕ → Option F.DCRTPoly)
    (resultCT : F.Ciphertext) (node_nack : List ℕ)
    (st : (ℕ → Option F.DCRTPoly) × List (Option F.Ciphertext)) (dropped : ℕ) :
    NodeM F (Note F) ((ℕ → Option F.DCRTPoly) × List (Option F.Ciphertext)) := do
  let (ct, recoveryShares) ←
    if params.node_id = recovering_node_id then do
      let recoveryShares :=
        Function.update st.1 recovering_node_id (recdSecretShares dropped)
      let (recoveredSecret, recoveryShares) ←
        recoverDroppedSecret params cc node_nack recoveryShares
      let ct ← sendRecoveredPartialCT mynode r params cc node_nack resultCT recoveredSecret
      pure (ct, recoveryShares)
    else do
      let share ← nonNull (recdSecretShares dropped)
      sendSerialMsg mynode .poly share "secretsharerecovery" recovering_node_id
      let ciphertextPartial1 ←
        getSerialMsgWait .ciphertexts "abortspartialciphertext" recovering_node_id
      let ct ← nonNull ciphertextPartial1.head?
      pure (ct, st.1)
  pure (recoveryShares, st.2.set (dropped - 1) (some ct))

/-- Get the partial decryptions of the dropped nodes. -/
def recoverDropped (cc : F.CryptoContext) (recdSecretShares : ℕ → Option F.DCRTPoly)
    (resultCT : F.Ciphertext) (st : Partials F) :
    NodeM F (Note F) (List (Option F.Ciphertext)) :=
  if st.node_nack.length ≠ 0 then
    .note (.recovering st.node_nack) do
      let (_, vec) ← st.node_nack.foldlM
        (recoverOne mynode r params cc recdSecretShares resultCT st.node_nack)
        (fun _ => none, st.vec)
      pure vec
  else pure st.vec

/-- Fuse the partial decryptions. -/
def fuse (cc : F.CryptoContext) (vec : List (Option F.Ciphertext)) :
    NodeM F (Note F) F.Plaintext :=
  .note (.fusion vec) do
    let cts ← vec.mapM nonNull
    pure (F.multipartyDecryptFusion cc cts)

/-- The client with the partial decryptions of the live nodes. -/
def finish (s : Ready F) (resultCT : F.Ciphertext) (st : Partials F) :
    NodeM F (Note F) F.Plaintext :=
  if 0 < st.node_nack.length ∧ threshold params.num_of_nodes ≤ st.node_nack.length then
    .fail "majority number of nodes dropped out, not enough nodes to recover"
  else do
    let vec ← recoverDropped s.mynode r params s.cc s.recdSecretShares resultCT st
    fuse s.cc vec

/-- The client after the abort point. -/
def decrypt (s : Ready F) : NodeM F (Note F) F.Plaintext := do
  let resultCT ← compute s.cc s.keys s.cipherTexts
  let ciphertextPartial := partialDecrypt r params s.cc resultCT s.secretKey
  broadcastSerialMsg s.mynode .ciphertexts [ciphertextPartial] "partialciphertext" 10
  let st ← receivePartials params ciphertextPartial
  finish r params s resultCT st

/-- The client: its result is the fused plaintext, or `none` if it exits at the abort point. -/
def main : NodeM F (Note F) (Option F.Plaintext) := do
  let s ← setup mynode r params
  if params.aborts then pure none
  else do
    let pt ← decrypt r params s
    pure (some pt)

end

end Aborts

end P2P

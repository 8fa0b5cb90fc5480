import NetworkExamples.Lists.Loops
import NetworkExamples.P2P.CoMeasurement
import NetworkExamples.P2P.Node

/-!
# The co-measurement of the peer-to-peer network

The code of `network_measure.cpp` and of `network_measure_with_controller.cpp`, whose key generations
are the same but for the copies to the controller, and of `controller_network_measure.cpp` (process
0). Both nodes decrypt one ciphertext: the difference of the two masked vectors.

* `follows_network`: each process follows its script.
* `runs`: in every interleaving the processes do what their scripts say, and can always finish.
-/

namespace P2P

open Fifo

variable {F : OpenFHE}

namespace Measure

abbrev startNode : ℕ := 1

abbrev nextNode : ℕ := 2

abbrev controllerNode : ℕ := 0

/-- The two programs. -/
inductive Version where
  | peerToPeer
  | withController
  deriving DecidableEq

def parameters : CCParams := .bfvrnsDefault 65537 4 1024

/-! ## The key generations -/

section

variable (version : Version) (mynode : NodeImpl F) (r : F.Rand) (cc : F.CryptoContext)
  (node_name sendtoNode getfromNode : ℕ)

/-- Get the crypto context: without a controller the first node makes it. -/
def getCryptoContext : NodeM F Empty F.CryptoContext :=
  match version with
  | .withController => getSerialMsgWait .cryptoContext "cryptocontext" controllerNode
  | .peerToPeer =>
    if node_name = startNode then do
      let cc := F.genCryptoContext parameters
      sendSerialMsg mynode .cryptoContext cc "cryptocontext" sendtoNode
      pure cc
    else getSerialMsgWait .cryptoContext "cryptocontext" getfromNode

/-- Send a final key to the controller, if there is one. -/
def sendCopy {T : Type} (k : Kind F T) (x : T) (msgType : String) : NodeM F Empty Unit :=
  match version with
  | .withController => sendSerialMsg mynode k x msgType controllerNode
  | .peerToPeer => pure ()

def makeKeyPair : NodeM F Empty (KeyPair F.PublicKey F.SecretKey) :=
  if node_name = startNode then pure (F.keyGen cc r)
  else do
    let prevPubKey ← getSerialMsgWait .publicKey "PublicKey" getfromNode
    pure (F.multipartyKeyGen cc r prevPubKey)

/-- The final public key is that of `Node2`. -/
def getFinalPubKey (keyPair : KeyPair F.PublicKey F.SecretKey) : NodeM F Empty F.PublicKey :=
  if node_name ≠ 2 then getSerialMsgWait .publicKey "PublicKey" getfromNode
  else do
    sendCopy version mynode .publicKey keyPair.publicKey "public key"
    pure keyPair.publicKey

variable (keyPair : KeyPair F.PublicKey F.SecretKey) (FinalPubKey : F.PublicKey)

/-- The switching key goes from `Node1` to `Node2`. -/
def evalMultKeyGen : NodeM F Empty Unit :=
  let sk := keyPair.secretKey
  if node_name = startNode then
    sendSerialMsg mynode .evalKey (F.keySwitchGen cc r sk sk) "evalmultkey" sendtoNode
  else do
    let PrevevalMultKey ← getSerialMsgWait .evalKey "evalmultkey" getfromNode
    let evalMultKey := F.multiKeySwitchGen cc r sk sk PrevevalMultKey
    let evalMultPrevandCurrent :=
      F.multiAddEvalKeys cc PrevevalMultKey evalMultKey (F.getKeyTag keyPair.publicKey)
    sendSerialMsg mynode .evalKey evalMultPrevandCurrent "evalmultkey" sendtoNode
    if node_name = 2 then
      sendSerialMsg mynode .evalKey
        (F.multiMultEvalKey cc r sk evalMultPrevandCurrent (F.getKeyTag FinalPubKey))
        "evalmixmultkey" sendtoNode

/-- The final multiplication key goes back; `Node1` inserts it. -/
def evalMixMultKeyGen : NodeM F Empty (Option F.EvalKey) :=
  if node_name ≠ nextNode then do
    let evalMultAll ← getSerialMsgWait .evalKey "evalmultkey" getfromNode
    let PrevevalMixMultKey ← getSerialMsgWait .evalKey "evalmixmultkey" getfromNode
    let evalMultKeyskAll :=
      F.multiMultEvalKey cc r keyPair.secretKey evalMultAll (F.getKeyTag FinalPubKey)
    let evalMultAddskAll :=
      F.multiAddEvalMultKeys cc evalMultKeyskAll PrevevalMixMultKey (F.getKeyTag FinalPubKey)
    sendSerialMsg mynode .evalKey evalMultAddskAll "evalmixmultkey" sendtoNode
    if node_name = startNode then do
      sendCopy version mynode .evalKey evalMultAddskAll "evalmixmultkey"
      pure (some evalMultAddskAll)
    else pure none
  else pure none

/-- The multiplication key that the node has inserted in its crypto context. -/
def getEvalMultFinal (inserted : Option F.EvalKey) : NodeM F Empty F.EvalKey :=
  if node_name ≠ startNode then getSerialMsgWait .evalKey "evalmixmultkey" getfromNode
  else nonNull inserted

end

/-- What a node has after the key generations. -/
structure Ready (F : OpenFHE) where
  cc : F.CryptoContext
  keyPair : KeyPair F.PublicKey F.SecretKey
  finalPubKey : F.PublicKey
  evalMultFinal : F.EvalKey

def keyGen (version : Version) (mynode : NodeImpl F) (r : F.Rand)
    (node_name sendtoNode getfromNode : ℕ) : NodeM F Empty (Ready F) := do
  let cc ← getCryptoContext version mynode node_name sendtoNode getfromNode
  let keyPair ← makeKeyPair r cc node_name getfromNode
  sendSerialMsg mynode .publicKey keyPair.publicKey "PublicKey" sendtoNode
  let FinalPubKey ← getFinalPubKey version mynode node_name getfromNode keyPair
  evalMultKeyGen mynode r cc node_name sendtoNode getfromNode keyPair FinalPubKey
  let inserted ←
    evalMixMultKeyGen version mynode r cc node_name sendtoNode getfromNode keyPair FinalPubKey
  let evalMultFinal ← getEvalMultFinal node_name getfromNode inserted
  pure ⟨cc, keyPair, FinalPubKey, evalMultFinal⟩

/-! ## The measurements -/

/-- The random vector; `rand` are the values of `std::rand`. -/
def drawRandom (plaintextModulus : ℕ) (rand : ℕ → ℕ) : List ℤ :=
  (List.range 12).map fun i => (rand i % plaintextModulus : ℕ)

/-- The products of the measurements and the random vector. `none`: there are less than 12
measurements, and the code reads behind them. -/
def randomCiphertext (plaintextModulus : ℕ) (vectorOfInts random_rvec : List ℤ) :
    Option (List ℤ) :=
  (List.range 12).mapM fun i => do
    let x ← vectorOfInts[i]?
    let y ← random_rvec[i]?
    pure ((x * y).tmod plaintextModulus)

section

variable (version : Version) (mynode : NodeImpl F) (r : F.Rand)
  (node_name sendtoNode getfromNode : ℕ) (ready : Ready F)

/-- Without a controller: the masked vector and its random vector go to the other node. -/
def maskOwn (rand : ℕ → ℕ) (vectorOfInts : List ℤ) : NodeM F Empty F.Ciphertext := do
  let cc := ready.cc
  let plaintextModulus := F.plaintextModulus cc
  let random_rvec := drawRandom plaintextModulus rand
  let plain_randomciphertext ← nonNull (randomCiphertext plaintextModulus vectorOfInts random_rvec)
  let encryptedrandom_r := F.encrypt cc r ready.finalPubKey (F.makePackedPlaintext cc random_rvec)
  let randomcipherText :=
    F.encrypt cc r ready.finalPubKey (F.makePackedPlaintext cc plain_randomciphertext)
  sendSerialMsg mynode .ciphertext randomcipherText "ciphertext" sendtoNode
  sendSerialMsg mynode .ciphertext encryptedrandom_r "randomness ciphertext" sendtoNode
  let clientCT ← getSerialMsgWait .ciphertext "ciphertext" getfromNode
  let ClientRandomness ← getSerialMsgWait .ciphertext "randomness ciphertext" getfromNode
  let temp1 := F.evalMult cc ready.evalMultFinal randomcipherText ClientRandomness
  let temp2 := F.evalMult cc ready.evalMultFinal clientCT encryptedrandom_r
  pure (if node_name = startNode then F.evalSub cc temp1 temp2 else F.evalSub cc temp2 temp1)

/-- With a controller, which masks both vectors. -/
def maskByController (vectorOfInts : List ℤ) : NodeM F Empty F.Ciphertext := do
  let cc := ready.cc
  let cipherText := F.encrypt cc r ready.finalPubKey (F.makePackedPlaintext cc vectorOfInts)
  sendSerialMsg mynode .ciphertext cipherText "ciphertext" controllerNode
  let randomizedCT ← getSerialMsgWait .ciphertext "randomized ciphertext" controllerNode
  sendSerialMsg mynode .ciphertext randomizedCT "randomized ciphertext" sendtoNode
  let otherclientCT ← getSerialMsgWait .ciphertext "randomized ciphertext" getfromNode
  pure (if node_name = startNode then F.evalSub cc randomizedCT otherclientCT
    else F.evalSub cc otherclientCT randomizedCT)

/-- The difference of the masked vectors. -/
def subtract (rand : ℕ → ℕ) (vectorOfInts : List ℤ) : NodeM F Empty F.Ciphertext :=
  match version with
  | .peerToPeer => maskOwn mynode r node_name sendtoNode getfromNode ready rand vectorOfInts
  | .withController =>
    maskByController mynode r node_name sendtoNode getfromNode ready vectorOfInts

/-- The joint decryption, and the verdict. -/
def decrypt (resultCT : F.Ciphertext) : NodeM F Empty (List Printed) := do
  let sk := ready.keyPair.secretKey
  let ciphertextPartial :=
    if node_name = startNode then F.multipartyDecryptLead ready.cc r resultCT sk
    else F.multipartyDecryptMain ready.cc r resultCT sk
  sendSerialMsg mynode .ciphertext ciphertextPartial "partialct" sendtoNode
  let otherClientPartialCT ← getSerialMsgWait .ciphertext "partialct" getfromNode
  let partialCiphertextVec :=
    if node_name = startNode then [ciphertextPartial, otherClientPartialCT]
    else [otherClientPartialCT, ciphertextPartial]
  let plaintextMultipartyNew := F.multipartyDecryptFusion ready.cc partialCiphertextVec
  nonNull (printVerdict (F.getPackedValue ready.cc plaintextMultipartyNew 12))

end

/-- A node; its result is what it prints. -/
def node (version : Version) (mynode : NodeImpl F) (r : F.Rand) (rand : ℕ → ℕ)
    (vectorOfInts : List ℤ) : NodeM F Empty (Option (List Printed)) := do
  let node_name := mynode.myNodeName
  let otherNode := if node_name = startNode then nextNode else startNode
  let ready ← keyGen version mynode r node_name otherNode otherNode
  let resultCT ← subtract version mynode r node_name otherNode otherNode ready rand vectorOfInts
  let printed ← decrypt mynode r node_name otherNode otherNode ready resultCT
  pure (some printed)

/-- The controller. -/
def controller (mynode : NodeImpl F) (r : F.Rand) (rand : ℕ → ℕ) :
    NodeM F Empty (Option (List Printed)) := do
  let nodeA := 1
  let nodeB := 2
  let cc := F.genCryptoContext parameters
  sendSerialMsg mynode .cryptoContext cc "cryptocontext" nodeA
  sendSerialMsg mynode .cryptoContext cc "cryptocontext" nodeB
  let FinalPubKey ← getSerialMsgWait .publicKey "PublicKey" nodeB
  let evalMultFinal ← getSerialMsgWait .evalKey "evalmixmultkey" nodeA
  -- The modulus of the parameters.
  let random_rvec := drawRandom 65537 rand
  let encryptedrandom_r := F.encrypt cc r FinalPubKey (F.makePackedPlaintext cc random_rvec)
  let ctA ← getSerialMsgWait .ciphertext "ciphertext" nodeA
  sendSerialMsg mynode .ciphertext (F.evalMult cc evalMultFinal encryptedrandom_r ctA)
    "randomized ciphertext" nodeA
  let ctB ← getSerialMsgWait .ciphertext "ciphertext" nodeB
  sendSerialMsg mynode .ciphertext (F.evalMult cc evalMultFinal encryptedrandom_r ctB)
    "randomized ciphertext" nodeB
  pure none

/-! ## The network -/

/-- The parameters of a run: the measurements, the random tapes and the values of `std::rand` of the
processes, and the network map. -/
structure Setting (F : OpenFHE) where
  version : Version
  inputs : ℕ → List ℤ
  rand : ℕ → F.Rand
  random : ℕ → ℕ → ℕ
  peers : ℕ → List ℕ
  nodes_connected : 2 ∈ peers 1 ∧ 1 ∈ peers 2
  controller_connected : version = .withController → (1 ∈ peers 0 ∧ 2 ∈ peers 0) ∧
    0 ∈ peers 1 ∧ 0 ∈ peers 2

namespace Setting

section

variable (S : Setting F)

/-- Process `i` at its start. -/
def start (i : ℕ) : NodeImpl F := { myNodeName := i, connectedAddresses := S.peers i }

def network : ℕ → NodeM F Empty (Option (List Printed))
  | 0 =>
    match S.version with
    | .withController => controller (S.start 0) (S.rand 0) (S.random 0)
    | .peerToPeer => .fail "no node"
  | 1 => node S.version (S.start 1) (S.rand 1) (S.random 1) (S.inputs 1)
  | 2 => node S.version (S.start 2) (S.rand 2) (S.random 2) (S.inputs 2)
  | _ + 3 => .fail "no node"

/-! ### What the processes compute -/

def cc (_ : Setting F) : F.CryptoContext := F.genCryptoContext parameters

abbrev plaintextModulus : ℕ := F.plaintextModulus S.cc

def finalPubKey : F.PublicKey := (P2P.keyPair F S.cc S.rand 2).publicKey

/-- Node `i` with its keys. -/
def ready (i : ℕ) : Ready F :=
  ⟨S.cc, P2P.keyPair F S.cc S.rand i, S.finalPubKey, evalMultAddskAll F S.cc S.rand 2 1⟩

/-- A vector, encrypted by process `i`. -/
def encrypted (i : ℕ) (v : List ℤ) : F.Ciphertext :=
  F.encrypt S.cc (S.rand i) S.finalPubKey (F.makePackedPlaintext S.cc v)

def random_rvec (i : ℕ) : List ℤ := drawRandom S.plaintextModulus (S.random i)

/-- The products of node `i`; the code reads 12 measurements. -/
def products (i : ℕ) : List ℤ :=
  (randomCiphertext S.plaintextModulus (S.inputs i) (S.random_rvec i)).getD []

/-- What node `i` sends as its ciphertext. -/
def cipherText (i : ℕ) : F.Ciphertext :=
  match S.version with
  | .peerToPeer => S.encrypted i (S.products i)
  | .withController => S.encrypted i (S.inputs i)

/-- The random vector that masks the vector of node `i`, encrypted. -/
def encryptedRandom (i : ℕ) : F.Ciphertext :=
  match S.version with
  | .peerToPeer => S.encrypted (3 - i) (S.random_rvec (3 - i))
  | .withController => S.encrypted 0 (drawRandom 65537 (S.random 0))

/-- The masked vector of node `i`. -/
def maskedCT (i : ℕ) : F.Ciphertext :=
  let ek := evalMultAddskAll F S.cc S.rand 2 1
  match S.version with
  | .peerToPeer => F.evalMult S.cc ek (S.cipherText i) (S.encryptedRandom i)
  | .withController => F.evalMult S.cc ek (S.encryptedRandom i) (S.cipherText i)

def resultCT : F.Ciphertext := F.evalSub S.cc (S.maskedCT 1) (S.maskedCT 2)

def partialCT (i : ℕ) : F.Ciphertext :=
  if i = startNode then
    F.multipartyDecryptLead S.cc (S.rand i) S.resultCT (secretKey F S.cc S.rand i)
  else F.multipartyDecryptMain S.cc (S.rand i) S.resultCT (secretKey F S.cc S.rand i)

def plaintext : F.Plaintext :=
  F.multipartyDecryptFusion S.cc [S.partialCT 1, S.partialCT 2]

/-! ### The scripts -/

def contextMsg : MessageFormat F := ⟨"cryptocontext", Kind.cryptoContext.ser S.cc⟩

def finalPubKeyMsg : MessageFormat F := ⟨"public key", Kind.publicKey.ser S.finalPubKey⟩

/-- The message with the ciphertext `ct`. -/
def ctMsg (msgType : String) (ct : F.Ciphertext) : MessageFormat F :=
  ⟨msgType, Kind.ciphertext.ser ct⟩

/-- The key generations. -/
def keyScript (i : ℕ) : Script ℕ (MessageFormat F) Empty :=
  let pk := publicKeyMsg S.cc S.rand
  let ek := evalMultMsg S.cc S.rand
  let mix := evalMixMultMsg S.cc S.rand 2
  match S.version, i with
  | .peerToPeer, 1 =>
    [(0, .sent 2 S.contextMsg false), (0, .sent 2 (pk 1) false), (2, .got 2 (.got (pk 2))),
      (2, .sent 2 (ek 1) false), (4, .got 2 (.got (ek 2))), (4, .got 2 (.got (mix 2))),
      (4, .sent 2 (mix 1) false)]
  | .peerToPeer, 2 =>
    [(1, .got 1 (.got S.contextMsg)), (1, .got 1 (.got (pk 1))), (1, .sent 1 (pk 2) false),
      (3, .got 1 (.got (ek 1))), (3, .sent 1 (ek 2) false), (3, .sent 1 (mix 2) false),
      (5, .got 1 (.got (mix 1)))]
  | .withController, 0 =>
    [(0, .sent 1 S.contextMsg false), (0, .sent 2 S.contextMsg false),
      (3, .got 2 (.got S.finalPubKeyMsg)), (6, .got 1 (.got (mix 1)))]
  | .withController, 1 =>
    [(1, .got 0 (.got S.contextMsg)), (1, .sent 2 (pk 1) false), (3, .got 2 (.got (pk 2))),
      (3, .sent 2 (ek 1) false), (5, .got 2 (.got (ek 2))), (5, .got 2 (.got (mix 2))),
      (5, .sent 2 (mix 1) false), (5, .sent 0 (mix 1) false)]
  | .withController, 2 =>
    [(1, .got 0 (.got S.contextMsg)), (2, .got 1 (.got (pk 1))), (2, .sent 1 (pk 2) false),
      (2, .sent 0 S.finalPubKeyMsg false), (4, .got 1 (.got (ek 1))), (4, .sent 1 (ek 2) false),
      (4, .sent 1 (mix 2) false), (6, .got 1 (.got (mix 1)))]
  | _, _ => []

/-- The exchange of the vectors. -/
def maskScript (i : ℕ) : Script ℕ (MessageFormat F) Empty :=
  let ct (i : ℕ) := ctMsg "ciphertext" (S.cipherText i)
  let random (i : ℕ) := ctMsg "randomness ciphertext" (S.encryptedRandom (3 - i))
  let masked (i : ℕ) := ctMsg "randomized ciphertext" (S.maskedCT i)
  match S.version, i with
  | .peerToPeer, 1 =>
    [(0, .sent 2 (ct 1) false), (0, .sent 2 (random 1) false), (1, .got 2 (.got (ct 2))),
      (1, .got 2 (.got (random 2)))]
  | .peerToPeer, 2 =>
    [(0, .sent 1 (ct 2) false), (0, .sent 1 (random 2) false), (1, .got 1 (.got (ct 1))),
      (1, .got 1 (.got (random 1)))]
  | .withController, 0 =>
    [(1, .got 1 (.got (ct 1))), (1, .sent 1 (masked 1) false), (1, .got 2 (.got (ct 2))),
      (1, .sent 2 (masked 2) false)]
  | .withController, 1 =>
    [(0, .sent 0 (ct 1) false), (2, .got 0 (.got (masked 1))), (2, .sent 2 (masked 1) false),
      (3, .got 2 (.got (masked 2)))]
  | .withController, 2 =>
    [(0, .sent 0 (ct 2) false), (2, .got 0 (.got (masked 2))), (2, .sent 1 (masked 2) false),
      (3, .got 1 (.got (masked 1)))]
  | _, _ => []

/-- The exchange of the partial decryptions. -/
def decryptScript : ℕ → Script ℕ (MessageFormat F) Empty
  | 1 => [(0, .sent 2 (ctMsg "partialct" (S.partialCT 1)) false),
      (1, .got 2 (.got (ctMsg "partialct" (S.partialCT 2))))]
  | 2 => [(0, .sent 1 (ctMsg "partialct" (S.partialCT 2)) false),
      (1, .got 1 (.got (ctMsg "partialct" (S.partialCT 1))))]
  | _ => []

/-- **What process `i` does.** -/
def script (i : ℕ) : Script ℕ (MessageFormat F) Empty :=
  S.keyScript i ++ shift 7 (S.maskScript i ++ shift 4 (S.decryptScript i))

end

variable {S : Setting F}

/-- The three processes and the others. -/
theorem cases_process {P : ℕ → Prop} (h0 : P 0) (h1 : P 1) (h2 : P 2) (h : ∀ n, P (n + 3)) :
    ∀ i, P i
  | 0 => h0
  | 1 => h1
  | 2 => h2
  | n + 3 => h n

theorem keyScript_phase : Phase S.keyScript 7 := by
  refine ⟨fun i => ?_, fun i => ?_, fun a b => ?_⟩
  · induction i using cases_process <;> cases hv : S.version <;> simp [keyScript, hv]
  · induction i using cases_process <;> cases hv : S.version <;> simp [keyScript, hv]
  · induction a using cases_process <;> induction b using cases_process <;> cases hv : S.version <;>
      simp [keyScript, hv]

theorem maskScript_phase : Phase S.maskScript 4 := by
  refine ⟨fun i => ?_, fun i => ?_, fun a b => ?_⟩
  · induction i using cases_process <;> cases hv : S.version <;> simp [maskScript, hv]
  · induction i using cases_process <;> cases hv : S.version <;> simp [maskScript, hv]
  · induction a using cases_process <;> induction b using cases_process <;> cases hv : S.version <;>
      simp [maskScript, hv]

theorem decryptScript_phase : Phase S.decryptScript 2 := by
  refine ⟨fun i => ?_, fun i => ?_, fun a b => ?_⟩
  · induction i using cases_process <;> simp [decryptScript]
  · induction i using cases_process <;> simp [decryptScript]
  · induction a using cases_process <;> induction b using cases_process <;>
      simp [decryptScript]

theorem script_phase : Phase S.script 13 :=
  keyScript_phase.append (maskScript_phase.append decryptScript_phase)

/-! ### The programs follow the scripts -/

theorem follows_keyGen_first :
    Follows (keyGen S.version (S.start 1) (S.rand 1) 1 2 2) (S.keyScript 1).events
      (.ret (S.ready 1)) := by
  have h12 : 2 ∈ (S.start 1).connectedAddresses := S.nodes_connected.1
  cases hv : S.version with
  | peerToPeer =>
    simp only [keyGen, getCryptoContext, makeKeyPair, getFinalPubKey, evalMultKeyGen,
      evalMixMultKeyGen, getEvalMultFinal, sendCopy, keyScript, hv, startNode, nextNode, ne_eq,
      OfNat.one_ne_ofNat, not_false_eq_true, not_true, if_true, if_false, bind_assoc, pure_bind]
    refine follows_sendSerialMsg h12 ?_
    refine follows_sendSerialMsg h12 ?_
    refine follows_getSerialMsgWait ?_
    refine follows_sendSerialMsg h12 ?_
    refine follows_getSerialMsgWait ?_
    refine follows_getSerialMsgWait ?_
    refine follows_sendSerialMsg h12 ?_
    exact .nil _
  | withController =>
    have h10 : 0 ∈ (S.start 1).connectedAddresses := (S.controller_connected hv).2.1
    simp only [keyGen, getCryptoContext, makeKeyPair, getFinalPubKey, evalMultKeyGen,
      evalMixMultKeyGen, getEvalMultFinal, sendCopy, keyScript, hv, startNode, nextNode, ne_eq,
      OfNat.one_ne_ofNat, not_false_eq_true, not_true, if_true, if_false, bind_assoc, pure_bind]
    refine follows_getSerialMsgWait ?_
    refine follows_sendSerialMsg h12 ?_
    refine follows_getSerialMsgWait ?_
    refine follows_sendSerialMsg h12 ?_
    refine follows_getSerialMsgWait ?_
    refine follows_getSerialMsgWait ?_
    refine follows_sendSerialMsg h12 ?_
    refine follows_sendSerialMsg h10 ?_
    exact .nil _

theorem follows_keyGen_next :
    Follows (keyGen S.version (S.start 2) (S.rand 2) 2 1 1) (S.keyScript 2).events
      (.ret (S.ready 2)) := by
  have h21 : 1 ∈ (S.start 2).connectedAddresses := S.nodes_connected.2
  cases hv : S.version with
  | peerToPeer =>
    simp only [keyGen, getCryptoContext, makeKeyPair, getFinalPubKey, evalMultKeyGen,
      evalMixMultKeyGen, getEvalMultFinal, sendCopy, keyScript, hv, startNode, nextNode, ne_eq,
      OfNat.ofNat_ne_one, not_false_eq_true, not_true, if_true, if_false, bind_assoc, pure_bind]
    refine follows_getSerialMsgWait ?_
    refine follows_getSerialMsgWait ?_
    refine follows_sendSerialMsg h21 ?_
    refine follows_getSerialMsgWait ?_
    refine follows_sendSerialMsg h21 ?_
    refine follows_sendSerialMsg h21 ?_
    refine follows_getSerialMsgWait ?_
    exact .nil _
  | withController =>
    have h20 : 0 ∈ (S.start 2).connectedAddresses := (S.controller_connected hv).2.2
    simp only [keyGen, getCryptoContext, makeKeyPair, getFinalPubKey, evalMultKeyGen,
      evalMixMultKeyGen, getEvalMultFinal, sendCopy, keyScript, hv, startNode, nextNode, ne_eq,
      OfNat.ofNat_ne_one, not_false_eq_true, not_true, if_true, if_false, bind_assoc, pure_bind]
    refine follows_getSerialMsgWait ?_
    refine follows_getSerialMsgWait ?_
    refine follows_sendSerialMsg h21 ?_
    refine follows_sendSerialMsg h20 ?_
    refine follows_getSerialMsgWait ?_
    refine follows_sendSerialMsg h21 ?_
    refine follows_sendSerialMsg h21 ?_
    refine follows_getSerialMsgWait ?_
    exact .nil _

/-- The entries of the random vector. -/
theorem getElem?_drawRandom (plaintextModulus : ℕ) (rand : ℕ → ℕ) {k : ℕ} (hk : k < 12) :
    (drawRandom plaintextModulus rand)[k]? = some ((rand k % plaintextModulus : ℕ) : ℤ) := by
  unfold drawRandom
  rw [List.getElem?_map, List.getElem?_range hk]
  rfl

/-- From 12 measurements on the code reads what there is. -/
theorem randomCiphertext_eq {plaintextModulus : ℕ} {rand : ℕ → ℕ} {vectorOfInts : List ℤ}
    (h : 12 ≤ vectorOfInts.length) :
    randomCiphertext plaintextModulus vectorOfInts (drawRandom plaintextModulus rand) =
      some ((List.range 12).map fun k => (vectorOfInts.getD k 0 *
        ((rand k % plaintextModulus : ℕ) : ℤ)).tmod plaintextModulus) := by
  unfold randomCiphertext
  refine Lists.mapM_eq_some fun k hk => ?_
  have hk12 := List.mem_range.mp hk
  rw [getElem?_drawRandom _ _ hk12, List.getElem?_eq_getElem (by omega),
    List.getD_eq_getElem _ _ (by omega)]
  rfl

theorem randomCiphertext_products (i : ℕ) (h : 12 ≤ (S.inputs i).length) :
    randomCiphertext S.plaintextModulus (S.inputs i) (S.random_rvec i) = some (S.products i) := by
  unfold products random_rvec
  rw [randomCiphertext_eq h]
  rfl

theorem maskedCT_peerToPeer (hv : S.version = .peerToPeer) (i : ℕ) :
    S.maskedCT i = F.evalMult S.cc (evalMultAddskAll F S.cc S.rand 2 1)
      (S.encrypted i (S.products i)) (S.encrypted (3 - i) (S.random_rvec (3 - i))) := by
  simp only [maskedCT, cipherText, encryptedRandom, hv]

theorem follows_subtract_first (hlen : S.version = .peerToPeer → 12 ≤ (S.inputs 1).length) :
    Follows (subtract S.version (S.start 1) (S.rand 1) 1 2 2 (S.ready 1) (S.random 1) (S.inputs 1))
      (S.maskScript 1).events (.ret S.resultCT) := by
  have h12 : 2 ∈ (S.start 1).connectedAddresses := S.nodes_connected.1
  cases hv : S.version with
  | peerToPeer =>
    simp only [subtract, maskOwn, maskScript, cipherText, encryptedRandom, hv]
    change Follows (nonNull (randomCiphertext S.plaintextModulus (S.inputs 1) (S.random_rvec 1)) >>=
      _) _ _
    rw [randomCiphertext_products 1 (hlen hv), nonNull_bind]
    refine follows_sendSerialMsg h12 ?_
    refine follows_sendSerialMsg h12 ?_
    refine follows_getSerialMsgWait ?_
    refine follows_getSerialMsgWait ?_
    rw [resultCT, maskedCT_peerToPeer hv, maskedCT_peerToPeer hv]
    exact .nil _
  | withController =>
    have h10 : 0 ∈ (S.start 1).connectedAddresses := (S.controller_connected hv).2.1
    simp only [subtract, maskByController, maskScript, cipherText, hv]
    refine follows_sendSerialMsg h10 ?_
    refine follows_getSerialMsgWait ?_
    refine follows_sendSerialMsg h12 ?_
    refine follows_getSerialMsgWait ?_
    exact .nil _

/-- The other node subtracts the same ciphertexts in the same order. -/
theorem follows_subtract_next (hlen : S.version = .peerToPeer → 12 ≤ (S.inputs 2).length) :
    Follows (subtract S.version (S.start 2) (S.rand 2) 2 1 1 (S.ready 2) (S.random 2) (S.inputs 2))
      (S.maskScript 2).events (.ret S.resultCT) := by
  have h21 : 1 ∈ (S.start 2).connectedAddresses := S.nodes_connected.2
  cases hv : S.version with
  | peerToPeer =>
    simp only [subtract, maskOwn, maskScript, cipherText, encryptedRandom, hv]
    change Follows (nonNull (randomCiphertext S.plaintextModulus (S.inputs 2) (S.random_rvec 2)) >>=
      _) _ _
    rw [randomCiphertext_products 2 (hlen hv), nonNull_bind]
    refine follows_sendSerialMsg h21 ?_
    refine follows_sendSerialMsg h21 ?_
    refine follows_getSerialMsgWait ?_
    refine follows_getSerialMsgWait ?_
    rw [resultCT, maskedCT_peerToPeer hv, maskedCT_peerToPeer hv]
    exact .nil _
  | withController =>
    have h20 : 0 ∈ (S.start 2).connectedAddresses := (S.controller_connected hv).2.2
    simp only [subtract, maskByController, maskScript, cipherText, hv]
    refine follows_sendSerialMsg h20 ?_
    refine follows_getSerialMsgWait ?_
    refine follows_sendSerialMsg h21 ?_
    refine follows_getSerialMsgWait ?_
    exact .nil _

variable {printed : List Printed}

theorem follows_decrypt_first
    (hprinted : printVerdict (F.getPackedValue S.cc S.plaintext 12) = some printed) :
    Follows (decrypt (S.start 1) (S.rand 1) 1 2 2 (S.ready 1) S.resultCT)
      (S.decryptScript 1).events (.ret printed) := by
  refine follows_sendSerialMsg S.nodes_connected.1 ?_
  refine follows_getSerialMsgWait ?_
  change Follows (nonNull (printVerdict (F.getPackedValue S.cc S.plaintext 12))) _ _
  rw [hprinted]
  exact .nil _

theorem follows_decrypt_next
    (hprinted : printVerdict (F.getPackedValue S.cc S.plaintext 12) = some printed) :
    Follows (decrypt (S.start 2) (S.rand 2) 2 1 1 (S.ready 2) S.resultCT)
      (S.decryptScript 2).events (.ret printed) := by
  refine follows_sendSerialMsg S.nodes_connected.2 ?_
  refine follows_getSerialMsgWait ?_
  change Follows (nonNull (printVerdict (F.getPackedValue S.cc S.plaintext 12))) _ _
  rw [hprinted]
  exact .nil _

theorem follows_controller (hv : S.version = .withController) :
    Follows (controller (S.start 0) (S.rand 0) (S.random 0)) (S.script 0).events (.ret none) := by
  have h01 : 1 ∈ (S.start 0).connectedAddresses := (S.controller_connected hv).1.1
  have h02 : 2 ∈ (S.start 0).connectedAddresses := (S.controller_connected hv).1.2
  have hmasked : ∀ i, S.maskedCT i = F.evalMult S.cc (evalMultAddskAll F S.cc S.rand 2 1)
      (S.encrypted 0 (drawRandom 65537 (S.random 0))) (S.cipherText i) := by
    intro i
    simp only [maskedCT, encryptedRandom, hv]
  simp only [script, keyScript, maskScript, decryptScript, hv, hmasked]
  refine follows_sendSerialMsg h01 ?_
  refine follows_sendSerialMsg h02 ?_
  refine follows_getSerialMsgWait ?_
  refine follows_getSerialMsgWait ?_
  refine follows_getSerialMsgWait ?_
  refine follows_sendSerialMsg h01 ?_
  refine follows_getSerialMsgWait ?_
  refine follows_sendSerialMsg h02 ?_
  exact .nil _

/-! ### The runs -/

/-- The processes at the ends of their scripts. -/
def stop (S : Setting F) (printed : List Printed) : ℕ → NodeM F Empty (Option (List Printed))
  | 0 =>
    match S.version with
    | .withController => .ret none
    | .peerToPeer => .fail "no node"
  | 1 | 2 => .ret (some printed)
  | _ + 3 => .fail "no node"

theorem script_outside (n : ℕ) : S.script (n + 3) = [] := by
  cases hv : S.version <;> simp [script, keyScript, maskScript, decryptScript, hv]

theorem follows_network (hlen : S.version = .peerToPeer → ∀ i ∈ [1, 2], 12 ≤ (S.inputs i).length)
    (hprinted : printVerdict (F.getPackedValue S.cc S.plaintext 12) = some printed) (i : ℕ) :
    Follows (S.network i) (S.script i).events (S.stop printed i) := by
  have hscript : ∀ i, (S.script i).events =
      (S.keyScript i).events ++ ((S.maskScript i).events ++ ((S.decryptScript i).events ++ [])) := by
    intro i
    simp [script]
  induction i using cases_process with
  | h0 =>
    unfold network stop
    cases hv : S.version with
    | peerToPeer =>
      simp only [script, keyScript, maskScript, decryptScript, hv]
      exact .nil _
    | withController => exact follows_controller hv
  | h1 =>
    rw [hscript]
    refine follows_keyGen_first.bind ?_
    refine (follows_subtract_first fun hv => hlen hv 1 (by simp)).bind ?_
    exact (follows_decrypt_first hprinted).bind (.nil _)
  | h2 =>
    rw [hscript]
    refine follows_keyGen_next.bind ?_
    refine (follows_subtract_next fun hv => hlen hv 2 (by simp)).bind ?_
    exact (follows_decrypt_next hprinted).bind (.nil _)
  | h n =>
    rw [script_outside]
    exact .nil _

/-- **The network runs by its scripts.** -/
theorem runs (hlen : S.version = .peerToPeer → ∀ i ∈ [1, 2], 12 ≤ (S.inputs i).length)
    (hprinted : printVerdict (F.getPackedValue S.cc S.plaintext 12) = some printed) :
    Plan.Runs ⟨S.script, S.stop printed, fun _ _ => none⟩ (Finset.range 3) S.network := by
  refine script_phase.runs (follows_network hlen hprinted) (fun i => ?_) fun i hi => ?_
  · induction i using cases_process with
    | h0 =>
      simp only [stop]
      cases S.version <;> rfl
    | h1 | h2 | h n => rfl
  · obtain ⟨n, rfl⟩ : ∃ n, i = n + 3 := ⟨i - 3, by simp at hi; omega⟩
    exact script_outside n

end Setting

end Measure

end P2P

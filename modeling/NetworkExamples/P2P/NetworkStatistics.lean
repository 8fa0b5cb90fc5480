import NetworkExamples.Lists.Loops
import NetworkExamples.P2P.PathCryptoFunctions

/-!
# The measurement along a path

The code of `network_statistics.cpp` (a node of the path) and of `controller_statistics.cpp` (the
controller, process 0), with the registers of `register_functions.h`. The controller makes the
crypto context and a ciphertext of zeros; the nodes make the joint keys, each adds its measurements
to the ciphertext, which goes down the path, and sends its partial decryption of the last one to the
controller.

The controller's number of nodes is a parameter of `controller`; the code fixes it to 3
(`controllerMain`). What it does with the decrypted values is left out.
-/

namespace P2P

open Fifo

variable {F : OpenFHE}

namespace Statistics

abbrev startNode : ℕ := 1

abbrev controllerNode : ℕ := 0

def parameters : CCParams := .ckksrns 1 50

/-! ## The registers -/

/-- `map2vector`: the offsets and the lengths of the registers, by their names. -/
abbrev Registers : Type := List (String × ℕ × ℕ)

/-- `none`: the registers do not fit, and the program exits. -/
def initializeMap (ringsize : ℕ) : Option Registers :=
  let n_nodes := 4
  let n_elements := ringsize / 2
  if 3 * n_nodes + 1 > n_elements then none
  else some [("v1", 0, n_nodes), ("v2", n_nodes, n_nodes), ("v3", 2 * n_nodes, n_nodes),
    ("n", 3 * n_nodes, 1)]

/-- `none` is the code's -1: no such register, or an index past its end. -/
def getOffset (map2vector : Registers) (name : String) (index : ℕ) : Option ℕ :=
  match map2vector.lookup name with
  | none => none
  | some (offset, length) => if index ≥ length then none else some offset

def getLength (map2vector : Registers) (name : String) : Option ℕ :=
  (map2vector.lookup name).map (·.2)

/-- Add `val` at an entry of a register. `none`: there is no such entry, and the code goes on to
write outside of its vector. -/
def write (map2vector : Registers) (cc : F.CryptoContext) (cipherText : F.Ciphertext)
    (name : String) (val : ℤ) (index : ℕ) : Option F.Ciphertext := do
  let offset ← getOffset map2vector name index
  let length ← getLength map2vector name
  let invec := (List.replicate (offset + length) 0).set (offset + index) val
  pure (F.evalAddPlain cc cipherText (F.makeCKKSPackedPlaintext cc invec))

def add (map2vector : Registers) (cc : F.CryptoContext) (cipherText : F.Ciphertext)
    (name : String) (val : ℤ) (index : ℕ) : Option F.Ciphertext :=
  write map2vector cc cipherText name val index

/-- Add the measurements of a node to the ciphertext from the node before, and count the node. -/
def accumulate (map2vector : Registers) (cc : F.CryptoContext) (vectorOfInts : List ℤ)
    (node_id : ℕ) (prevCT : F.Ciphertext) : Option F.Ciphertext := do
  let ct ← (List.range 3).foldlM (fun ct i => do
    let x ← vectorOfInts[i]?
    write map2vector cc ct ("v" ++ toString (i + 1)) x (node_id - 1)) prevCT
  add map2vector cc ct "n" 1 0

/-! ## The programs -/

/-- `initializeMap` in a program. -/
def registers (ringsize : ℕ) : NodeM F Empty Registers :=
  match initializeMap ringsize with
  | some map2vector => .ret map2vector
  | none => .fail "number of entries greater than allowed by ring dimension"

/-- A node of the path up to its keys; also its crypto context. -/
def generateKeys (mynode : NodeImpl F) (r : F.Rand) (num_of_nodes node_id : ℕ) :
    NodeM F Empty (F.CryptoContext × NodeImpl F) := do
  let cc ← getSerialMsgWait .cryptoContext "cryptocontext" controllerNode
  let node_name := mynode.myNodeName
  if num_of_nodes = 0 ∨ node_id = 0 ∨ node_name ≠ node_id then
    .fail "Wrong input file"
  else
    let endNode := num_of_nodes
    let nodes_path := nodesPath num_of_nodes node_id
    let (finalPubKey, mynode) ←
      Path.jointPublickeyGen mynode r node_name startNode endNode nodes_path cc
    if node_name = endNode then
      sendSerialMsg mynode .publicKey finalPubKey "finalpublickey" controllerNode
    let (evalMultFinal, mynode) ←
      Path.jointEvalMultkeyGen mynode r node_name startNode endNode nodes_path cc
    let evalMultFinal ← nonNull evalMultFinal
    if node_name = startNode then
      sendSerialMsg mynode .evalKey evalMultFinal "evalmultfinal" controllerNode
    let (evalSumFinal, mynode) ←
      Path.jointEvalSumkeyGen mynode r node_name startNode endNode nodes_path cc
    let evalSumFinal ← nonNull evalSumFinal
    if node_name = endNode then
      sendSerialMsg mynode .evalSumKeys evalSumFinal "evalsumfinal" controllerNode
    pure (cc, mynode)

/-- A node of the path with its keys. -/
def measure (mynode : NodeImpl F) (r : F.Rand) (num_of_nodes node_id : ℕ) (vectorOfInts : List ℤ)
    (cc : F.CryptoContext) : NodeM F Empty (Option F.Plaintext) := do
  let node_name := mynode.myNodeName
  let endNode := num_of_nodes
  let nodes_path := nodesPath num_of_nodes node_id
  let prevCT ←
    if node_name ≠ startNode then
      getSerialMsgWait .ciphertext "ciphertext" nodes_path.dgetfromNode
    else getSerialMsgWait .ciphertext "zero ciphertext" controllerNode
  let map2vector ← registers (F.ringSize cc)
  let prevCT ← nonNull (accumulate map2vector cc vectorOfInts node_id prevCT)
  if node_name = endNode then
    sendSerialMsg mynode .ciphertext prevCT "ciphertext" nodes_path.usendtoNode
  else
    sendSerialMsg mynode .ciphertext prevCT "ciphertext" nodes_path.dsendtoNode
  let finalCT ←
    if node_name ≠ endNode then do
      let x ← getSerialMsgWait .ciphertext "ciphertext" nodes_path.ugetfromNode
      if node_name ≠ startNode then
        sendSerialMsg mynode .ciphertext x "ciphertext" nodes_path.usendtoNode
      pure x
    else pure prevCT
  let keyPair ← nonNull mynode.keyPair
  let ciphertextPartial :=
    if node_name = startNode then F.multipartyDecryptLead cc r finalCT keyPair.secretKey
    else F.multipartyDecryptMain cc r finalCT keyPair.secretKey
  sendSerialMsg mynode .ciphertext ciphertextPartial "partialct" controllerNode
  pure none

/-- A node of the path. -/
def node (mynode : NodeImpl F) (r : F.Rand) (num_of_nodes node_id : ℕ) (vectorOfInts : List ℤ) :
    NodeM F Empty (Option F.Plaintext) := do
  let (cc, mynode) ← generateKeys mynode r num_of_nodes node_id
  measure mynode r num_of_nodes node_id vectorOfInts cc

/-- The controller, for `num_of_nodes` nodes. -/
def controller (mynode : NodeImpl F) (r : F.Rand) (num_of_nodes : ℕ) :
    NodeM F Empty (Option F.Plaintext) := do
  let cc := F.genCryptoContext parameters
  let node_names := mynode.connectedAddresses
  node_names.foldlM (fun _ name => sendSerialMsg mynode .cryptoContext cc "cryptocontext" name) ()
  let endNode := num_of_nodes
  let finalPubKey ← getSerialMsgWait .publicKey "PublicKey" endNode
  let _ ← registers (F.ringSize cc)
  let vecsize := F.ringSize cc / 4
  -- The vector is made with `vecsize` zeros, and as many are pushed to its end.
  let zeroPT := F.makeCKKSPackedPlaintext cc (List.replicate (vecsize + vecsize) 0)
  let zeroCT := F.encrypt cc r finalPubKey zeroPT
  sendSerialMsg mynode .ciphertext zeroCT "zero ciphertext" startNode
  let _evalMultFinal ← getSerialMsgWait .evalKey "evalmixmultkey" startNode
  let _evalSumFinal ← getSerialMsgWait .evalSumKeys "evalsumkey1" endNode
  let partialCiphertextVec ← node_names.zipIdx.foldlM (fun vec x => do
    let nodePartialCT ← getSerialMsgWait .ciphertext "partialct" x.1
    pure (vec.set x.2 (some nodePartialCT))) (List.replicate num_of_nodes none)
  let cts ← partialCiphertextVec.mapM nonNull
  pure (some (F.multipartyDecryptFusion cc cts))

/-- The controller of the code, which is made for three nodes. -/
def controllerMain (mynode : NodeImpl F) (r : F.Rand) : NodeM F Empty (Option F.Plaintext) :=
  controller mynode r 3

/-! ## The registers hold four nodes -/

/-- The registers of a ring that is large enough. -/
def map2vector : Registers := [("v1", 0, 4), ("v2", 4, 4), ("v3", 8, 4), ("n", 12, 1)]

theorem initializeMap_eq {ringsize : ℕ} (h : 26 ≤ ringsize) :
    initializeMap ringsize = some map2vector := by
  unfold initializeMap
  rw [if_neg (by omega)]
  rfl

/-- A write to an entry of a register. -/
theorem write_eq {map2vector : Registers} {name : String} {offset length index : ℕ}
    (h : map2vector.lookup name = some (offset, length)) (hi : index < length)
    (cc : F.CryptoContext) (ct : F.Ciphertext) (val : ℤ) :
    write map2vector cc ct name val index = some (F.evalAddPlain cc ct (F.makeCKKSPackedPlaintext cc
      ((List.replicate (offset + length) 0).set (offset + index) val))) := by
  have hoff : getOffset map2vector name index = some offset := by
    unfold getOffset
    rw [h]
    exact if_neg (by omega)
  have hlen : getLength map2vector name = some length := by
    unfold getLength
    rw [h]
    rfl
  unfold write
  rw [hoff, hlen]
  rfl

theorem write_isSome {map2vector : Registers} {name : String} {offset length index : ℕ}
    (h : map2vector.lookup name = some (offset, length)) (hi : index < length)
    (cc : F.CryptoContext) (ct : F.Ciphertext) (val : ℤ) :
    ∃ ct', write map2vector cc ct name val index = some ct' :=
  ⟨_, write_eq h hi cc ct val⟩

/-- Each of the first four nodes finds its entries. -/
theorem accumulate_isSome {vectorOfInts : List ℤ} (hv : 3 ≤ vectorOfInts.length) {node_id : ℕ}
    (hid : node_id ≤ 4) (cc : F.CryptoContext) (prevCT : F.Ciphertext) :
    ∃ ct, accumulate map2vector cc vectorOfInts node_id prevCT = some ct := by
  have hlookup : ∀ i, i < 3 → map2vector.lookup ("v" ++ toString (i + 1)) = some (4 * i, 4) := by
    intro i hi
    obtain rfl | rfl | rfl : i = 0 ∨ i = 1 ∨ i = 2 := by omega
    · decide
    · decide
    · decide
  obtain ⟨ct, hct⟩ := Lists.foldlM_isSome (l := List.range 3) (f := fun ct i => do
      let x ← vectorOfInts[i]?
      write map2vector cc ct ("v" ++ toString (i + 1)) x (node_id - 1)) (fun i hi ct => by
    have hi := List.mem_range.mp hi
    rw [List.getElem?_eq_getElem (by omega)]
    exact write_isSome (hlookup i hi) (by omega) cc ct _) prevCT
  have hcount : map2vector.lookup "n" = some (12, 1) := by decide
  unfold accumulate
  rw [hct]
  exact write_isSome hcount Nat.one_pos cc ct 1

end Statistics

end P2P

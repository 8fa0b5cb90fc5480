import NetworkExamples.Lists.Loops
import NetworkExamples.P2P.AbortsClient

/-!
# The run of the threshold network up to the abort point

A `Setting` is a run's parameters: the nodes, their inputs and random tapes, and the set `D` of
the nodes that exit at the abort point. Up to there every node does the same
(`setupScript`): the phases synchronization, crypto context, joint public key, exchange of the
shares, evaluation keys, exchange of the ciphertexts. `Setting.ready` is what a node then knows.
-/

namespace P2P

open Fifo

namespace Aborts

/-- The parameters of a run: nodes on a full mesh, and the nodes `D` that exit. -/
structure Setting (F : OpenFHE) where
  N : ℕ
  compute_operation : ComputeOperation
  inputs : ℕ → List ℤ
  rand : ℕ → F.Rand
  peers : ℕ → List ℕ
  D : Finset ℕ
  two_le : 2 ≤ N
  mesh : FullMesh N peers
  mem_nodes : ∀ d ∈ D, 1 ≤ d ∧ d ≤ N

namespace Setting

variable {F : OpenFHE} (S : Setting F)

/-- `i` is a node of the network. -/
abbrev IsNode (i : ℕ) : Prop := P2P.IsNode S.N i

/-- The arguments of node `i`. -/
def params (i : ℕ) : ClientParams where
  num_of_nodes := S.N
  node_id := i
  compute_operation := S.compute_operation
  aborts := decide (i ∈ S.D)
  vectorOfInts := S.inputs i

@[simp] theorem params_num_of_nodes (i : ℕ) : (S.params i).num_of_nodes = S.N := rfl
@[simp] theorem params_node_id (i : ℕ) : (S.params i).node_id = i := rfl
@[simp] theorem params_compute_operation (i : ℕ) :
    (S.params i).compute_operation = S.compute_operation := rfl
@[simp] theorem params_vectorOfInts (i : ℕ) : (S.params i).vectorOfInts = S.inputs i := rfl

/-- Node `i` at its start. -/
def node (i : ℕ) : NodeImpl F := { myNodeName := i, connectedAddresses := S.peers i }

/-- The network of the clients. -/
def network (i : ℕ) : NodeM F (Note F) (Option F.Plaintext) :=
  if S.IsNode i then main (S.node i) (S.rand i) (S.params i) else .fail "no node"

/-! ## What the nodes compute -/

def cc (_ : Setting F) : F.CryptoContext := F.genCryptoContext parameters

def publicKey : F.PublicKey := (keyPair F S.cc S.rand S.N).publicKey

/-- The secret key of node `i`. -/
abbrev sk (i : ℕ) : F.SecretKey := secretKey F S.cc S.rand i

/-- The share of the secret key of node `i` for node `j`. -/
def share (i j : ℕ) : F.DCRTPoly :=
  F.shareKeys S.cc (S.rand i) (S.sk i) S.N (threshold S.N) i j

/-- The shares that node `k` has received. -/
def recdSecretShares (k : ℕ) : ℕ → Option F.DCRTPoly :=
  fun i => if i ∈ others S.N k then some (S.share i k) else none

def insertedKeys : InsertedKeys F :=
  match S.compute_operation with
  | .multiply => .multiply (evalMultAddskAll F S.cc S.rand S.N 1)
  | .add => .add
  | .vectorsum => .vectorsum (evalSumKeys1 F S.cc S.rand S.N)

/-- The ciphertext of node `i`. -/
def cipherText (i : ℕ) : F.Ciphertext :=
  F.encrypt S.cc (S.rand i) S.publicKey (F.makePackedPlaintext S.cc (S.inputs i))

def cipherTexts : List F.Ciphertext := (List.range' 1 S.N).map S.cipherText

/-- Node `i` after the key generations that it takes part in. -/
def readyNode (i : ℕ) : NodeImpl F :=
  { S.node i with
    keyPair := some (keyPair F S.cc S.rand i)
    finalPubKey := some S.publicKey
    evalMultFinal :=
      match S.compute_operation with
      | .multiply => some (evalMultAddskAll F S.cc S.rand S.N 1)
      | _ => none
    evalSumFinal :=
      match S.compute_operation with
      | .vectorsum => some (evalSumKeys1 F S.cc S.rand S.N)
      | _ => none }

/-- **What node `i` knows at the abort point.** -/
def ready (i : ℕ) : Ready F where
  cc := S.cc
  mynode := S.readyNode i
  secretKey := S.sk i
  recdSecretShares := S.recdSecretShares i
  keys := S.insertedKeys
  cipherTexts := S.cipherTexts

/-! ## The scripts -/

/-- The nodes that node `i` sends to in a broadcast. -/
def meshOut (i : ℕ) : List ℕ := if S.IsNode i then S.peers i else []

/-- The nodes that node `i` receives from, in the order of its loops. -/
def meshIn (i : ℕ) : List ℕ := if S.IsNode i then others S.N i else []

def contextMsg : MessageFormat F := ⟨"cryptocontext", Kind.cryptoContext.ser S.cc⟩

def shareMsg (i j : ℕ) : MessageFormat F := ⟨"secretshare", Kind.poly.ser (S.share i j)⟩

def cipherTextMsg (i : ℕ) : MessageFormat F := ⟨"ciphertext", Kind.ciphertext.ser (S.cipherText i)⟩

def synchronizeScript : ℕ → Script ℕ (MessageFormat F) (Note F) :=
  spread S.meshOut S.meshIn (fun _ => synchronizeMsg) false

def contextScript : ℕ → Script ℕ (MessageFormat F) (Note F) :=
  fromOne 1 (S.peers 1) S.contextMsg false

def sharesScript : ℕ → Script ℕ (MessageFormat F) (Note F) := exchange S.N S.shareMsg

def keysScript : ℕ → Script ℕ (MessageFormat F) (Note F) :=
  match S.compute_operation with
  | .multiply => Broadcast.evalMultScript S.cc S.rand S.N S.peers
  | .add => fun _ => []
  | .vectorsum => Broadcast.evalSumScript S.cc S.rand S.N S.peers

def cipherTextsScript : ℕ → Script ℕ (MessageFormat F) (Note F) :=
  spread S.meshOut S.meshIn S.cipherTextMsg false

/-- **What node `i` does up to the abort point.** -/
def setupScript (i : ℕ) : Script ℕ (MessageFormat F) (Note F) :=
  S.synchronizeScript i ++ shift 2 (S.contextScript i ++ shift 2
    (Broadcast.publicKeyScript S.cc S.rand S.N S.peers i ++ shift (2 * S.N + 2 + 2)
      (S.sharesScript i ++ shift (4 * S.N + 2) (S.keysScript i ++ shift (4 * S.N + 8)
        (S.cipherTextsScript i)))))

/-- The time of the abort point. -/
def setupTime : ℕ := 2 + (2 + (2 * S.N + 2 + 2 + (4 * S.N + 2 + (4 * S.N + 8 + 2))))

/-! ## The phases fit -/

variable {S} {i : ℕ}

theorem mem_peers (hi : S.IsNode i) {j : ℕ} : j ∈ S.peers i ↔ 1 ≤ j ∧ j ≤ S.N ∧ j ≠ i :=
  S.mesh.mem i hi j

theorem nodup_meshOut (i : ℕ) : (S.meshOut i).Nodup := by
  unfold meshOut
  split
  · next hi => exact S.mesh.nodup i hi
  · exact .nil

theorem nodup_meshIn (i : ℕ) : (S.meshIn i).Nodup := by
  unfold meshIn
  split
  · exact nodup_others _ _
  · exact .nil

theorem mem_meshOut (i j : ℕ) : j ∈ S.meshOut i ↔ i ∈ S.meshIn j := by
  unfold meshOut meshIn
  split
  · next hi =>
    rw [mem_peers hi]
    split
    · rw [mem_others]; omega
    · simp; omega
  · next hi =>
    split
    · rw [mem_others]; simp; omega
    · simp

theorem keysScript_phase : Phase S.keysScript (4 * S.N + 8) := by
  unfold keysScript
  split
  · exact (Broadcast.evalMultScript_phase (S.mesh.nodup 1 (one_isNode S.two_le))
      (S.mesh.nodup S.N (last_isNode S.two_le))).mono (by omega)
  · exact Phase.nil.mono (by omega)
  · exact (Broadcast.evalSumScript_phase (S.mesh.nodup S.N (last_isNode S.two_le))).mono (by omega)

theorem setupScript_phase : Phase S.setupScript S.setupTime :=
  (spread_phase _ _ nodup_meshOut nodup_meshIn mem_meshOut).append
    ((fromOne_phase 1 (S.mesh.nodup 1 (one_isNode S.two_le)) _ _).append
      ((Broadcast.publicKeyScript_phase (S.mesh.nodup S.N (last_isNode S.two_le))).append
        ((exchange_phase S.N _).append (keysScript_phase.append
          (spread_phase _ _ nodup_meshOut nodup_meshIn mem_meshOut)))))

theorem setupScript_outside (hi : ¬ S.IsNode i) : S.setupScript i = [] := by
  have hN : 1 < S.N := S.two_le
  have hp : i ∉ S.peers 1 := fun h => hi (by have := (mem_peers (one_isNode S.two_le)).mp h; omega)
  obtain ⟨h1, h2, h3⟩ := Broadcast.scripts_outside (Note F) S.cc S.rand S.mesh hN hi
  have hk : S.keysScript i = [] := by
    unfold keysScript
    cases S.compute_operation <;> simp [h2, h3]
  have hne : i ≠ 1 := fun h => hi (h ▸ (one_isNode S.two_le))
  have ho : S.meshOut i = [] := if_neg hi
  have hin : S.meshIn i = [] := if_neg hi
  simp [setupScript, synchronizeScript, contextScript, sharesScript, cipherTextsScript, spread,
    exchange, if_neg hi, h1, hk, fromOne_outside false hp hne, ho, hin]

/-! ## The programs follow -/

theorem events_spread_mesh (hi : S.IsNode i) (m : ℕ → MessageFormat F) (b : Bool) :
    (spread S.meshOut S.meshIn m b i : Script ℕ (MessageFormat F) (Note F)).events =
      ((S.peers i).map fun d => .sent d (m i) b) ++
        (others S.N i).map fun a => .got a (.got (m a)) := by
  have hout : S.meshOut i = S.peers i := if_pos hi
  have hin : S.meshIn i = others S.N i := if_pos hi
  simp [spread, hout, hin, Function.comp_def]

theorem follows_synchronize (hi : S.IsNode i) :
    Follows (synchronize (S.node i) (S.params i)) (S.synchronizeScript i).events (.ret ()) := by
  rw [synchronizeScript, events_spread_mesh hi]
  refine follows_broadcastMsg ?_
  rw [List.map_eq_flatMap]
  refine Follows.foldlM (g := fun _ _ => ()) (fun j _ _ => ?_) ()
  exact follows_getMsgWait (by simp [selects, synchronizeMsg]) (.nil _)

theorem follows_shareContext (hi : S.IsNode i) :
    Follows (shareContext (S.node i) (S.params i)) (S.contextScript i).events (.ret S.cc) := by
  unfold shareContext contextScript
  by_cases h1 : i = 1
  · subst h1
    rw [if_pos (by rfl), events_fromOne_root false (S.mesh.self_notMem (one_isNode S.two_le))]
    exact (follows_broadcastSerialMsg (.nil _)).congr (List.append_nil _)
  · have hpeer : i ∈ S.peers 1 := (mem_peers (one_isNode S.two_le)).mpr (by omega)
    rw [if_neg (by exact h1), events_fromOne_leaf false hpeer h1]
    rw [← bind_pure (getSerialMsgWait _ _ _)]
    exact follows_getSerialMsgWait (.nil _)

theorem follows_exchangeShares {mynode : NodeImpl F} (hi : S.IsNode i)
    (hp : mynode.connectedAddresses = S.peers i) :
    Follows (exchangeShares mynode (S.rand i) (S.params i) S.cc (S.sk i)) (S.sharesScript i).events
      (.ret (S.recdSecretShares i)) := by
  have hev : (S.sharesScript i).events = (others S.N i).flatMap fun j =>
      [.sent j (S.shareMsg i j) false, .got j (.got (S.shareMsg j i))] := by
    rw [sharesScript, exchange, if_pos hi, events_flatMap]
    rfl
  have hrec : S.recdSecretShares i = (others S.N i).foldl
      (fun f j => Function.update f j (some (S.share j i))) fun _ => none := by
    funext j
    rw [Lists.foldl_update_apply]
    rfl
  rw [hev, hrec]
  refine Follows.foldlM (fun j hj st => ?_) _
  have hj := mem_others.mp hj
  refine follows_sendSerialMsg (by rw [hp]; exact (mem_peers hi).mpr hj) ?_
  exact follows_getSerialMsgWait (.nil _)

theorem follows_insertKeys {mynode : NodeImpl F} (hi : S.IsNode i)
    (hn : mynode = { S.node i with keyPair := some (keyPair F S.cc S.rand i),
                                   finalPubKey := some S.publicKey }) :
    Follows (insertKeys mynode (S.rand i) (S.params i) S.cc) (S.keysScript i).events
      (.ret (S.insertedKeys, S.readyNode i)) := by
  subst hn
  have hN : 1 < S.N := S.two_le
  cases hop : S.compute_operation with
  | multiply =>
    simp only [insertKeys, params_compute_operation, hop, keysScript, insertedKeys, readyNode]
    rw [← List.append_nil (Script.events _)]
    exact (Broadcast.follows_jointEvalMultkeyGen hN hi S.mesh (by rfl) (by rfl) (by rfl)).bind
      (.nil _)
  | add =>
    simp only [insertKeys, params_compute_operation, hop, keysScript, insertedKeys, readyNode]
    exact .nil _
  | vectorsum =>
    simp only [insertKeys, params_compute_operation, hop, keysScript, insertedKeys, readyNode]
    rw [← List.append_nil (Script.events _)]
    exact (Broadcast.follows_jointEvalSumkeyGen hN hi S.mesh (by rfl) (by rfl)).bind (.nil _)

theorem follows_exchangeCiphertexts {mynode : NodeImpl F} (hi : S.IsNode i)
    (hp : mynode.connectedAddresses = S.peers i) :
    Follows (exchangeCiphertexts mynode (S.rand i) (S.params i) S.cc S.publicKey)
      (S.cipherTextsScript i).events (.ret S.cipherTexts) := by
  rw [cipherTextsScript, events_spread_mesh hi, ← hp]
  refine follows_broadcastSerialMsg ?_
  rw [others_map]
  refine Follows.mapM fun j _ => ?_
  by_cases h : i = j
  · subst h
    rw [if_neg (by simp), if_neg (by simp)]
    exact .nil _
  · rw [if_pos h, if_pos (by exact h), ← bind_pure (getSerialMsgWait _ _ _)]
    exact follows_getSerialMsgWait (.nil _)

/-- **Up to the abort point every node follows its script.** -/
theorem follows_setup (hi : S.IsNode i) :
    Follows (setup (S.node i) (S.rand i) (S.params i)) (S.setupScript i).events
      (.ret (S.ready i)) := by
  have hN : 1 < S.N := S.two_le
  simp only [setupScript, List.map_append, events_shift]
  refine (follows_synchronize hi).bind ?_
  refine (follows_shareContext hi).bind ?_
  refine (Broadcast.follows_jointPublickeyGen hN hi S.mesh (by rfl)).bind ?_
  refine (follows_exchangeShares hi (by rfl)).bind ?_
  refine (follows_insertKeys hi (by rfl)).bind ?_
  exact ((follows_exchangeCiphertexts hi (by rfl)).bind (.nil _)).congr (List.append_nil _)

end Setting

end Aborts

end P2P

import NetworkExamples.P2P.Node
import NetworkExamples.P2P.JointKeys

/-!
# Joint key generation on a full mesh

The key generation functions of `threshnet_aborts_p2p_demo/src/crypto_functions.cpp`, in which the
last and the first node broadcast, and their scripts.
-/

namespace P2P

open Fifo

variable {F : OpenFHE} {E α : Type}

namespace Broadcast

/-! ## The programs -/

def jointPublickeyGen (mynode : NodeImpl F) (r : F.Rand) (nodeName startNode endNode : ℕ)
    (nodes_path : NodesPath) (cc : F.CryptoContext) : NodeM F E (F.PublicKey × NodeImpl F) := do
  let keyPair ←
    if nodeName = startNode then pure (F.keyGen cc r)
    else do
      let prevPubKey ← getSerialMsgWait .publicKey "PublicKey" nodes_path.dgetfromNode
      pure (F.multipartyKeyGen cc r prevPubKey)
  let mynode := { mynode with keyPair := some keyPair }
  if nodeName ≠ endNode then
    sendSerialMsg mynode .publicKey keyPair.publicKey "PublicKey" nodes_path.dsendtoNode
  let finalPubKey ←
    if nodeName = endNode then do
      broadcastSerialMsg mynode .publicKey keyPair.publicKey "PublicKey"
      pure keyPair.publicKey
    else getSerialMsgWait .publicKey "PublicKey" endNode
  pure (finalPubKey, { mynode with finalPubKey := some finalPubKey })

def jointEvalMultkeyGen (mynode : NodeImpl F) (r : F.Rand) (nodeName startNode endNode : ℕ)
    (nodes_path : NodesPath) (cc : F.CryptoContext) :
    NodeM F E (Option F.EvalKey × NodeImpl F) := do
  let keyPair ← nonNull mynode.keyPair
  let finalPubKey ← nonNull mynode.finalPubKey
  let sk := keyPair.secretKey
  if nodeName = startNode then
    sendSerialMsg mynode .evalKey (F.keySwitchGen cc r sk sk) "evalmultkey" nodes_path.dsendtoNode
  else
    let prevevalMultKey ← getSerialMsgWait .evalKey "evalmultkey" nodes_path.dgetfromNode
    let evalMultKey := F.multiKeySwitchGen cc r sk sk prevevalMultKey
    let evalMultPrevandCurrent :=
      F.multiAddEvalKeys cc prevevalMultKey evalMultKey (F.getKeyTag keyPair.publicKey)
    if nodeName = endNode then
      let evalMultskAll :=
        F.multiMultEvalKey cc r sk evalMultPrevandCurrent (F.getKeyTag finalPubKey)
      broadcastSerialMsg mynode .evalKey evalMultPrevandCurrent "evalmultkey"
      sendSerialMsg mynode .evalKey evalMultskAll "evalmixmultkey" nodes_path.usendtoNode
    else
      sendSerialMsg mynode .evalKey evalMultPrevandCurrent "evalmultkey" nodes_path.dsendtoNode
  -- The way back, from the last node to the first.
  if nodeName ≠ endNode then
    let evalMultAll ← getSerialMsgWait .evalKey "evalmultkey" endNode
    let prevevalMixMultKey ← getSerialMsgWait .evalKey "evalmixmultkey" nodes_path.ugetfromNode
    let evalMultKeyskAll := F.multiMultEvalKey cc r sk evalMultAll (F.getKeyTag finalPubKey)
    let evalMultAddskAll :=
      F.multiAddEvalMultKeys cc evalMultKeyskAll prevevalMixMultKey (F.getKeyTag finalPubKey)
    if nodeName = startNode then
      broadcastSerialMsg mynode .evalKey evalMultAddskAll "evalmixmultkey"
      return (some evalMultAddskAll, { mynode with evalMultFinal := some evalMultAddskAll })
    else
      sendSerialMsg mynode .evalKey evalMultAddskAll "evalmixmultkey" nodes_path.usendtoNode
  let evalMultFinal ←
    if nodeName ≠ startNode then do
      let x ← getSerialMsgWait .evalKey "evalmixmultkey" startNode
      pure (some x)
    else pure none
  return (evalMultFinal, { mynode with evalMultFinal := evalMultFinal })

def jointEvalSumkeyGen (mynode : NodeImpl F) (r : F.Rand) (nodeName startNode endNode : ℕ)
    (nodes_path : NodesPath) (cc : F.CryptoContext) :
    NodeM F E (Option F.EvalSumKeys × NodeImpl F) := do
  let keyPair ← nonNull mynode.keyPair
  let sk := keyPair.secretKey
  if nodeName = startNode then
    let evalSumKeys := F.evalSumKeyGen cc r sk
    sendSerialMsg mynode .evalSumKeys evalSumKeys "evalSumKeys0" nodes_path.dsendtoNode
    sendSerialMsg mynode .evalSumKeys evalSumKeys "evalSumKeys1" nodes_path.dsendtoNode
  else
    let prevevalSumKey0 ← getSerialMsgWait .evalSumKeys "evalSumKeys0" nodes_path.dgetfromNode
    let prevevalSumKey1 ← getSerialMsgWait .evalSumKeys "evalSumKeys1" nodes_path.dgetfromNode
    let tag := F.getKeyTag keyPair.publicKey
    let evalSumKeys0 := F.multiEvalSumKeyGen cc r sk prevevalSumKey0 tag
    let evalSumKeys1 := F.multiAddEvalSumKeys cc prevevalSumKey1 evalSumKeys0 tag
    if nodeName = endNode then
      broadcastSerialMsg mynode .evalSumKeys evalSumKeys1 "evalSumKeys1"
      return (some evalSumKeys1, { mynode with evalSumFinal := some evalSumKeys1 })
    else
      sendSerialMsg mynode .evalSumKeys evalSumKeys0 "evalSumKeys0" nodes_path.dsendtoNode
      sendSerialMsg mynode .evalSumKeys evalSumKeys1 "evalSumKeys1" nodes_path.dsendtoNode
  let evalSumFinal ←
    if nodeName ≠ endNode then do
      let x ← getSerialMsgWait .evalSumKeys "evalSumKeys1" endNode
      pure (some x)
    else pure none
  return (evalSumFinal, { mynode with evalSumFinal := evalSumFinal })

/-! ## The scripts -/

section

variable (cc : F.CryptoContext) (r : ℕ → F.Rand) (N : ℕ) (peers : ℕ → List ℕ)

/-- The public keys go down the chain; the last node broadcasts the joint one. -/
def publicKeyScript (i : ℕ) : Script ℕ (MessageFormat F) E :=
  chainDown N (fun j => [publicKeyMsg cc r j]) i ++
    shift (2 * N + 2) (fromOne N (peers N) (publicKeyMsg cc r N) false i)

/-- The switching keys go down the chain; the last node broadcasts the joint one; the parts of
the final key go up the chain; the first node broadcasts the final key. -/
def evalMultScript (i : ℕ) : Script ℕ (MessageFormat F) E :=
  chainDown N (fun j => [evalMultMsg cc r j]) i ++
    shift (2 * N + 2) (fromOne N (peers N) (evalMultMsg cc r N) false i ++
      shift 2 (chainUp N (fun j => [evalMixMultMsg cc r N j]) i ++
        shift (2 * N + 2) (fromOne 1 (peers 1) (evalMixMultMsg cc r N 1) false i)))

/-- The summation keys go down the chain; the last node broadcasts the joint ones. -/
def evalSumScript (i : ℕ) : Script ℕ (MessageFormat F) E :=
  chainDown N (fun j => [evalSum0Msg cc r j, evalSum1Msg cc r j]) i ++
    shift (2 * N + 2) (fromOne N (peers N) (evalSum1Msg cc r N) false i)

end

section

variable {cc : F.CryptoContext} {r : ℕ → F.Rand} {N : ℕ} {peers : ℕ → List ℕ}

theorem publicKeyScript_phase (h : (peers N).Nodup) :
    Phase (publicKeyScript (E := E) cc r N peers) (2 * N + 2 + 2) :=
  (chainDown_phase N _).append (fromOne_phase N h _ false)

theorem evalMultScript_phase (h1 : (peers 1).Nodup) (h : (peers N).Nodup) :
    Phase (evalMultScript (E := E) cc r N peers) (2 * N + 2 + (2 + (2 * N + 2 + 2))) :=
  (chainDown_phase N _).append ((fromOne_phase N h _ false).append
    ((chainUp_phase N _).append (fromOne_phase 1 h1 _ false)))

theorem evalSumScript_phase (h : (peers N).Nodup) :
    Phase (evalSumScript (E := E) cc r N peers) (2 * N + 2 + 2) :=
  (chainDown_phase N _).append (fromOne_phase N h _ false)

variable {i : ℕ} {mynode : NodeImpl F}

/-- What a node stores in the joint public key generation. -/
theorem follows_jointPublickeyGen (hN : 1 < N) (hi : 1 ≤ i ∧ i ≤ N) (hm : FullMesh N peers)
    (hp : mynode.connectedAddresses = peers i) :
    Follows (jointPublickeyGen mynode (r i) i 1 N (nodesPath N i) cc)
      (publicKeyScript (E := E) cc r N peers i).events
      (.ret ((keyPair F cc r N).publicKey,
        { mynode with keyPair := some (keyPair F cc r i),
                      finalPubKey := some (keyPair F cc r N).publicKey })) := by
  have hc : ∀ j, j ∈ mynode.connectedAddresses ↔ 1 ≤ j ∧ j ≤ N ∧ j ≠ i := fun j => by
    rw [hp]; exact hm.mem i hi j
  unfold publicKeyScript jointPublickeyGen
  rcases role_cases hi with rfl | ⟨h1, h2⟩ | rfl
  · simp only [List.map_append, events_shift, events_chainDown_first _ hN,
      events_fromOne_leaf false ((hm.mem N ⟨hN.le, le_rfl⟩ 1).mpr ⟨le_rfl, hN.le, hN.ne⟩) hN.ne,
      hN.ne, if_true, if_false, ne_eq, not_false_eq_true, nodesPath_first, pure_bind]
    refine follows_sendSerialMsg ((hc 2).mpr (by omega)) ?_
    exact follows_getSerialMsgWait (.nil _)
  · simp only [List.map_append, events_shift, events_chainDown_mid _ h1 h2,
      events_fromOne_leaf false ((hm.mem N ⟨hN.le, le_rfl⟩ i).mpr ⟨h1.le, h2.le, h2.ne⟩) h2.ne,
      h1.ne', h2.ne, if_true, if_false, ne_eq, not_false_eq_true, nodesPath_mid h1 h2, pure_bind]
    refine follows_getSerialMsgWait ?_
    rw [← keyPair_of_lt F cc r h1]
    refine follows_sendSerialMsg ((hc _).mpr (by omega)) ?_
    exact follows_getSerialMsgWait (.nil _)
  · simp only [List.map_append, events_shift, events_chainDown_last _ hN,
      events_fromOne_root false (hm.self_notMem hi), hN.ne', if_true, if_false, ne_eq, not_true_eq_false,
      nodesPath_last hN, pure_bind]
    refine follows_getSerialMsgWait ?_
    rw [← keyPair_of_lt F cc r hN]
    rw [← hp]
    exact (follows_broadcastSerialMsg (.nil _)).congr (List.append_nil _)

theorem follows_jointEvalMultkeyGen (hN : 1 < N) (hi : 1 ≤ i ∧ i ≤ N) (hm : FullMesh N peers)
    (hp : mynode.connectedAddresses = peers i) (hk : mynode.keyPair = some (keyPair F cc r i))
    (hf : mynode.finalPubKey = some (keyPair F cc r N).publicKey) :
    Follows (jointEvalMultkeyGen mynode (r i) i 1 N (nodesPath N i) cc)
      (evalMultScript (E := E) cc r N peers i).events
      (.ret (some (evalMultAddskAll F cc r N 1),
        { mynode with evalMultFinal := some (evalMultAddskAll F cc r N 1) })) := by
  have hc : ∀ j, j ∈ mynode.connectedAddresses ↔ 1 ≤ j ∧ j ≤ N ∧ j ≠ i := fun j => by
    rw [hp]; exact hm.mem i hi j
  unfold evalMultScript jointEvalMultkeyGen
  simp only [hk, hf, nonNull_bind]
  rcases role_cases hi with rfl | ⟨h1, h2⟩ | rfl
  · simp only [List.map_append, events_shift, events_chainDown_first _ hN,
      events_fromOne_leaf false ((hm.mem N ⟨hN.le, le_rfl⟩ 1).mpr ⟨le_rfl, hN.le, hN.ne⟩) hN.ne,
      events_chainUp_first _ hN, events_fromOne_root false (hm.self_notMem hi),
      hN.ne, if_true, if_false, ne_eq, not_false_eq_true, nodesPath_first, pure_bind]
    refine follows_sendSerialMsg ((hc 2).mpr (by omega)) ?_
    refine follows_getSerialMsgWait ?_
    refine follows_getSerialMsgWait ?_
    rw [← evalMultAddskAll_of_lt F cc r hN, ← hp]
    exact (follows_broadcastSerialMsg (.nil _)).congr (List.append_nil _)
  · simp only [List.map_append, events_shift, events_chainDown_mid _ h1 h2,
      events_fromOne_leaf false ((hm.mem N ⟨hN.le, le_rfl⟩ i).mpr ⟨h1.le, h2.le, h2.ne⟩) h2.ne,
      events_chainUp_mid _ h1 h2,
      events_fromOne_leaf false ((hm.mem 1 ⟨le_rfl, hN.le⟩ i).mpr ⟨h1.le, h2.le, h1.ne'⟩) h1.ne',
      h1.ne', h2.ne, if_true, if_false, ne_eq, not_false_eq_true, nodesPath_mid h1 h2, pure_bind]
    refine follows_getSerialMsgWait ?_
    rw [← evalMultPrevandCurrent_of_lt F cc r h1]
    refine follows_sendSerialMsg ((hc _).mpr (by omega)) ?_
    refine follows_getSerialMsgWait ?_
    refine follows_getSerialMsgWait ?_
    rw [← evalMultAddskAll_of_lt F cc r h2]
    refine follows_sendSerialMsg ((hc _).mpr (by omega)) ?_
    exact follows_getSerialMsgWait (.nil _)
  · simp only [List.map_append, events_shift, events_chainDown_last _ hN,
      events_fromOne_root false (hm.self_notMem hi), events_chainUp_last _ hN,
      events_fromOne_leaf false ((hm.mem 1 ⟨le_rfl, hN.le⟩ i).mpr ⟨hN.le, le_rfl, hN.ne'⟩) hN.ne',
      hN.ne', if_true, if_false, ne_eq, not_true_eq_false, not_false_eq_true, nodesPath_last hN,
      pure_bind]
    refine follows_getSerialMsgWait ?_
    rw [← evalMultPrevandCurrent_of_lt F cc r hN, ← hp]
    refine follows_broadcastSerialMsg ?_
    rw [← evalMultAddskAll_last F cc r]
    refine follows_sendSerialMsg ((hc _).mpr (by omega)) ?_
    exact follows_getSerialMsgWait (.nil _)

theorem follows_jointEvalSumkeyGen (hN : 1 < N) (hi : 1 ≤ i ∧ i ≤ N) (hm : FullMesh N peers)
    (hp : mynode.connectedAddresses = peers i) (hk : mynode.keyPair = some (keyPair F cc r i)) :
    Follows (jointEvalSumkeyGen mynode (r i) i 1 N (nodesPath N i) cc)
      (evalSumScript (E := E) cc r N peers i).events
      (.ret (some (evalSumKeys1 F cc r N),
        { mynode with evalSumFinal := some (evalSumKeys1 F cc r N) })) := by
  have hc : ∀ j, j ∈ mynode.connectedAddresses ↔ 1 ≤ j ∧ j ≤ N ∧ j ≠ i := fun j => by
    rw [hp]; exact hm.mem i hi j
  unfold evalSumScript jointEvalSumkeyGen
  simp only [hk, nonNull_bind]
  rcases role_cases hi with rfl | ⟨h1, h2⟩ | rfl
  · simp only [List.map_append, events_shift, events_chainDown_first _ hN,
      events_fromOne_leaf false ((hm.mem N ⟨hN.le, le_rfl⟩ 1).mpr ⟨le_rfl, hN.le, hN.ne⟩) hN.ne,
      hN.ne, if_true, if_false, ne_eq, not_false_eq_true, nodesPath_first, pure_bind]
    refine follows_sendSerialMsg ((hc 2).mpr (by omega)) ?_
    refine follows_sendSerialMsg ((hc 2).mpr (by omega)) ?_
    exact follows_getSerialMsgWait (.nil _)
  · simp only [List.map_append, events_shift, events_chainDown_mid _ h1 h2,
      events_fromOne_leaf false ((hm.mem N ⟨hN.le, le_rfl⟩ i).mpr ⟨h1.le, h2.le, h2.ne⟩) h2.ne,
      h1.ne', h2.ne, if_true, if_false, ne_eq, not_false_eq_true, nodesPath_mid h1 h2, pure_bind]
    refine follows_getSerialMsgWait ?_
    refine follows_getSerialMsgWait ?_
    rw [← evalSumKeys0_of_lt F cc r h1, ← evalSumKeys1_of_lt F cc r h1]
    refine follows_sendSerialMsg ((hc _).mpr (by omega)) ?_
    refine follows_sendSerialMsg ((hc _).mpr (by omega)) ?_
    exact follows_getSerialMsgWait (.nil _)
  · simp only [List.map_append, events_shift, events_chainDown_last _ hN,
      events_fromOne_root false (hm.self_notMem hi), hN.ne', if_true, if_false,
      nodesPath_last hN]
    refine follows_getSerialMsgWait ?_
    refine follows_getSerialMsgWait ?_
    rw [← evalSumKeys0_of_lt F cc r hN, ← evalSumKeys1_of_lt F cc r hN, ← hp]
    exact (follows_broadcastSerialMsg (.nil _)).congr (List.append_nil _)

/-- Nobody but the nodes does anything. -/
theorem scripts_outside (E : Type) (cc : F.CryptoContext) (r : ℕ → F.Rand) (hm : FullMesh N peers)
    (hN : 1 < N) (hi : ¬ (1 ≤ i ∧ i ≤ N)) :
    publicKeyScript (E := E) cc r N peers i = [] ∧ evalMultScript (E := E) cc r N peers i = [] ∧
      evalSumScript (E := E) cc r N peers i = [] := by
  have h1 : i ∉ peers 1 := fun h => hi (by have := (hm.mem 1 (by omega) i).mp h; omega)
  have hN' : i ∉ peers N := fun h => hi (by have := (hm.mem N (by omega) i).mp h; omega)
  simp [publicKeyScript, evalMultScript, evalSumScript, chainDown_outside _ hi,
    chainUp_outside _ hi, fromOne_outside false h1 (by omega : i ≠ 1),
    fromOne_outside false hN' (by omega : i ≠ N)]

end

end Broadcast

end P2P

import NetworkExamples.P2P.Node

/-!
# Joint key generation on a path

The key generation functions of
`network_measure_examples/src/path_measure_crypto_functions.cpp`, in which every node talks to its
neighbours only: where the other version broadcasts, the nodes relay hop by hop.
-/

namespace P2P

open Fifo

variable {F : OpenFHE} {E α : Type}

namespace Path

/-! ## The programs -/

def jointPublickeyGen (mynode : NodeImpl F) (r : F.Rand) (nodeName startNode endNode : ℕ)
    (nodes_path : NodesPath) (cc : F.CryptoContext) : NodeM F E (F.PublicKey × NodeImpl F) := do
  let keyPair ←
    if nodeName = startNode then pure (F.keyGen cc r)
    else do
      let prevPubKey ← getSerialMsgWait .publicKey "PublicKey" nodes_path.dgetfromNode
      pure (F.multipartyKeyGen cc r prevPubKey)
  let mynode := { mynode with keyPair := some keyPair }
  if nodeName = endNode then
    sendSerialMsg mynode .publicKey keyPair.publicKey "PublicKey" nodes_path.usendtoNode
  else
    sendSerialMsg mynode .publicKey keyPair.publicKey "PublicKey" nodes_path.dsendtoNode
  let finalPubKey ←
    if nodeName ≠ endNode then do
      let x ← getSerialMsgWait .publicKey "PublicKey" nodes_path.ugetfromNode
      if nodeName ≠ startNode then
        sendSerialMsg mynode .publicKey x "PublicKey" nodes_path.usendtoNode
      pure x
    else pure keyPair.publicKey
  pure (finalPubKey, { mynode with finalPubKey := some finalPubKey })

def jointEvalMultkeyGen (mynode : NodeImpl F) (r : F.Rand) (nodeName startNode endNode : ℕ)
    (nodes_path : NodesPath) (cc : F.CryptoContext) :
    NodeM F E (Option F.EvalKey × NodeImpl F) := do
  let keyPair ← nonNull mynode.keyPair
  let finalPubKey ← nonNull mynode.finalPubKey
  let sk := keyPair.secretKey
  if nodeName = startNode then
    sendSerialMsg mynode .evalKey (F.keySwitchGen cc r sk sk) "evalmultkey" nodes_path.dsendtoNode
  else
    let prevevalMultKey ← getSerialMsgWait .evalKey "evalmultkey" nodes_path.dgetfromNode
    let evalMultKey := F.multiKeySwitchGen cc r sk sk prevevalMultKey
    let evalMultPrevandCurrent :=
      F.multiAddEvalKeys cc prevevalMultKey evalMultKey (F.getKeyTag keyPair.publicKey)
    if nodeName = endNode then
      sendSerialMsg mynode .evalKey evalMultPrevandCurrent "evalmultkey" nodes_path.usendtoNode
      let evalMultskAll :=
        F.multiMultEvalKey cc r sk evalMultPrevandCurrent (F.getKeyTag finalPubKey)
      sendSerialMsg mynode .evalKey evalMultskAll "evalmixmultkey" nodes_path.usendtoNode
    else
      sendSerialMsg mynode .evalKey evalMultPrevandCurrent "evalmultkey" nodes_path.dsendtoNode
  -- The way back, from the last node to the first.
  if nodeName ≠ endNode then
    let evalMultAll ← getSerialMsgWait .evalKey "evalmultkey" nodes_path.ugetfromNode
    if nodeName ≠ startNode then
      sendSerialMsg mynode .evalKey evalMultAll "evalmultkey" nodes_path.usendtoNode
    let prevevalMixMultKey ← getSerialMsgWait .evalKey "evalmixmultkey" nodes_path.ugetfromNode
    let evalMultKeyskAll := F.multiMultEvalKey cc r sk evalMultAll (F.getKeyTag finalPubKey)
    let evalMultAddskAll :=
      F.multiAddEvalMultKeys cc evalMultKeyskAll prevevalMixMultKey (F.getKeyTag finalPubKey)
    if nodeName = startNode then
      sendSerialMsg mynode .evalKey evalMultAddskAll "evalmixmultkey" nodes_path.dsendtoNode
      return (some evalMultAddskAll, { mynode with evalMultFinal := some evalMultAddskAll })
    else
      sendSerialMsg mynode .evalKey evalMultAddskAll "evalmixmultkey" nodes_path.usendtoNode
  let evalMultFinal ←
    if nodeName ≠ startNode then do
      let x ← getSerialMsgWait .evalKey "evalmixmultkey" nodes_path.dgetfromNode
      if nodeName ≠ endNode then
        sendSerialMsg mynode .evalKey x "evalmixmultkey" nodes_path.dsendtoNode
      pure (some x)
    else pure none
  return (evalMultFinal, { mynode with evalMultFinal := evalMultFinal })

def jointEvalSumkeyGen (mynode : NodeImpl F) (r : F.Rand) (nodeName startNode endNode : ℕ)
    (nodes_path : NodesPath) (cc : F.CryptoContext) :
    NodeM F E (Option F.EvalSumKeys × NodeImpl F) := do
  let keyPair ← nonNull mynode.keyPair
  let sk := keyPair.secretKey
  if nodeName = startNode then
    let evalSumKeys := F.evalSumKeyGen cc r sk
    sendSerialMsg mynode .evalSumKeys evalSumKeys "evalSumKeys0" nodes_path.dsendtoNode
    sendSerialMsg mynode .evalSumKeys evalSumKeys "evalSumKeys1" nodes_path.dsendtoNode
  else
    let prevevalSumKey0 ← getSerialMsgWait .evalSumKeys "evalSumKeys0" nodes_path.dgetfromNode
    let prevevalSumKey1 ← getSerialMsgWait .evalSumKeys "evalSumKeys1" nodes_path.dgetfromNode
    let tag := F.getKeyTag keyPair.publicKey
    let evalSumKeys0 := F.multiEvalSumKeyGen cc r sk prevevalSumKey0 tag
    let evalSumKeys1 := F.multiAddEvalSumKeys cc prevevalSumKey1 evalSumKeys0 tag
    if nodeName = endNode then
      sendSerialMsg mynode .evalSumKeys evalSumKeys1 "evalSumKeys1" nodes_path.usendtoNode
      -- Unlike the other version, the last node does not store the keys.
      return (some evalSumKeys1, mynode)
    else
      sendSerialMsg mynode .evalSumKeys evalSumKeys0 "evalSumKeys0" nodes_path.dsendtoNode
      sendSerialMsg mynode .evalSumKeys evalSumKeys1 "evalSumKeys1" nodes_path.dsendtoNode
  let evalSumFinal ←
    if nodeName ≠ endNode then do
      let x ← getSerialMsgWait .evalSumKeys "evalSumKeys1" nodes_path.ugetfromNode
      if nodeName ≠ startNode then
        sendSerialMsg mynode .evalSumKeys x "evalSumKeys1" nodes_path.usendtoNode
      pure (some x)
    else pure none
  return (evalSumFinal, { mynode with evalSumFinal := evalSumFinal })

/-! ## The scripts -/

section

variable (cc : F.CryptoContext) (r : ℕ → F.Rand) (N : ℕ)

/-- The public keys go down the path; the joint one is relayed up. -/
def publicKeyScript (i : ℕ) : Script ℕ (MessageFormat F) E :=
  chainDown N (fun j => [publicKeyMsg cc r j]) i ++
    shift (2 * N + 2) (chainUp N (fun _ => [publicKeyMsg cc r N]) i)

/-- The switching keys go down the path; the joint one is relayed up; the parts of the final key
go up the path; the final key is relayed down. -/
def evalMultScript (i : ℕ) : Script ℕ (MessageFormat F) E :=
  chainDown N (fun j => [evalMultMsg cc r j]) i ++
    shift (2 * N + 2) (chainUp N (fun _ => [evalMultMsg cc r N]) i ++
      shift (2 * N + 2) (chainUp N (fun j => [evalMixMultMsg cc r N j]) i ++
        shift (2 * N + 2) (chainDown N (fun _ => [evalMixMultMsg cc r N 1]) i)))

/-- The summation keys go down the path; the joint ones are relayed up. -/
def evalSumScript (i : ℕ) : Script ℕ (MessageFormat F) E :=
  chainDown N (fun j => [evalSum0Msg cc r j, evalSum1Msg cc r j]) i ++
    shift (2 * N + 2) (chainUp N (fun _ => [evalSum1Msg cc r N]) i)

end

section

variable {cc : F.CryptoContext} {r : ℕ → F.Rand} {N : ℕ}

theorem publicKeyScript_phase :
    Phase (publicKeyScript (E := E) cc r N) (2 * N + 2 + (2 * N + 2)) :=
  (chainDown_phase N _).append (chainUp_phase N _)

theorem evalMultScript_phase :
    Phase (evalMultScript (E := E) cc r N)
      (2 * N + 2 + (2 * N + 2 + (2 * N + 2 + (2 * N + 2)))) :=
  (chainDown_phase N _).append ((chainUp_phase N _).append
    ((chainUp_phase N _).append (chainDown_phase N _)))

theorem evalSumScript_phase :
    Phase (evalSumScript (E := E) cc r N) (2 * N + 2 + (2 * N + 2)) :=
  (chainDown_phase N _).append (chainUp_phase N _)

variable {i : ℕ} {mynode : NodeImpl F}

theorem follows_jointPublickeyGen (hN : 1 < N) (hi : 1 ≤ i ∧ i ≤ N)
    (hc : Neighbours N i mynode.connectedAddresses) :
    Follows (jointPublickeyGen mynode (r i) i 1 N (nodesPath N i) cc)
      (publicKeyScript (E := E) cc r N i).events
      (.ret ((keyPair F cc r N).publicKey,
        { mynode with keyPair := some (keyPair F cc r i),
                      finalPubKey := some (keyPair F cc r N).publicKey })) := by
  unfold publicKeyScript jointPublickeyGen
  rcases role_cases hi with rfl | ⟨h1, h2⟩ | rfl
  · simp only [List.map_append, events_shift, events_chainDown_first _ hN,
      events_chainUp_first _ hN, hN.ne, if_true, if_false, ne_eq, not_false_eq_true,
      not_true_eq_false, nodesPath_first, pure_bind]
    refine follows_sendSerialMsg (hc.next hN) ?_
    exact follows_getSerialMsgWait (.nil _)
  · simp only [List.map_append, events_shift, events_chainDown_mid _ h1 h2,
      events_chainUp_mid _ h1 h2, h1.ne', h2.ne, if_true, if_false, ne_eq, not_false_eq_true,
      nodesPath_mid h1 h2, pure_bind]
    refine follows_getSerialMsgWait ?_
    rw [← keyPair_of_lt F cc r h1]
    refine follows_sendSerialMsg (hc.next h2) ?_
    refine follows_getSerialMsgWait ?_
    exact follows_sendSerialMsg (hc.prev h1) (.nil _)
  · simp only [List.map_append, events_shift, events_chainDown_last _ hN,
      events_chainUp_last _ hN, hN.ne', if_true, if_false, ne_eq, not_true_eq_false,
      nodesPath_last hN, pure_bind]
    refine follows_getSerialMsgWait ?_
    rw [← keyPair_of_lt F cc r hN]
    exact follows_sendSerialMsg (hc.prev hN) (.nil _)

theorem follows_jointEvalMultkeyGen (hN : 1 < N) (hi : 1 ≤ i ∧ i ≤ N)
    (hc : Neighbours N i mynode.connectedAddresses)
    (hk : mynode.keyPair = some (keyPair F cc r i))
    (hf : mynode.finalPubKey = some (keyPair F cc r N).publicKey) :
    Follows (jointEvalMultkeyGen mynode (r i) i 1 N (nodesPath N i) cc)
      (evalMultScript (E := E) cc r N i).events
      (.ret (some (evalMultAddskAll F cc r N 1),
        { mynode with evalMultFinal := some (evalMultAddskAll F cc r N 1) })) := by
  unfold evalMultScript jointEvalMultkeyGen
  simp only [hk, hf, nonNull_bind]
  rcases role_cases hi with rfl | ⟨h1, h2⟩ | rfl
  · simp only [List.map_append, events_shift, events_chainDown_first _ hN,
      events_chainUp_first _ hN, hN.ne, if_true, if_false, ne_eq, not_false_eq_true,
      not_true_eq_false, nodesPath_first]
    refine follows_sendSerialMsg (hc.next hN) ?_
    refine follows_getSerialMsgWait ?_
    refine follows_getSerialMsgWait ?_
    rw [← evalMultAddskAll_of_lt F cc r hN]
    exact follows_sendSerialMsg (hc.next hN) (.nil _)
  · simp only [List.map_append, events_shift, events_chainDown_mid _ h1 h2,
      events_chainUp_mid _ h1 h2, h1.ne', h2.ne, if_true, if_false, ne_eq, not_false_eq_true,
      nodesPath_mid h1 h2, pure_bind]
    refine follows_getSerialMsgWait ?_
    rw [← evalMultPrevandCurrent_of_lt F cc r h1]
    refine follows_sendSerialMsg (hc.next h2) ?_
    refine follows_getSerialMsgWait ?_
    refine follows_sendSerialMsg (hc.prev h1) ?_
    refine follows_getSerialMsgWait ?_
    rw [← evalMultAddskAll_of_lt F cc r h2]
    refine follows_sendSerialMsg (hc.prev h1) ?_
    refine follows_getSerialMsgWait ?_
    exact follows_sendSerialMsg (hc.next h2) (.nil _)
  · simp only [List.map_append, events_shift, events_chainDown_last _ hN,
      events_chainUp_last _ hN, hN.ne', if_true, if_false, ne_eq, not_true_eq_false,
      not_false_eq_true, nodesPath_last hN, pure_bind]
    refine follows_getSerialMsgWait ?_
    rw [← evalMultPrevandCurrent_of_lt F cc r hN]
    refine follows_sendSerialMsg (hc.prev hN) ?_
    rw [← evalMultAddskAll_last F cc r]
    refine follows_sendSerialMsg (hc.prev hN) ?_
    exact follows_getSerialMsgWait (.nil _)

theorem follows_jointEvalSumkeyGen (hN : 1 < N) (hi : 1 ≤ i ∧ i ≤ N)
    (hc : Neighbours N i mynode.connectedAddresses)
    (hk : mynode.keyPair = some (keyPair F cc r i)) :
    Follows (jointEvalSumkeyGen mynode (r i) i 1 N (nodesPath N i) cc)
      (evalSumScript (E := E) cc r N i).events
      (.ret (some (evalSumKeys1 F cc r N),
        { mynode with evalSumFinal :=
            if i = N then mynode.evalSumFinal else some (evalSumKeys1 F cc r N) })) := by
  unfold evalSumScript jointEvalSumkeyGen
  simp only [hk, nonNull_bind]
  rcases role_cases hi with rfl | ⟨h1, h2⟩ | rfl
  · simp only [List.map_append, events_shift, events_chainDown_first _ hN,
      events_chainUp_first _ hN, hN.ne, if_true, if_false, ne_eq, not_false_eq_true,
      not_true_eq_false, nodesPath_first, pure_bind]
    refine follows_sendSerialMsg (hc.next hN) ?_
    refine follows_sendSerialMsg (hc.next hN) ?_
    exact follows_getSerialMsgWait (.nil _)
  · simp only [List.map_append, events_shift, events_chainDown_mid _ h1 h2,
      events_chainUp_mid _ h1 h2, h1.ne', h2.ne, if_true, if_false, ne_eq, not_false_eq_true,
      nodesPath_mid h1 h2, pure_bind]
    refine follows_getSerialMsgWait ?_
    refine follows_getSerialMsgWait ?_
    rw [← evalSumKeys0_of_lt F cc r h1, ← evalSumKeys1_of_lt F cc r h1]
    refine follows_sendSerialMsg (hc.next h2) ?_
    refine follows_sendSerialMsg (hc.next h2) ?_
    refine follows_getSerialMsgWait ?_
    exact follows_sendSerialMsg (hc.prev h1) (.nil _)
  · simp only [List.map_append, events_shift, events_chainDown_last _ hN,
      events_chainUp_last _ hN, hN.ne', if_true, if_false, nodesPath_last hN]
    refine follows_getSerialMsgWait ?_
    refine follows_getSerialMsgWait ?_
    rw [← evalSumKeys0_of_lt F cc r hN, ← evalSumKeys1_of_lt F cc r hN, ← hk]
    exact follows_sendSerialMsg (hc.prev hN) (.nil _)

/-- Nobody but the nodes does anything. -/
theorem scripts_outside (E : Type) (cc : F.CryptoContext) (r : ℕ → F.Rand)
    (hi : ¬ (1 ≤ i ∧ i ≤ N)) :
    publicKeyScript (E := E) cc r N i = [] ∧ evalMultScript (E := E) cc r N i = [] ∧
      evalSumScript (E := E) cc r N i = [] := by
  simp [publicKeyScript, evalMultScript, evalSumScript, chainDown_outside _ hi,
    chainUp_outside _ hi]

end

end Path

end P2P

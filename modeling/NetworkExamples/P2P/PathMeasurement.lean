import NetworkExamples.P2P.NetworkStatistics

/-!
# The runs of the measurement along a path

The network of the controller and the nodes `1, …, N` of a path. No receive looks at the type of
a message, so that everything rests on the order of the messages in each queue.

* With a controller that is made for the `N` nodes there is a script for the whole run
  (`runs`); what each process receives in it is `meant`.
* The controller of the code is made for three nodes. With any other number it waits for a public
  key from `Node3`, which sends none, and the nodes wait for it (`stuck_runs`).
* `works_iff`: the measurement works for three nodes, and for no other number.
-/

namespace P2P

open Fifo

namespace Statistics

variable {F : OpenFHE}

/-- The parameters of a run: the network map, the random tapes, and the measurements. -/
structure Setting (F : OpenFHE) where
  N : ℕ
  inputs : ℕ → List ℤ
  rand : ℕ → F.Rand
  peers : ℕ → List ℕ
  two_le : 2 ≤ N
  three_le : ∀ i, 3 ≤ (inputs i).length
  nodup_names : (peers 0).Nodup
  mem_names : ∀ j, j ∈ peers 0 ↔ 1 ≤ j ∧ j ≤ N
  neighbours : ∀ i, 1 ≤ i ∧ i ≤ N → Neighbours N i (peers i)
  mem_controller : ∀ i, 1 ≤ i ∧ i ≤ N → 0 ∈ peers i

namespace Setting

section

variable (S : Setting F)

/-- `i` is a node of the path. -/
abbrev IsNode (i : ℕ) : Prop := P2P.IsNode S.N i

/-- Process `i` at its start. -/
def start (i : ℕ) : NodeImpl F := { myNodeName := i, connectedAddresses := S.peers i }

/-- The network with a controller for `num_of_nodes` nodes. -/
def networkFor (num_of_nodes i : ℕ) : NodeM F Empty (Option F.Plaintext) :=
  if i = 0 then controller (S.start 0) (S.rand 0) num_of_nodes
  else if S.IsNode i then node (S.start i) (S.rand i) S.N i (S.inputs i)
  else .fail "no node"

/-- The network of the code. -/
def network (i : ℕ) : NodeM F Empty (Option F.Plaintext) :=
  if i = 0 then controllerMain (S.start 0) (S.rand 0)
  else if S.IsNode i then node (S.start i) (S.rand i) S.N i (S.inputs i)
  else .fail "no node"

/-! ## What the processes compute -/

def cc (_ : Setting F) : F.CryptoContext := F.genCryptoContext parameters

def finalPubKey : F.PublicKey := (keyPair F S.cc S.rand S.N).publicKey

/-- The controller's encryption of zeros. -/
def zeroCT : F.Ciphertext :=
  let vecsize := F.ringSize S.cc / 4
  F.encrypt S.cc (S.rand 0) S.finalPubKey
    (F.makeCKKSPackedPlaintext S.cc (List.replicate (vecsize + vecsize) 0))

/-- The ciphertext with the measurements of the nodes up to `i`. -/
def cipherText : ℕ → F.Ciphertext
  | 0 => S.zeroCT
  | i + 1 => (accumulate map2vector S.cc (S.inputs (i + 1)) (i + 1) (cipherText i)).getD
      (cipherText i)

def partialCT (i : ℕ) : F.Ciphertext :=
  if i = startNode then
    F.multipartyDecryptLead S.cc (S.rand i) (S.cipherText S.N) (secretKey F S.cc S.rand i)
  else F.multipartyDecryptMain S.cc (S.rand i) (S.cipherText S.N) (secretKey F S.cc S.rand i)

/-- Node `i` with its keys; the last node does not store the summation keys. -/
def readyNode (i : ℕ) : NodeImpl F :=
  { S.start i with
    keyPair := some (keyPair F S.cc S.rand i)
    finalPubKey := some S.finalPubKey
    evalMultFinal := some (evalMultAddskAll F S.cc S.rand S.N 1)
    evalSumFinal := if i = S.N then none else some (evalSumKeys1 F S.cc S.rand S.N) }

def plaintext : F.Plaintext := F.multipartyDecryptFusion S.cc ((S.peers 0).map S.partialCT)

/-! ## The messages -/

def contextMsg : MessageFormat F := ⟨"cryptocontext", Kind.cryptoContext.ser S.cc⟩

def finalPubKeyMsg : MessageFormat F := ⟨"finalpublickey", Kind.publicKey.ser S.finalPubKey⟩

def evalMultFinalMsg : MessageFormat F :=
  ⟨"evalmultfinal", Kind.evalKey.ser (evalMultAddskAll F S.cc S.rand S.N 1)⟩

def evalSumFinalMsg : MessageFormat F :=
  ⟨"evalsumfinal", Kind.evalSumKeys.ser (evalSumKeys1 F S.cc S.rand S.N)⟩

def zeroMsg : MessageFormat F := ⟨"zero ciphertext", Kind.ciphertext.ser S.zeroCT⟩

def cipherTextMsg (i : ℕ) : MessageFormat F := ⟨"ciphertext", Kind.ciphertext.ser (S.cipherText i)⟩

def partialMsg (i : ℕ) : MessageFormat F := ⟨"partialct", Kind.ciphertext.ser (S.partialCT i)⟩

/-! ## The scripts -/

/-- The evaluation keys, with their copies to the controller. -/
def keysScript (i : ℕ) : Script ℕ (MessageFormat F) Empty :=
  Path.evalMultScript S.cc S.rand S.N i ++
    shift (2 * S.N + 2 + (2 * S.N + 2 + (2 * S.N + 2 + (2 * S.N + 2))))
      (fromOne 1 [0] S.evalMultFinalMsg false i ++
        shift 2 (Path.evalSumScript S.cc S.rand S.N i ++
          shift (2 * S.N + 2 + (2 * S.N + 2)) (fromOne S.N [0] S.evalSumFinalMsg false i)))

def keysTime : ℕ :=
  2 * S.N + 2 + (2 * S.N + 2 + (2 * S.N + 2 + (2 * S.N + 2))) +
    (2 + (2 * S.N + 2 + (2 * S.N + 2) + 2))

/-- **What process `i` does**, if the controller is made for the `N` nodes. -/
def script (i : ℕ) : Script ℕ (MessageFormat F) Empty :=
  fromOne 0 (S.peers 0) S.contextMsg false i ++
    shift 2 (Path.publicKeyScript S.cc S.rand S.N i ++
      shift (2 * S.N + 2 + (2 * S.N + 2)) (fromOne S.N [0] S.finalPubKeyMsg false i ++
        shift 2 (around 0 1 S.zeroMsg S.keysTime S.keysScript i ++
          shift (1 + (S.keysTime + 1)) (chainDown S.N (fun j => [S.cipherTextMsg j]) i ++
            shift (2 * S.N + 2) (chainUp S.N (fun _ => [S.cipherTextMsg S.N]) i ++
              shift (2 * S.N + 2) (gather 0 (S.peers 0) S.partialMsg false i))))))

/-- The program of process `i` at the end of the run. -/
def stop (i : ℕ) : NodeM F Empty (Option F.Plaintext) :=
  if i = 0 then .ret (some S.plaintext)
  else if S.IsNode i then .ret none
  else .fail "no node"

end

variable {S : Setting F} {i : ℕ}

theorem zero_notMem_names : 0 ∉ S.peers 0 := by simp [S.mem_names]

theorem length_names : (S.peers 0).length = S.N := by
  have hset : (S.peers 0).toFinset = Finset.Icc 1 S.N := by
    ext j
    simp [S.mem_names]
  rw [← List.toFinset_card_of_nodup S.nodup_names, hset, Nat.card_Icc]
  omega

theorem cipherText_succ (hi : i < 4) :
    accumulate map2vector S.cc (S.inputs (i + 1)) (i + 1) (S.cipherText i) =
      some (S.cipherText (i + 1)) := by
  obtain ⟨ct, hct⟩ := accumulate_isSome (S.three_le (i + 1)) (Nat.succ_le_of_lt hi) S.cc
    (S.cipherText i)
  rw [cipherText, hct, Option.getD_some]

/-! ## The phases -/

theorem keysScript_phase : Phase S.keysScript S.keysTime :=
  Path.evalMultScript_phase.append ((fromOne_phase 1 (List.nodup_singleton 0) _ _).append
    (Path.evalSumScript_phase.append (fromOne_phase S.N (List.nodup_singleton 0) _ _)))

/-- The controller only receives the keys. -/
theorem sents_keysScript : sents (S.keysScript 0) 1 = [] := by
  have hN : S.N ≠ 0 := by have := S.two_le; omega
  obtain ⟨-, hm, hs⟩ := Path.scripts_outside Empty S.cc S.rand
    (show ¬ (1 ≤ 0 ∧ 0 ≤ S.N) by omega)
  simp [keysScript, hm, hs, fromOne, spread, hN.symm]

theorem script_phase : ∃ T, Phase S.script T :=
  ⟨_, (fromOne_phase 0 S.nodup_names _ _).append (Path.publicKeyScript_phase.append
    ((fromOne_phase S.N (List.nodup_singleton 0) _ _).append
      ((around_phase _ keysScript_phase sents_keysScript).append
        ((chainDown_phase S.N _).append ((chainUp_phase S.N _).append
          (gather_phase 0 S.nodup_names _ _))))))⟩

theorem script_outside (h0 : i ≠ 0) (hi : ¬ S.IsNode i) : S.script i = [] := by
  have hne1 : i ≠ 1 := fun h => hi (h ▸ (one_isNode S.two_le))
  have hneN : i ≠ S.N := fun h => hi (h ▸ (last_isNode S.two_le))
  have hnames : i ∉ S.peers 0 := fun h => hi ((S.mem_names i).mp h)
  obtain ⟨hp, hm, hs⟩ := Path.scripts_outside Empty S.cc S.rand hi
  simp [script, keysScript, around, hp, hm, hs, h0, hne1, chainDown_outside _ hi,
    chainUp_outside _ hi, fromOne_outside _ hnames h0, gather_outside _ _ hnames h0,
    fromOne_outside (L := [0]) _ (by simpa using h0) hne1,
    fromOne_outside (L := [0]) _ (by simpa using h0) hneN]

/-! ## The nodes follow -/

theorem registers_bind {α : Type} (h : 26 ≤ F.ringSize S.cc)
    (f : Registers → NodeM F Empty α) : (registers (F.ringSize S.cc) >>= f) = f map2vector := by
  unfold registers
  rw [initializeMap_eq h]
  rfl

theorem partialCT_of_ne (hi : i ≠ 1) : S.partialCT i =
    F.multipartyDecryptMain S.cc (S.rand i) (S.cipherText S.N) (secretKey F S.cc S.rand i) :=
  if_neg hi

variable (S) in
/-- What a node does up to its keys. -/
def keyEvents (i : ℕ) : List (Event ℕ (MessageFormat F) Empty) :=
  .got 0 (.got S.contextMsg) :: ((Path.publicKeyScript S.cc S.rand S.N i).events ++
    ((if i = S.N then [.sent 0 S.finalPubKeyMsg false] else []) ++
      ((Path.evalMultScript S.cc S.rand S.N i).events ++
        ((if i = 1 then [.sent 0 S.evalMultFinalMsg false] else []) ++
          ((Path.evalSumScript S.cc S.rand S.N i).events ++
            if i = S.N then [.sent 0 S.evalSumFinalMsg false] else [])))))

variable (S) in
/-- What a node does with its keys. -/
def measureEvents (i : ℕ) : List (Event ℕ (MessageFormat F) Empty) :=
  (if i = 1 then [.got 0 (.got S.zeroMsg)] else []) ++
    ((chainDown S.N (fun j => [S.cipherTextMsg j]) i : Script ℕ _ Empty).events ++
      ((chainUp S.N (fun _ => [S.cipherTextMsg S.N]) i : Script ℕ _ Empty).events ++
        [.sent 0 (S.partialMsg i) false]))

theorem events_script (h0 : i ≠ 0) (hi : S.IsNode i) :
    (S.script i).events = S.keyEvents i ++ S.measureEvents i := by
  have hnames : i ∈ S.peers 0 := (S.mem_names i).mpr hi
  have hone : ∀ (c : ℕ) (m : MessageFormat F), c ≠ 0 →
      (fromOne c [0] m false i : Script ℕ _ Empty).events =
        if i = c then [.sent 0 m false] else [] := by
    intro c m hc
    by_cases hic : i = c
    · subst hic
      rw [if_pos rfl, events_fromOne_root _ (by simpa using hc)]
      rfl
    · rw [if_neg hic, fromOne_outside _ (by simpa using h0) hic]
      rfl
  have hN : S.N ≠ 0 := by have := S.two_le; omega
  simp only [script, keysScript, keyEvents, measureEvents, List.map_append, events_shift,
    events_around, if_neg h0, events_fromOne_leaf _ hnames h0, events_gather_leaf _ _ hnames h0,
    hone _ _ hN, hone 1 _ Nat.one_ne_zero, List.nil_append, List.append_assoc, List.cons_append]

/-- **Every node comes to its keys.** -/
theorem follows_generateKeys (hi : S.IsNode i) :
    Follows (generateKeys (S.start i) (S.rand i) S.N i) (S.keyEvents i)
      (.ret (S.cc, S.readyNode i)) := by
  have hN : 1 < S.N := S.two_le
  have hc : Neighbours S.N i (S.start i).connectedAddresses := S.neighbours i hi
  have h0c : controllerNode ∈ (S.start i).connectedAddresses := S.mem_controller i hi
  have hname : ¬ (S.N = 0 ∨ i = 0 ∨ (S.start i).myNodeName ≠ i) := by
    have hstart : (S.start i).myNodeName = i := rfl
    rw [hstart]
    omega
  unfold generateKeys keyEvents
  refine follows_getSerialMsgWait ?_
  rw [if_neg hname]
  refine (Path.follows_jointPublickeyGen hN hi hc).bind ?_
  rcases role_cases hi with rfl | ⟨h1, h2⟩ | rfl
  · simp only [hN.ne, start, if_true, if_false, List.nil_append]
    refine (Path.follows_jointEvalMultkeyGen hN hi (by exact hc) (by rfl) (by rfl)).bind ?_
    simp only [nonNull_bind]
    refine follows_sendSerialMsg (by exact h0c) ?_
    refine (Path.follows_jointEvalSumkeyGen hN hi (by exact hc) (by rfl)).bind ?_
    simp only [nonNull_bind]
    exact .nil _
  · simp only [h1.ne', h2.ne, start, if_false, List.nil_append]
    refine (Path.follows_jointEvalMultkeyGen hN hi (by exact hc) (by rfl) (by rfl)).bind ?_
    simp only [nonNull_bind]
    refine (Path.follows_jointEvalSumkeyGen hN hi (by exact hc) (by rfl)).bind ?_
    simp only [nonNull_bind]
    exact .nil _
  · simp only [hN.ne', start, if_true, if_false, List.nil_append]
    refine follows_sendSerialMsg (by exact h0c) ?_
    refine (Path.follows_jointEvalMultkeyGen hN hi (by exact hc) (by rfl) (by rfl)).bind ?_
    simp only [nonNull_bind]
    refine (Path.follows_jointEvalSumkeyGen hN hi (by exact hc) (by rfl)).bind ?_
    simp only [nonNull_bind, readyNode, start, if_true]
    exact follows_sendSerialMsg (by exact h0c) (.nil _)

/-- **Every node measures.** -/
theorem follows_measure (hring : 26 ≤ F.ringSize S.cc) (hN4 : S.N ≤ 4) (hi : S.IsNode i) :
    Follows (measure (S.readyNode i) (S.rand i) S.N i (S.inputs i) S.cc) (S.measureEvents i)
      (.ret none) := by
  have hN : 1 < S.N := S.two_le
  have hc : Neighbours S.N i (S.readyNode i).connectedAddresses := S.neighbours i hi
  have h0c : controllerNode ∈ (S.readyNode i).connectedAddresses := S.mem_controller i hi
  have hname : (S.readyNode i).myNodeName = i := rfl
  have hkey : (S.readyNode i).keyPair = some (keyPair F S.cc S.rand i) := rfl
  have hacc : accumulate map2vector S.cc (S.inputs i) i (S.cipherText (i - 1)) =
      some (S.cipherText i) := by
    have h := cipherText_succ (S := S) (i := i - 1) (by omega)
    rwa [Nat.sub_add_cancel hi.1] at h
  unfold measure measureEvents
  rw [hname, hkey]
  rcases role_cases hi with rfl | ⟨h1, h2⟩ | rfl
  · simp only [events_chainDown_first _ hN, events_chainUp_first _ hN, hN.ne, nodesPath_first,
      if_true, if_false, ne_eq, not_true_eq_false, not_false_eq_true, nonNull_bind]
    refine follows_getSerialMsgWait ?_
    rw [registers_bind hring, show accumulate map2vector S.cc (S.inputs 1) 1 S.zeroCT = _ from hacc]
    simp only [nonNull_bind, pure_bind]
    refine follows_sendSerialMsg (hc.next hN) ?_
    refine follows_getSerialMsgWait ?_
    exact follows_sendSerialMsg h0c (.nil _)
  · simp only [events_chainDown_mid _ h1 h2, events_chainUp_mid _ h1 h2, h1.ne', h2.ne,
      nodesPath_mid h1 h2, if_true, if_false, ne_eq, not_false_eq_true, nonNull_bind,
      List.nil_append]
    refine follows_getSerialMsgWait ?_
    simp only [registers_bind hring, hacc, nonNull_bind, pure_bind]
    refine follows_sendSerialMsg (hc.next h2) ?_
    refine follows_getSerialMsgWait ?_
    refine follows_sendSerialMsg (hc.prev h1) ?_
    rw [partialMsg, partialCT_of_ne h1.ne']
    exact follows_sendSerialMsg h0c (.nil _)
  · simp only [events_chainDown_last _ hN, events_chainUp_last _ hN, hN.ne', nodesPath_last hN,
      if_true, if_false, ne_eq, not_true_eq_false, not_false_eq_true, nonNull_bind,
      List.nil_append]
    refine follows_getSerialMsgWait ?_
    simp only [registers_bind hring, hacc, nonNull_bind, pure_bind]
    refine follows_sendSerialMsg (hc.prev hN) ?_
    rw [partialMsg, partialCT_of_ne hN.ne']
    exact follows_sendSerialMsg h0c (.nil _)

/-- **Every node follows its script.** -/
theorem follows_node (hring : 26 ≤ F.ringSize S.cc) (hN4 : S.N ≤ 4) (h0 : i ≠ 0)
    (hi : S.IsNode i) :
    Follows (node (S.start i) (S.rand i) S.N i (S.inputs i)) (S.script i).events (.ret none) := by
  rw [events_script h0 hi]
  exact (follows_generateKeys hi).bind (follows_measure hring hN4 hi)

/-! ## The controller follows -/

theorem follows_partials :
    Follows ((S.peers 0).zipIdx.foldlM (fun vec x => do
        let nodePartialCT ← getSerialMsgWait .ciphertext "partialct" x.1
        pure (vec.set x.2 (some nodePartialCT))) (List.replicate S.N none) :
          NodeM F Empty (List (Option F.Ciphertext)))
      ((S.peers 0).map fun j => .got j (.got (S.partialMsg j)))
      (.ret (((S.peers 0).map S.partialCT).map some)) := by
  have hfold := Lists.foldl_set_zipIdx S.partialCT (S.peers 0) 0 [] rfl
  rw [length_names, List.nil_append, List.nil_append] at hfold
  have hev : ((S.peers 0).map fun j => Event.got j (.got (S.partialMsg j))) =
      ((S.peers 0).zipIdx.flatMap fun x =>
        [(.got x.1 (.got (S.partialMsg x.1)) : Event ℕ (MessageFormat F) Empty)]) := by
    rw [← List.map_eq_flatMap]
    nth_rewrite 1 [← List.zipIdx_map_fst 0 (S.peers 0)]
    rw [List.map_map]
    rfl
  rw [hev, List.map_map, Function.comp_def, ← hfold]
  refine Follows.foldlM (fun x _ vec => ?_) _
  exact follows_getSerialMsgWait (.nil _)

/-- The events of the controller. -/
theorem events_script_controller :
    (S.script 0).events =
      ((S.peers 0).map fun d => .sent d S.contextMsg false) ++
        (.got S.N (.got S.finalPubKeyMsg) :: .sent 1 S.zeroMsg false ::
          .got 1 (.got S.evalMultFinalMsg) :: .got S.N (.got S.evalSumFinalMsg) ::
            (S.peers 0).map fun j => .got j (.got (S.partialMsg j))) := by
  have hN : 0 ≠ S.N := by have := S.two_le; omega
  have h0 : ¬ S.IsNode 0 := by omega
  obtain ⟨hp, hm, hs⟩ := Path.scripts_outside Empty S.cc S.rand h0
  simp only [script, keysScript, List.map_append, events_shift, events_around, if_true,
    hp, hm, hs, chainDown_outside _ h0, chainUp_outside _ h0,
    events_fromOne_root _ (zero_notMem_names (S := S)),
    events_gather_root _ _ (zero_notMem_names (S := S)),
    events_fromOne_leaf _ (List.mem_singleton_self 0) hN,
    events_fromOne_leaf _ (List.mem_singleton_self 0) Nat.zero_ne_one, List.nil_append,
    Nat.zero_ne_one, if_false, List.append_nil, List.cons_append]

/-- **A controller for the `N` nodes follows its script.** -/
theorem follows_controller (hring : 26 ≤ F.ringSize S.cc) :
    Follows (controller (S.start 0) (S.rand 0) S.N) (S.script 0).events
      (.ret (some S.plaintext)) := by
  rw [events_script_controller]
  unfold controller
  rw [List.map_eq_flatMap]
  refine Follows.bind (Follows.foldlM (g := fun _ _ => ()) (fun j hj _ => ?_) ()) ?_
  · rw [← bind_pure (sendSerialMsg _ _ _ _ _ _)]
    exact follows_sendSerialMsg hj (.nil _)
  refine follows_getSerialMsgWait ?_
  rw [show F.ringSize (F.genCryptoContext parameters) = F.ringSize S.cc from rfl]
  simp only [registers_bind hring]
  refine follows_sendSerialMsg ((S.mem_names 1).mpr (one_isNode S.two_le)) ?_
  refine follows_getSerialMsgWait ?_
  refine follows_getSerialMsgWait ?_
  rw [← List.append_nil (List.map _ _)]
  refine follows_partials.bind ?_
  rw [mapM_nonNull]
  exact .nil _

/-- **The run with a controller for the `N` nodes**: at most four, or the registers are too
small. -/
theorem runs (hring : 26 ≤ F.ringSize S.cc) (hN4 : S.N ≤ 4) :
    Plan.Runs ⟨S.script, S.stop, fun _ _ => none⟩ (Finset.Icc 0 S.N) (S.networkFor S.N) := by
  obtain ⟨T, hT⟩ := S.script_phase
  refine hT.runs (fun i => ?_) (fun i => ?_) fun i hi => ?_
  · unfold networkFor stop
    by_cases h0 : i = 0
    · subst h0
      exact follows_controller hring
    · rw [if_neg h0, if_neg h0]
      by_cases hi : S.IsNode i
      · rw [if_pos hi, if_pos hi]
        exact follows_node hring hN4 h0 hi
      · rw [if_neg hi, if_neg hi, script_outside h0 hi]
        exact .nil _
  · unfold stop
    split
    · rfl
    · split <;> rfl
  · rw [Finset.mem_Icc] at hi
    exact script_outside (by omega) (by omega)

/-! ## A controller for another number of nodes -/

variable (S) in
/-- What process `i` does, if the controller is made for another number of nodes. -/
def stuckScript (i : ℕ) : Script ℕ (MessageFormat F) Empty :=
  fromOne 0 (S.peers 0) S.contextMsg false i ++
    shift 2 (Path.publicKeyScript S.cc S.rand S.N i ++
      shift (2 * S.N + 2 + (2 * S.N + 2)) (sendOne S.N 0 S.finalPubKeyMsg i ++
        shift 1 (Path.evalMultScript S.cc S.rand S.N i ++
          shift (2 * S.N + 2 + (2 * S.N + 2 + (2 * S.N + 2 + (2 * S.N + 2))))
            (sendOne 1 0 S.evalMultFinalMsg i ++
              shift 1 (Path.evalSumScript S.cc S.rand S.N i ++
                shift (2 * S.N + 2 + (2 * S.N + 2)) (sendOne S.N 0 S.evalSumFinalMsg i))))))

/-- The controller receives nothing of the context and of the keys of the nodes. -/
theorem controller_takes (a : ℕ) :
    takes (fromOne 0 (S.peers 0) S.contextMsg false 0 : Script ℕ _ Empty) a = [] ∧
      Path.publicKeyScript (E := Empty) S.cc S.rand S.N 0 = [] ∧
      Path.evalMultScript (E := Empty) S.cc S.rand S.N 0 = [] ∧
      Path.evalSumScript (E := Empty) S.cc S.rand S.N 0 = [] := by
  refine ⟨?_, Path.scripts_outside _ _ _ (by omega)⟩
  simp [fromOne, spread, zero_notMem_names]

theorem stuckScript_phase : ∃ T, OpenPhase (· = 0) S.stuckScript T := by
  have h := fun a => controller_takes (S := S) a
  refine ⟨_, ((fromOne_phase 0 S.nodup_names _ _).isOpen ?_).append
    ((Path.publicKeyScript_phase.isOpen ?_).append ((sendOne_open (B := (· = 0)) rfl _).append
      ((Path.evalMultScript_phase.isOpen ?_).append ((sendOne_open (B := (· = 0)) rfl _).append
        ((Path.evalSumScript_phase.isOpen ?_).append (sendOne_open (B := (· = 0)) rfl _))))))⟩
  · rintro a b rfl; exact (h a).1
  · rintro a b rfl; rw [(h a).2.1]; rfl
  · rintro a b rfl; rw [(h a).2.2.1]; rfl
  · rintro a b rfl; rw [(h a).2.2.2]; rfl

theorem stuckScript_outside (h0 : i ≠ 0) (hi : ¬ S.IsNode i) : S.stuckScript i = [] := by
  have hne1 : i ≠ 1 := fun h => hi (h ▸ (one_isNode S.two_le))
  have hneN : i ≠ S.N := fun h => hi (h ▸ (last_isNode S.two_le))
  have hnames : i ∉ S.peers 0 := fun h => hi ((S.mem_names i).mp h)
  obtain ⟨hp, hm, hs⟩ := Path.scripts_outside Empty S.cc S.rand hi
  simp [stuckScript, sendOne, hp, hm, hs, hne1, hneN, fromOne_outside _ hnames h0]

/-- Only the first and the last node send anything to the controller. -/
theorem sents_stuckScript {M : ℕ} (h1 : M ≠ 1) (hN : M ≠ S.N) : sents (S.stuckScript M) 0 = [] := by
  obtain ⟨hc, hp, hm, hs⟩ := controller_takes (S := S) M
  have hone : ∀ (c : ℕ) (m : MessageFormat F), M ≠ c →
      (sendOne c 0 m M : Script ℕ _ Empty) = [] := fun c m hne => if_neg hne
  simp only [stuckScript, sents_append, sents_shift, hone _ _ h1, hone _ _ hN,
    (fromOne_phase 0 S.nodup_names _ _).sents_eq_nil hc,
    Path.publicKeyScript_phase.sents_eq_nil (a := M) (b := 0) (by rw [hp]; rfl),
    Path.evalMultScript_phase.sents_eq_nil (a := M) (b := 0) (by rw [hm]; rfl),
    Path.evalSumScript_phase.sents_eq_nil (a := M) (b := 0) (by rw [hs]; rfl)]
  rfl

theorem events_stuckScript (h0 : i ≠ 0) (hi : S.IsNode i) :
    (S.stuckScript i).events = S.keyEvents i := by
  have hnames : i ∈ S.peers 0 := (S.mem_names i).mpr hi
  have hone : ∀ (c : ℕ) (m : MessageFormat F), (sendOne c 0 m i : Script ℕ _ Empty).events =
      if i = c then [.sent 0 m false] else [] := by
    intro c m
    unfold sendOne
    split <;> rfl
  simp only [stuckScript, keyEvents, List.map_append, events_shift,
    events_fromOne_leaf _ hnames h0, hone, List.cons_append, List.nil_append]

/-- A node waits for a ciphertext. -/
theorem waits_measure :
    (measure (S.readyNode i) (S.rand i) S.N i (S.inputs i) S.cc).Waits := by
  unfold measure
  by_cases h : (S.readyNode i).myNodeName ≠ startNode
  · simp only [if_pos h]
    exact waits_getSerialMsgWait _
  · simp only [if_neg h]
    exact waits_getSerialMsgWait _

/-- The controller waits for a public key of node `M`. -/
theorem follows_controller_stuck (M : ℕ) :
    ∃ sel k, Follows (controller (S.start 0) (S.rand 0) M) (S.stuckScript 0).events
      (.recv M sel false k) := by
  have hN : ¬ 0 = S.N := by have := S.two_le; omega
  obtain ⟨-, hp, hm, hs⟩ := controller_takes (S := S) 0
  have hev : (S.stuckScript 0).events = ((S.peers 0).map fun d => .sent d S.contextMsg false) := by
    simp only [stuckScript, hp, hm, hs, sendOne, hN, if_false, Nat.zero_ne_one, shift_nil,
      List.append_nil, events_fromOne_root _ (zero_notMem_names (S := S))]
  rw [hev, List.map_eq_flatMap, ← List.append_nil (List.flatMap _ _)]
  unfold controller
  refine ⟨_, _, Follows.bind (Follows.foldlM (g := fun _ _ => ()) (fun j hj _ => ?_) ()) (.nil _)⟩
  rw [← bind_pure (sendSerialMsg _ _ _ _ _ _)]
  exact follows_sendSerialMsg hj (.nil _)

/-- **The run with a controller for another number of nodes**: after the keys every process waits
for ever. -/
theorem stuck_runs {M : ℕ} (h1 : M ≠ 1) (hN : M ≠ S.N) :
    ∃ stop left, (stop 0).Waits ∧
      Plan.Runs ⟨S.stuckScript, stop, left⟩ (Finset.Icc 0 S.N) (S.networkFor M) := by
  obtain ⟨T, hT⟩ := S.stuckScript_phase
  obtain ⟨sel, k, hctl⟩ := follows_controller_stuck (S := S) M
  refine ⟨fun i => if i = 0 then .recv M sel false k else if S.IsNode i then
    measure (S.readyNode i) (S.rand i) S.N i (S.inputs i) S.cc else .fail "no node", _,
    ⟨M, sel, k, rfl⟩, hT.runs (fun i => ?_) ?_ (fun i => ?_) fun i hi => ?_⟩
  · unfold networkFor
    by_cases h0 : i = 0
    · subst h0
      exact hctl
    · rw [if_neg h0, if_neg h0]
      by_cases hi : S.IsNode i
      · rw [if_pos hi, if_pos hi, events_stuckScript h0 hi, ← List.append_nil (S.keyEvents i)]
        exact (follows_generateKeys hi).bind (.nil _)
      · rw [if_neg hi, if_neg hi, stuckScript_outside h0 hi]
        exact .nil _
  · rintro b rfl
    rfl
  · by_cases h0 : i = 0
    · subst h0
      exact .inr ⟨M, sel, k, rfl, fun _ => sents_stuckScript h1 hN⟩
    · rw [if_neg h0]
      by_cases hi : S.IsNode i
      · obtain ⟨a, sel, k, h⟩ := waits_measure (S := S) (i := i)
        rw [if_pos hi]
        exact .inr ⟨a, sel, k, h, fun h => absurd h h0⟩
      · rw [if_neg hi]
        exact .inl rfl
  · rw [Finset.mem_Icc] at hi
    exact stuckScript_outside (by omega) (by omega)

end Setting

end Statistics

end P2P

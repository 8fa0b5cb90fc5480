import NetworkExamples.P2P.CryptoFunctions
import NetworkExamples.P2P.PathCryptoFunctions

/-!
# The joint key generations as a network

The `N` nodes run the three key generations in a row, in either version of the code. In every
interleaving all nodes return the keys `jointKeys`, and the run can always be finished.

The nodes also store the keys (`stores_iff`): all three on every node, but for the summation keys on
the last node of a path.
-/

namespace P2P

open Fifo

variable {F : OpenFHE}

/-- The two versions of the key generation functions. -/
inductive Version where
  | broadcast
  | path

namespace Version

/-- The three key generations of a node, in the order of `main`. -/
def keyGen {E : Type} (v : Version) (mynode : NodeImpl F) (r : F.Rand) (node_id N : ℕ)
    (cc : F.CryptoContext) : NodeM F E (JointKeys F × NodeImpl F) :=
  match v with
  | .broadcast => do
    let (pk, mynode) ← Broadcast.jointPublickeyGen mynode r node_id 1 N (nodesPath N node_id) cc
    let (mult, mynode) ←
      Broadcast.jointEvalMultkeyGen mynode r node_id 1 N (nodesPath N node_id) cc
    let (sum, mynode) ← Broadcast.jointEvalSumkeyGen mynode r node_id 1 N (nodesPath N node_id) cc
    pure (⟨pk, mult, sum⟩, mynode)
  | .path => do
    let (pk, mynode) ← Path.jointPublickeyGen mynode r node_id 1 N (nodesPath N node_id) cc
    let (mult, mynode) ← Path.jointEvalMultkeyGen mynode r node_id 1 N (nodesPath N node_id) cc
    let (sum, mynode) ← Path.jointEvalSumkeyGen mynode r node_id 1 N (nodesPath N node_id) cc
    pure (⟨pk, mult, sum⟩, mynode)

/-- The network map that the version needs. -/
def Connected : Version → ℕ → (ℕ → List ℕ) → Prop
  | .broadcast, N, peers => FullMesh N peers
  | .path, N, peers => ∀ i, 1 ≤ i ∧ i ≤ N → Neighbours N i (peers i)

/-- The network of the nodes `1, …, N`. -/
def network (v : Version) (cc : F.CryptoContext) (r : ℕ → F.Rand) (N : ℕ) (peers : ℕ → List ℕ)
    (i : ℕ) : NodeM F Empty (JointKeys F × NodeImpl F) :=
  if 1 ≤ i ∧ i ≤ N then v.keyGen { myNodeName := i, connectedAddresses := peers i } (r i) i N cc
  else .fail "no node"

end Version

section

variable (cc : F.CryptoContext) (r : ℕ → F.Rand) (N : ℕ)

/-- The scripts of the three key generations in a row. -/
def Version.script {E : Type} (v : Version) (peers : ℕ → List ℕ) (i : ℕ) :
    Script ℕ (MessageFormat F) E :=
  match v with
  | .broadcast => Broadcast.publicKeyScript cc r N peers i ++
      shift (2 * N + 2 + 2) (Broadcast.evalMultScript cc r N peers i ++
        shift (2 * N + 2 + (2 + (2 * N + 2 + 2))) (Broadcast.evalSumScript cc r N peers i))
  | .path => Path.publicKeyScript cc r N i ++
      shift (2 * N + 2 + (2 * N + 2)) (Path.evalMultScript cc r N i ++
        shift (2 * N + 2 + (2 * N + 2 + (2 * N + 2 + (2 * N + 2)))) (Path.evalSumScript cc r N i))

/-- Node `i` after the three key generations. On a path the last node does not store the
summation keys. -/
def Version.finalNode (v : Version) (mynode : NodeImpl F) (i : ℕ) : NodeImpl F :=
  { mynode with
    keyPair := some (keyPair F cc r i)
    finalPubKey := some (jointKeys F cc r N).finalPubKey
    evalMultFinal := (jointKeys F cc r N).evalMultFinal
    evalSumFinal :=
      match v with
      | .broadcast => (jointKeys F cc r N).evalSumFinal
      | .path => if i = N then mynode.evalSumFinal else (jointKeys F cc r N).evalSumFinal }

end

section

variable {cc : F.CryptoContext} {r : ℕ → F.Rand} {N : ℕ} {peers : ℕ → List ℕ} {E : Type}

theorem Version.script_phase (v : Version) (E : Type) (cc : F.CryptoContext) (r : ℕ → F.Rand)
    (hN : 1 < N) (hc : v.Connected N peers) :
    ∃ T, Phase (v.script (E := E) cc r N peers) T := by
  cases v with
  | broadcast =>
    have h1 := FullMesh.nodup hc 1 (by omega)
    have h := FullMesh.nodup hc N (by omega)
    exact ⟨_, (Broadcast.publicKeyScript_phase h).append
      ((Broadcast.evalMultScript_phase h1 h).append (Broadcast.evalSumScript_phase h))⟩
  | path =>
    exact ⟨_, Path.publicKeyScript_phase.append
      (Path.evalMultScript_phase.append Path.evalSumScript_phase)⟩

/-- **A node's three key generations follow its script** and end with the joint keys. -/
theorem Version.follows_keyGen (v : Version) {i : ℕ} (hN : 1 < N) (hi : 1 ≤ i ∧ i ≤ N)
    (hc : v.Connected N peers) {mynode : NodeImpl F} (hp : mynode.connectedAddresses = peers i) :
    Follows (v.keyGen mynode (r i) i N cc) (v.script (E := E) cc r N peers i).events
      (.ret (jointKeys F cc r N, v.finalNode cc r N mynode i)) := by
  cases v with
  | broadcast =>
    simp only [script, List.map_append, events_shift]
    refine (Broadcast.follows_jointPublickeyGen hN hi hc hp).bind ?_
    refine (Broadcast.follows_jointEvalMultkeyGen hN hi hc (by exact hp) (by rfl)
      (by rfl)).bind ?_
    exact ((Broadcast.follows_jointEvalSumkeyGen hN hi hc (by exact hp) (by rfl)).bind (.nil _)).congr
      (List.append_nil _)
  | path =>
    have hn : Neighbours N i mynode.connectedAddresses := by rw [hp]; exact hc i hi
    simp only [script, List.map_append, events_shift]
    refine (Path.follows_jointPublickeyGen hN hi hn).bind ?_
    refine (Path.follows_jointEvalMultkeyGen hN hi (by exact hn) (by rfl) (by rfl)).bind ?_
    exact ((Path.follows_jointEvalSumkeyGen hN hi (by exact hn) (by rfl)).bind (.nil _)).congr
      (List.append_nil _)

theorem Version.script_outside (v : Version) {i : ℕ} (hN : 1 < N) (hc : v.Connected N peers)
    (hi : ¬ (1 ≤ i ∧ i ≤ N)) : v.script (E := E) cc r N peers i = [] := by
  cases v with
  | broadcast =>
    obtain ⟨h1, h2, h3⟩ := Broadcast.scripts_outside E cc r hc hN hi
    simp [script, h1, h2, h3]
  | path =>
    obtain ⟨h1, h2, h3⟩ := Path.scripts_outside E cc r hi
    simp [script, h1, h2, h3]

/-- The programs at the ends of the scripts. -/
def Version.stop (v : Version) (cc : F.CryptoContext) (r : ℕ → F.Rand) (N : ℕ)
    (peers : ℕ → List ℕ) (i : ℕ) : NodeM F Empty (JointKeys F × NodeImpl F) :=
  if 1 ≤ i ∧ i ≤ N then
    .ret (jointKeys F cc r N,
      v.finalNode cc r N { myNodeName := i, connectedAddresses := peers i } i)
  else .fail "no node"

/-- **The network of the key generations runs by its scripts.** -/
theorem Version.runs (v : Version) (cc : F.CryptoContext) (r : ℕ → F.Rand) (hN : 1 < N)
    (hc : v.Connected N peers) :
    Plan.Runs ⟨v.script cc r N peers, v.stop cc r N peers, fun _ _ => none⟩ (Finset.Icc 1 N)
      (v.network cc r N peers) := by
  obtain ⟨T, hT⟩ := v.script_phase Empty cc r hN hc
  refine hT.runs (fun i => ?_) (fun i => ?_) fun i hi => ?_
  · unfold network stop
    split
    · next hi => exact v.follows_keyGen hN hi hc rfl
    · next hi =>
      rw [v.script_outside hN hc hi]
      exact .nil _
  · unfold stop
    split <;> rfl
  · exact v.script_outside hN hc (by simpa using hi)

/-- A node that has returned is at the end of its script. -/
theorem Version.eq_of_returned (v : Version) (hN : 1 < N) (hc : v.Connected N peers)
    {s : Net ℕ (MessageFormat F) Empty (JointKeys F × NodeImpl F)}
    (hs : Net.Reach false (Net.init (v.network cc r N peers)) s) {i : ℕ}
    {x : JointKeys F × NodeImpl F} (hx : s.prog i = .ret x) :
    x = (jointKeys F cc r N,
      v.finalNode cc r N { myNodeName := i, connectedAddresses := peers i } i) := by
  have hr := v.runs cc r hN hc
  have hp := hr.prog_eq_stop hs (hr.hist_eq_of_halted hs (i := i) (by rw [hx]; rfl))
  rw [hx] at hp
  simp only [stop] at hp
  split at hp
  · cases hp; rfl
  · cases hp

/-- Every run can be continued until all nodes have returned. -/
theorem Version.completes (v : Version) (hN : 1 < N) (hc : v.Connected N peers)
    {s : Net ℕ (MessageFormat F) Empty (JointKeys F × NodeImpl F)}
    (hs : Net.Reach false (Net.init (v.network cc r N peers)) s) :
    ∃ s', Net.Reach false s s' ∧ ∀ i, 1 ≤ i ∧ i ≤ N → ∃ x, s'.prog i = .ret x := by
  obtain ⟨s', hs', -, hp, -⟩ := (v.runs cc r hN hc).completes hs
  refine ⟨s', hs', fun i hi => ?_⟩
  have hi' := hp i
  simp only [stop, if_pos hi] at hi'
  exact ⟨_, hi'⟩

/-- **Joint key generation composes every node exactly once**, in both versions with the same
keys: every node that returns, in whatever interleaving, returns the joint keys of all secret
keys, and every run can be continued until all nodes have returned. -/
theorem jointKeyGen_agree (L : F.Additive cc) (hN : 2 ≤ N) :
    ∃ (K : JointKeys F) (sk : ℕ → F.SecretKey), K.IsJoint L N r sk ∧
      ∀ (v : Version) (peers : ℕ → List ℕ), v.Connected N peers →
        ∀ s, Net.Reach false (Net.init (v.network cc r N peers)) s →
          (∀ i x, s.prog i = .ret x →
            x.1 = K ∧ x.2.keyPair.map KeyPair.secretKey = some (sk i)) ∧
          ∃ s', Net.Reach false s s' ∧ ∀ i, 1 ≤ i ∧ i ≤ N → ∃ x, s'.prog i = .ret x := by
  refine ⟨jointKeys F cc r N, secretKey F cc r, isJoint L r (by omega), fun v peers hc s hs => ?_⟩
  refine ⟨fun i x hx => ?_, v.completes hN hc hs⟩
  rw [v.eq_of_returned hN hc hs hx]
  exact ⟨rfl, rfl⟩

theorem neighbours_others {i N : ℕ} (hi : i ≤ N) : Neighbours N i (others N i) :=
  ⟨fun h => mem_others.mpr (by omega), fun h => mem_others.mpr (by omega)⟩

theorem jointKeyGen_agree_three : ∃ K : JointKeys OpenFHE.ideal, ∀ v : Version,
    ∃ s, Net.Reach false (Net.init (v.network (F := OpenFHE.ideal) (.ckksrns 1 50)
      (fun i => (i : ℤ)) 3 (others 3))) s ∧
      ∀ i, 1 ≤ i ∧ i ≤ 3 → ∃ x, s.prog i = .ret x ∧ x.1 = K := by
  obtain ⟨K, sk, -, h⟩ := jointKeyGen_agree (r := fun i => (i : ℤ))
    (OpenFHE.idealAdditive (.ckksrns 1 50)) (N := 3) (by decide)
  refine ⟨K, fun v => ?_⟩
  have hv : v.Connected 3 (others 3) := by
    cases v with
    | broadcast => exact fullMesh_others 3
    | path => exact fun _ hi => neighbours_others hi.2
  obtain ⟨-, s, hs, hp⟩ := h v _ hv _ .refl
  refine ⟨s, hs, fun i hi => ?_⟩
  obtain ⟨x, hx⟩ := hp i hi
  exact ⟨x, hx, ((h v _ hv s hs).1 i x hx).1⟩

/-! ## The stored keys -/

/-- When the three functions have returned on node `i`, the node holds the keys that they returned;
and every run can be continued until they have. -/
def Version.Stores (v : Version) (cc : F.CryptoContext) (r : ℕ → F.Rand) (N : ℕ)
    (peers : ℕ → List ℕ) (i : ℕ) : Prop :=
  ∀ s, Net.Reach false (Net.init (v.network cc r N peers)) s →
    (∀ x, s.prog i = .ret x → x.2.finalPubKey = some x.1.finalPubKey ∧
      x.2.evalMultFinal = x.1.evalMultFinal ∧ x.2.evalSumFinal = x.1.evalSumFinal) ∧
    ∃ s', Net.Reach false s s' ∧ ∃ x, s'.prog i = .ret x

/-- The last node of a path returns the summation keys before it stores them. -/
theorem not_stores_last (hN : 2 ≤ N) (hc : Version.path.Connected N peers) :
    ¬ Version.path.Stores cc r N peers N := by
  intro h
  obtain ⟨s, hs, hret⟩ := Version.completes .path hN hc .refl
  obtain ⟨x, hx⟩ := hret N ⟨by omega, le_rfl⟩
  have hsum := ((h s hs).1 x hx).2.2
  rw [Version.eq_of_returned .path hN hc hs hx] at hsum
  simp [Version.finalNode, jointKeys] at hsum

/-- **Every node stores the keys that it returns**, but for the last node of a path. -/
theorem stores_iff (v : Version) (hN : 2 ≤ N) (hc : v.Connected N peers) {i : ℕ}
    (hi : 1 ≤ i ∧ i ≤ N) : v.Stores cc r N peers i ↔ (v = .path → i ≠ N) := by
  constructor
  · rintro h rfl rfl
    exact not_stores_last hN hc h
  · intro hv s hs
    refine ⟨fun x hx => ?_, ?_⟩
    · rw [v.eq_of_returned hN hc hs hx]
      refine ⟨rfl, rfl, ?_⟩
      cases v with
      | broadcast => rfl
      | path => simp [Version.finalNode, hv rfl]
    · obtain ⟨s', hs', hret⟩ := v.completes hN hc hs
      exact ⟨s', hs', hret i hi⟩

/-- The first of two nodes stores its keys. -/
theorem stores_two : 2 ≤ 2 ∧ Version.path.Connected 2 (others 2) ∧ (1 ≤ 1 ∧ 1 ≤ 2) ∧
    Version.path.Stores (F := OpenFHE.ideal) (.ckksrns 1 50) (fun i => (i : ℤ)) 2 (others 2) 1 := by
  have hc : Version.path.Connected 2 (others 2) := fun _ hi => neighbours_others hi.2
  exact ⟨le_rfl, hc, by decide, (stores_iff .path le_rfl hc (by decide)).mpr fun _ => by decide⟩

/-- The second one does not. -/
theorem not_stores : ¬ ∀ i, 1 ≤ i ∧ i ≤ 2 →
    Version.path.Stores (F := OpenFHE.ideal) (.ckksrns 1 50) (fun i => (i : ℤ)) 2 (others 2) i :=
  fun h => not_stores_last le_rfl (fun _ hi => neighbours_others hi.2) (h 2 (by decide))

end

end P2P

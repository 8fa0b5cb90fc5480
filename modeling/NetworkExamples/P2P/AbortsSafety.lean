import NetworkExamples.P2P.AbortsTails

/-!
# The runs of the threshold network with aborts

Every run goes by the setup, the exchange of the partial decryptions and a tail
(`Tail.runs`, `exists_tail`), so that the notes in the histories are those of the tail.

* `neverStuck_iff`: with which nodes gone the survivors always get on.
* `recovery_correct`: what they fuse.
* `node_nack_agree`: if time-outs fire only for nodes that have exited, all survivors that enter
  the recovery have the same `node_nack`. With early time-outs they need not
  (`node_nack_disagree`).
-/

namespace P2P

open Fifo

namespace Aborts

variable {F : OpenFHE}

namespace Setting

/-- A state of the network. -/
abbrev State (_ : Setting F) : Type := Net ℕ (MessageFormat F) (Note F) (Option F.Plaintext)

variable (S : Setting F)

/-- The run reaches `s`, with time-outs only for nodes that have exited. -/
abbrev Reachable (s : S.State) : Prop := Net.Reach false (Net.init S.network) s

/-- **No state of the survivors is stuck**: as long as a survivor has not reached the fusion,
some survivor, or a node that has not exited yet, can act. -/
def NeverStuck : Prop :=
  ∀ s : S.State, S.Reachable s → (∃ i, S.Survivor i ∧ ∀ vec, .noted (.fusion vec) ∉ s.hist i) →
    ∃ i, S.IsNode i ∧ Net.Enabled false s i

variable {S} {s : Net ℕ (MessageFormat F) (Note F) (Option F.Plaintext)} {i : ℕ}

/-- The `node_nack` lists with which the recovery is entered. -/
def nacks (es : List (Event ℕ (MessageFormat F) (Note F))) : List (List ℕ) :=
  es.filterMap fun e =>
    match e with
    | .noted (.recovering node_nack) => some node_nack
    | _ => none

theorem mem_nacks {es : List (Event ℕ (MessageFormat F) (Note F))} {node_nack : List ℕ}
    (h : node_nack ∈ nacks es) : .noted (.recovering node_nack) ∈ es := by
  obtain ⟨e, he, hx⟩ := List.mem_filterMap.mp h
  split at hx
  · cases hx; exact he
  · cases hx

/-- A network with the ideal instance of OpenFHE, in which the nodes `D` exit. -/
def ideal (N : ℕ) (D : Finset ℕ) (hN : 2 ≤ N) (hD : ∀ d ∈ D, 1 ≤ d ∧ d ≤ N) :
    Setting OpenFHE.ideal where
  N := N
  compute_operation := .add
  inputs i := [(i : ℤ)]
  rand i := (i : ℤ)
  peers := others N
  D := D
  two_le := hN
  mesh := fullMesh_others N
  mem_nodes := hD

/-! ## The notes of a run -/

theorem notes_setupScript (i : ℕ) : notes (S.setupScript i) = [] := by
  have hk : notes (S.keysScript i) = [] := by
    unfold keysScript
    cases S.compute_operation <;> simp [Broadcast.evalMultScript, Broadcast.evalSumScript]
  simp [setupScript, hk, synchronizeScript, contextScript, Broadcast.publicKeyScript, sharesScript,
    cipherTextsScript]

theorem notes_decryptScript (i : ℕ) : notes (S.decryptScript i) = [] := by
  refine notes_eq_nil fun e he x hx => ?_
  obtain ⟨-, he⟩ := mem_ite_nil he
  rcases List.mem_append.mp he with he | he
  · obtain ⟨d, -, rfl⟩ := List.mem_map.mp he
    cases hx
  · obtain ⟨j, -, rfl⟩ := List.mem_map.mp he
    cases hx

theorem Tail.notes_fullScript (t : S.Tail) (i : ℕ) : notes (t.fullScript i) = notes (t.script i) := by
  simp [Tail.fullScript, notes_setupScript, notes_decryptScript]

/-- What a node has noted stands in the tail. -/
theorem Tail.mem_notes (t : S.Tail) (hs : S.Reachable s) {x : Note F} (hx : .noted x ∈ s.hist i) :
    x ∈ notes (t.script i) := by
  rw [← t.notes_fullScript, ← noted_mem_events]
  exact (t.runs.hist_prefix hs i).subset hx

/-- The notes of every run are right. -/
theorem noteOk (hs : S.Reachable s) {x : Note F} (hx : .noted x ∈ s.hist i) : S.NoteOk x := by
  obtain ⟨t, ht, -⟩ := S.exists_tail
  exact ht i x (t.mem_notes hs hx)

/-- Every run can be continued to the end of its tail. -/
theorem Tail.completes (t : S.Tail) (hs : S.Reachable s) :
    ∃ s', Net.Reach false s s' ∧ (∀ i, s'.hist i = (t.fullScript i).events) ∧
      (∀ i, S.Survivor i → s'.prog i = t.stop i) ∧ ∀ i, ¬ Net.Enabled false s' i := by
  obtain ⟨s', hr, hh, hp, he⟩ := t.runs.completes hs
  exact ⟨s', hr, hh, fun i hi => (hp i).trans (if_pos hi), he⟩

/-! ## Who gets stuck -/

theorem exists_survivor (h : S.D.card < threshold S.N) : ∃ i, S.Survivor i := by
  by_contra hno
  have hsub : Finset.Icc 1 S.N ⊆ S.D := fun i hi => by
    by_contra hd
    exact hno ⟨i, Finset.mem_Icc.mp hi, hd⟩
  have hle := Finset.card_le_card hsub
  have hN := S.two_le
  rw [Nat.card_Icc] at hle
  unfold threshold at h
  omega

/-- Only a node acts. -/
theorem isNode_of_enabled (hs : S.Reachable s) (he : Net.Enabled false s i) : S.IsNode i := by
  obtain ⟨t, -⟩ := S.exists_tail
  refine Finset.mem_Icc.mp (t.runs.mem_of_enabled (fun i hi => ?_) hs he)
  rw [network, if_neg fun h => hi (Finset.mem_Icc.mpr h)]
  rfl

/-- The survivors never get stuck exactly if they get all partial decryptions. -/
theorem neverStuck_iff_recoverable (h : S.D.card < threshold S.N) :
    S.NeverStuck ↔ S.Recoverable := by
  obtain ⟨t, -, hfuses, hsticks⟩ := S.exists_tail
  constructor
  · intro hn
    by_contra hr
    obtain ⟨i, hi⟩ := exists_survivor h
    obtain ⟨s', hs', -, -, he⟩ := t.completes (s := Net.init S.network) .refl
    obtain ⟨j, -, hj⟩ := hn s' hs' ⟨i, hi, fun vec hv => hsticks hr i vec (t.mem_notes hs' hv)⟩
    exact he j hj
  · intro hr s hs ⟨i, hi, hno⟩
    have hne : s.hist i ≠ (t.plan.script i).events := by
      intro heq
      refine hno (S.fusedVec S.recoveredKey) ?_
      rw [heq, noted_mem_events]
      show _ ∈ notes (t.fullScript i)
      rw [t.notes_fullScript]
      exact (hfuses hr).noted i hi
    obtain ⟨j, hj⟩ := t.runs.progress hs ⟨i, hne⟩
    exact ⟨j, isNode_of_enabled hs hj, hj⟩

/-- Enough shares bring the key back. -/
theorem recovered_eq (hF : F.Recovers S.cc) (h1 : 1 ∉ S.D) (he : S.Enough) {d : ℕ}
    (hd : d ∈ S.D) : S.recovered d = some (S.sk d) := by
  refine hF (S.rand d) (S.sk d) S.N (threshold S.N) d (S.recoveryShares d)
    (insert 1 S.live.toFinset) (Nat.succ_pos _) ?_ (fun j hj => ?_) fun j => ?_
  · have h1l : 1 ∉ S.live.toFinset := by simpa using one_notMem_live
    rw [Finset.card_insert_of_notMem h1l, List.toFinset_card_of_nodup nodup_live, add_comm]
    exact he
  · rcases Finset.mem_insert.mp hj with rfl | hj
    · exact ⟨le_rfl, (one_isNode S.two_le).2, fun h => h1 (h ▸ hd)⟩
    · have hs := (mem_live.mp (List.mem_toFinset.mp hj)).1
      exact ⟨hs.1.1, hs.1.2, fun h => hs.2 (h ▸ hd)⟩
  · exact if_congr (by simp) rfl rfl

/-- With Shamir's recovery, who has exited decides. -/
theorem recoverable_iff (hF : F.Recovers S.cc) (h : S.D.card < threshold S.N) :
    S.Recoverable ↔ S.D = ∅ ∨ (1 ∉ S.D ∧ S.D.card + threshold S.N ≤ S.N) := by
  refine or_congr_right ⟨fun ⟨h1, _, he, _⟩ => ⟨h1, ?_⟩, fun ⟨h1, hle⟩ => ?_⟩
  · have := length_live h1
    unfold Enough at he
    omega
  · have he : S.Enough := by
      have := length_live h1
      unfold Enough
      omega
    refine ⟨h1, h, he, fun d hd => ?_⟩
    rw [recoveredKey, recovered_eq hF h1 he hd, Option.getD_some]

/-- **Abort recovery never gets stuck** if and only if nobody has exited, or the recovering node
has not and at least `threshold` nodes are left. -/
theorem neverStuck_iff (hF : F.Recovers S.cc) (h : S.D.card < threshold S.N) :
    S.NeverStuck ↔ S.D = ∅ ∨ (1 ∉ S.D ∧ S.D.card + threshold S.N ≤ S.N) :=
  (neverStuck_iff_recoverable h).trans (recoverable_iff hF h)

theorem neverStuck_three : (ideal 3 {3} (by decide) (by decide)).NeverStuck :=
  (neverStuck_iff (OpenFHE.ideal_recovers _) (by decide)).mpr (.inr ⟨by decide, by decide⟩)

/-- Two of four nodes are not enough, and the check of the majority does not see it. -/
theorem stuck_four : (ideal 4 {3, 4} (by decide) (by decide)).D.card < threshold 4 ∧
    ¬ (ideal 4 {3, 4} (by decide) (by decide)).NeverStuck := by
  refine ⟨by decide, fun hn => ?_⟩
  rcases (neverStuck_iff_recoverable (by decide)).mp hn with h | ⟨-, -, he, -⟩
  · exact absurd h (by decide)
  · unfold Enough at he
    exact absurd he (by decide)

/-! ## What the survivors fuse -/

/-- The Lead partial decryption of node 1 at index 0, and the Main ones under the other nodes'
secret keys. -/
structure Complete (S : Setting F) (vec : List (Option F.Ciphertext)) : Prop where
  length : vec.length = S.N
  lead : vec[0]? = some (some (F.multipartyDecryptLead S.cc (S.rand 1) S.resultCT (S.sk 1)))
  main : ∀ j, 2 ≤ j → j ≤ S.N → ∃ r,
    vec[j - 1]? = some (some (F.multipartyDecryptMain S.cc r S.resultCT (S.sk j)))

theorem getElem?_fusedVec (k : ℕ → F.SecretKey) {j : ℕ} (hj : S.IsNode j) :
    (S.fusedVec k)[j - 1]? = some (some (S.fusedCT k j)) := by
  have hlt : j - 1 < S.N := by omega
  have hget : (List.range' 1 S.N)[j - 1]? = some j := by
    rw [List.getElem?_range' hlt]
    congr 1
    omega
  rw [fusedVec, List.getElem?_map, hget]
  rfl

/-- With the nodes' own keys recovered, the vector is complete. -/
theorem fusedVec_complete (h1 : 1 ∉ S.D) {k : ℕ → F.SecretKey} (hk : ∀ d ∈ S.D, k d = S.sk d) :
    S.Complete (S.fusedVec k) where
  length := by simp [fusedVec]
  lead := by
    have h := getElem?_fusedVec (S := S) k (one_isNode S.two_le)
    rwa [fusedCT, if_neg h1, partialCT, if_pos rfl] at h
  main j hj2 hjN := by
    rw [getElem?_fusedVec k ⟨by omega, hjN⟩, fusedCT]
    by_cases hd : j ∈ S.D
    · rw [if_pos hd, abortsCT, hk j hd]
      exact ⟨_, rfl⟩
    · rw [if_neg hd, partialCT, if_neg (by omega)]
      exact ⟨_, rfl⟩

/-- **Abort recovery decrypts correctly**: in every interleaving a survivor that fuses holds all
partial decryptions, every key is recovered from shares of one node, and all survivors get the
same plaintext. -/
theorem recovery_correct (hF : F.Recovers S.cc) (h1 : 1 ∉ S.D)
    (h : threshold S.N ≤ S.N - S.D.card) :
    ∃ pt, ∀ s : S.State, S.Reachable s →
      (∀ i vec, .noted (.fusion vec) ∈ s.hist i → S.Complete vec) ∧
      (∀ i shares, .noted (.recoverSharedKey shares) ∈ s.hist i →
        ∃ d ∈ S.D, ∀ j x, shares j = some x → x = S.share d j) ∧
      (∀ i, S.Survivor i → ∀ x, s.prog i = .ret x → x = some pt) ∧
      ∃ s', Net.Reach false s s' ∧ ∀ i, S.Survivor i → s'.prog i = .ret (some pt) := by
  have hlt : S.D.card < threshold S.N := by
    unfold threshold at h ⊢
    omega
  have hle : S.D.card + threshold S.N ≤ S.N := by
    unfold threshold at h ⊢
    omega
  have hr : S.Recoverable := (recoverable_iff hF hlt).mpr (.inr ⟨h1, hle⟩)
  have hk : ∀ d ∈ S.D, S.recoveredKey d = S.sk d := by
    intro d hd
    have he : S.Enough := by
      have := length_live h1
      unfold Enough
      omega
    rw [recoveredKey, recovered_eq hF h1 he hd, Option.getD_some]
  obtain ⟨t, -, hfuses, -⟩ := S.exists_tail
  refine ⟨S.plaintext S.recoveredKey, fun s hs => ⟨fun i vec hv => ?_, fun i shares hv => ?_,
    fun i hi x hx => ?_, ?_⟩⟩
  · have hvec : vec = S.fusedVec S.recoveredKey := noteOk hs hv
    exact hvec ▸ fusedVec_complete h1 hk
  · obtain ⟨d, hd, rfl⟩ : ∃ d ∈ S.D, shares = S.recoveryShares d := noteOk hs hv
    refine ⟨d, hd, fun j x hx => ?_⟩
    unfold recoveryShares at hx
    split at hx
    · cases hx; rfl
    · cases hx
  · -- A survivor that has returned is at the end of its tail.
    have hp := t.runs.prog_eq_stop hs (t.runs.hist_eq_of_halted hs (i := i) (by rw [hx]; rfl))
    have hstop : t.plan.stop i = t.stop i := if_pos hi
    rw [hx, hstop, (hfuses hr).stop i hi] at hp
    cases hp
    rfl
  · obtain ⟨s', hs', -, hp, -⟩ := t.completes hs
    exact ⟨s', hs', fun i hi => (hp i hi).trans ((hfuses hr).stop i hi)⟩

theorem recovery_correct_three : ∃ (s : (ideal 3 {3} (by decide) (by decide)).State) (pt : List ℤ),
    (ideal 3 {3} (by decide) (by decide)).Reachable s ∧
      s.prog 1 = .ret (some pt) ∧ s.prog 2 = .ret (some pt) := by
  obtain ⟨pt, h⟩ := recovery_correct (S := ideal 3 {3} (by decide) (by decide))
    (OpenFHE.ideal_recovers _) (by decide) (by decide)
  obtain ⟨-, -, -, s, hs, hp⟩ := h _ .refl
  exact ⟨s, pt, hs, hp 1 (by decide), hp 2 (by decide)⟩

/-! ## Who is missing -/

/-- **Agreement on the dropped nodes**, if time-outs fire only for nodes that have exited: the
`node_nack` of every survivor that enters the recovery is the list of the nodes that have
exited. -/
theorem node_nack_agree (hs : S.Reachable s) {i j : ℕ} {node_nack node_nack' : List ℕ}
    (hi : .noted (.recovering node_nack) ∈ s.hist i)
    (hj : .noted (.recovering node_nack') ∈ s.hist j) :
    node_nack = node_nack' ∧ node_nack = S.dropped := by
  have h : node_nack = S.dropped := noteOk hs hi
  have h' : node_nack' = S.dropped := noteOk hs hj
  exact ⟨h.trans h'.symm, h⟩

theorem node_nack_agree_three : ∃ (s : (ideal 3 {3} (by decide) (by decide)).State)
    (node_nack node_nack' : List ℕ), (ideal 3 {3} (by decide) (by decide)).Reachable s ∧
      .noted (.recovering node_nack) ∈ s.hist 1 ∧ .noted (.recovering node_nack') ∈ s.hist 2 ∧
      node_nack = node_nack' ∧ node_nack = [3] := by
  let s := (Net.init (ideal 3 {3} (by decide) (by decide)).network).run false
    (List.replicate 26 [1, 2, 3]).flatten
  have hs : (ideal 3 {3} (by decide) (by decide)).Reachable s := Net.reach_run false _ _
  have h1 : .noted (.recovering [3]) ∈ s.hist 1 := mem_nacks (by decide +kernel)
  have h2 : .noted (.recovering [3]) ∈ s.hist 2 := mem_nacks (by decide +kernel)
  obtain ⟨h, h'⟩ := node_nack_agree hs h1 h2
  exact ⟨s, _, _, hs, h1, h2, h, h'.trans (by decide)⟩

/-- If time-outs fire early the survivors may disagree: node 2 times out on node 1, and node 1 on
node 3, before their partial decryptions come. -/
theorem node_nack_disagree : ∃ (s : (ideal 3 ∅ (by decide) (by decide)).State)
    (node_nack node_nack' : List ℕ),
    Net.Reach true (Net.init (ideal 3 ∅ (by decide) (by decide)).network) s ∧
      .noted (.recovering node_nack) ∈ s.hist 1 ∧ .noted (.recovering node_nack') ∈ s.hist 2 ∧
      node_nack ≠ node_nack' := by
  -- All nodes get to the abort point; then each of the time-outs comes just before the message.
  let s := (Net.init (ideal 3 ∅ (by decide) (by decide)).network).run true
    ((List.replicate 19 [1, 2, 3]).flatten ++ [2, 3] ++ [2, 2, 2, 1, 1, 1, 1, 3, 3, 2, 2, 1])
  have h1 : .noted (.recovering [3]) ∈ s.hist 1 := mem_nacks (by decide +kernel)
  have h2 : .noted (.recovering [1]) ∈ s.hist 2 := mem_nacks (by decide +kernel)
  exact ⟨s, _, _, Net.reach_run true _ _, h1, h2, by decide⟩

end Setting

end Aborts

end P2P

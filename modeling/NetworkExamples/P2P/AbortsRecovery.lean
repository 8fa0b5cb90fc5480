import NetworkExamples.P2P.AbortsPlan
import NetworkExamples.P2P.RecoverShares

/-!
# The recovery of the dropped nodes

What the survivors do with the partial decryptions if fewer than `threshold` nodes have exited and the
recovering node is there: a round for each dropped node, and then they fuse. The cases of the tails that
end so, or otherwise, are in `AbortsTails.lean`.

* `follows_rounds`: the rounds of the dropped nodes (`roundScript`).
* `follows_turn_few`, `turn_alone`: too few are left, and the recovering node waits for a second share
  of the first dropped node, or, alone, spins.
* `follows_turn_throws`: `RecoverSharedKey` throws.
-/

namespace P2P

open Fifo

namespace Aborts

variable {F : OpenFHE}

namespace Setting

variable (S : Setting F)

/-- The live peers of the recovering node, if it has not exited. -/
def live : List ℕ := livePeers (S.params 1) S.dropped

/-- Enough nodes are left to recover a key. -/
def Enough : Prop := threshold S.N ≤ 1 + S.live.length

/-- The shares of the key of `d` that the recovering node collects. -/
def recoveryShares (d : ℕ) : ℕ → Option F.DCRTPoly :=
  fun j => if j = 1 ∨ j ∈ S.live then some (S.share d j) else none

/-- The key of `d` as recovered from the shares. -/
def recovered (d : ℕ) : Option F.SecretKey :=
  F.recoverSharedKey S.cc (S.recoveryShares d) S.N (threshold S.N)

def shareRecoveryMsg (d j : ℕ) : MessageFormat F :=
  ⟨"secretsharerecovery", Kind.poly.ser (S.share d j)⟩

section

variable (k : ℕ → F.SecretKey)

/-- The partial decryption of the dropped node `d`, under the recovered key `k d`. -/
def abortsCT (d : ℕ) : F.Ciphertext := F.multipartyDecryptMain S.cc (S.rand 1) S.resultCT (k d)

def abortsMsg (d : ℕ) : MessageFormat F :=
  ⟨"abortspartialciphertext", Kind.ciphertexts.ser [S.abortsCT k d]⟩

/-- The partial decryption at index `j - 1` when a survivor fuses. -/
def fusedCT (j : ℕ) : F.Ciphertext := if j ∈ S.D then S.abortsCT k j else S.partialCT j

/-- The vector of the partial decryptions when a survivor fuses. -/
def fusedVec : List (Option F.Ciphertext) := (List.range' 1 S.N).map fun j => some (S.fusedCT k j)

def plaintext : F.Plaintext :=
  F.multipartyDecryptFusion S.cc ((List.range' 1 S.N).map (S.fusedCT k))

/-! ## The scripts -/

/-- Every survivor passes the note `x`. -/
def noteScript (x : Note F) (i : ℕ) : Script ℕ (MessageFormat F) (Note F) :=
  if S.Survivor i then [(0, .noted x)] else []

/-- The recovering node passes the note `x`. -/
def noteRecovering (x : Note F) (i : ℕ) : Script ℕ (MessageFormat F) (Note F) :=
  if i = 1 then [(0, .noted x)] else []

/-- The shares of the key of `d` go to the recovering node. -/
def sharesOf (d : ℕ) : ℕ → Script ℕ (MessageFormat F) (Note F) :=
  gather 1 S.live (S.shareRecoveryMsg d) false

/-- **A round**: the shares of `d` go to the recovering node, which sends back the partial
decryption. -/
def roundScript (d i : ℕ) : Script ℕ (MessageFormat F) (Note F) :=
  S.sharesOf d i ++ shift 2 (noteRecovering (.recoverSharedKey (S.recoveryShares d)) i ++
    shift 1 (fromOne 1 S.live (S.abortsMsg k d) true i))

/-- The rounds for the dropped nodes `l`. -/
def roundsScript : List ℕ → ℕ → Script ℕ (MessageFormat F) (Note F)
  | [], _ => []
  | d :: l, i => S.roundScript k d i ++ shift (2 + (1 + 2)) (roundsScript l i)

end

variable {S} {i d : ℕ} {k : ℕ → F.SecretKey}

/-! ## The survivors -/

theorem mem_live {j : ℕ} : j ∈ S.live ↔ S.Survivor j ∧ j ≠ 1 := by
  simp only [live, livePeers, params_num_of_nodes, params_node_id, List.mem_filter, mem_others,
    mem_dropped, decide_eq_true_eq]
  tauto

theorem nodup_live : S.live.Nodup := nodup_livePeers

theorem one_notMem_live : 1 ∉ S.live := fun h => (mem_live.mp h).2 rfl

/-- If node 1 has not exited, a survivor is node 1 or one of its live peers. -/
theorem survivor_cases (hi : S.Survivor i) : i = 1 ∨ (i ∈ S.live ∧ i ≠ 1) := by
  by_cases h : i = 1
  · exact .inl h
  · exact .inr ⟨mem_live.mpr ⟨hi, h⟩, h⟩

theorem not_live_of_not_survivor (hi : ¬ S.Survivor i) : i ∉ S.live :=
  fun h => hi (mem_live.mp h).1

theorem dropped_ne_nil (hD : S.D.Nonempty) : S.dropped ≠ [] := by
  obtain ⟨d, hd⟩ := hD
  exact List.ne_nil_of_mem (mem_dropped.mpr hd)

theorem length_dropped : S.dropped.length = S.D.card := by
  have hnd : S.dropped.Nodup := (List.nodup_range' 1).filter _
  rw [← List.toFinset_card_of_nodup hnd]
  congr 1
  ext d
  simp [mem_dropped]

/-- With node 1, the live peers are all nodes but the dropped ones. -/
theorem length_live (h1 : 1 ∉ S.D) : 1 + S.live.length + S.D.card = S.N := by
  rw [← length_dropped]
  exact length_livePeers ⟨le_rfl, (one_isNode S.two_le).2⟩ ((List.nodup_range' 1).filter _)
    (fun d hd => S.mem_nodes d (mem_dropped.mp hd)) fun h => h1 (mem_dropped.mp h)

/-! ## The phases -/

theorem noteScript_phase (x : Note F) : Phase (S.noteScript x) 1 := by
  refine ⟨fun i => ?_, fun i e he => ?_, fun a b => ?_⟩
  · unfold noteScript; split <;> simp
  · obtain ⟨-, he⟩ := mem_ite_nil he
    simp only [List.mem_singleton] at he
    rw [he]; exact Nat.zero_lt_one
  · unfold noteScript
    split <;> split <;> exact .nil

theorem noteRecovering_phase (x : Note F) : Phase (noteRecovering x) 1 := by
  refine ⟨fun i => ?_, fun i e he => ?_, fun a b => ?_⟩
  · unfold noteRecovering; split <;> simp
  · obtain ⟨-, he⟩ := mem_ite_nil he
    simp only [List.mem_singleton] at he
    rw [he]; exact Nat.zero_lt_one
  · unfold noteRecovering
    split <;> split <;> exact .nil

theorem sharesOf_phase (d : ℕ) : Phase (S.sharesOf d) 2 := gather_phase 1 nodup_live _ _

theorem roundScript_phase (d : ℕ) : Phase (S.roundScript k d) (2 + (1 + 2)) :=
  (sharesOf_phase d).append ((noteRecovering_phase _).append (fromOne_phase 1 nodup_live _ _))

theorem roundsScript_phase (l : List ℕ) :
    Phase (S.roundsScript k l) ((2 + (1 + 2)) * l.length) := by
  induction l with
  | nil => exact Phase.nil
  | cons d l ih =>
    have ht : (2 + (1 + 2)) * (d :: l).length = 2 + (1 + 2) + (2 + (1 + 2)) * l.length := by
      rw [List.length_cons]; omega
    rw [ht]
    exact (roundScript_phase d).append ih

/-- Only the survivors take part in the rounds. -/
theorem roundsScript_quiet (h1 : 1 ∉ S.D) (hi : ¬ S.Survivor i) (l : List ℕ) :
    S.roundsScript k l i = [] := by
  have hne : i ≠ 1 := fun h => hi (h ▸ ⟨(one_isNode S.two_le), h1⟩)
  have hl := not_live_of_not_survivor hi
  induction l with
  | nil => rfl
  | cons d l ih =>
    rw [roundsScript, roundScript, sharesOf, gather_outside _ _ hl hne,
      fromOne_outside _ hl hne, noteRecovering, if_neg hne, ih]
    rfl

/-! ## One round -/

theorem follows_collectOnce (c : ℕ) (f : ℕ → Option F.DCRTPoly) :
    Follows (collectOnce (S.params 1) S.dropped (c, f))
      (S.live.map fun j => .got j (.got (S.shareRecoveryMsg d j)))
      (.ret (c + S.live.length,
        S.live.foldl (fun f j => Function.update f j (some (S.share d j))) f)) :=
  Aborts.follows_collectOnce (S.share d) c f

/-- With enough nodes one turn of the loop is enough. -/
theorem follows_collectShares (he : S.Enough) {f : ℕ → Option F.DCRTPoly}
    (hf : ∀ j, j ∉ S.live → f j = if j = 1 then some (S.share d 1) else none) :
    Follows (collectShares (S.params 1) S.dropped (threshold S.N) (1, f))
      (S.live.map fun j => .got j (.got (S.shareRecoveryMsg d j)))
      (.ret (S.recoveryShares d)) := by
  have hshares : S.live.foldl (fun f j => Function.update f j (some (S.share d j))) f =
      S.recoveryShares d := by
    funext j
    rw [Lists.foldl_update_apply, recoveryShares]
    by_cases hj : j ∈ S.live
    · rw [if_pos hj, if_pos (.inr hj)]
    · rw [if_neg hj, hf j hj]
      by_cases h1 : j = 1
      · subst h1; simp
      · rw [if_neg h1, if_neg (by tauto)]
  obtain ⟨n, hn⟩ : ∃ n, threshold S.N = n + 2 := ⟨S.N / 2 - 1, by
    have := S.two_le
    unfold threshold
    omega⟩
  rw [hn, collectShares, if_pos (by simp [hn]), ← List.append_nil (List.map _ _)]
  refine (follows_collectOnce 1 f).bind ?_
  rw [hshares, collectShares, if_neg (by simpa [Enough] using he)]
  exact .nil _

/-- The recovering node's turn for a dropped node `d`. -/
abbrev turn (S : Setting F) (i : ℕ)
    (st : (ℕ → Option F.DCRTPoly) × List (Option F.Ciphertext)) (d : ℕ) :
    NodeM F (Note F) ((ℕ → Option F.DCRTPoly) × List (Option F.Ciphertext)) :=
  recoverOne (S.readyNode i) (S.rand i) (S.params i) S.cc (S.recdSecretShares i) S.resultCT
    S.dropped st d

theorem recdSecretShares_eq (hd : d ∈ S.D) (hi : S.Survivor i) :
    S.recdSecretShares i d = some (S.share d i) := by
  have h := S.mem_nodes d hd
  have hm : d ∈ others S.N i := mem_others.mpr ⟨h.1, h.2, fun hdi => hi.2 (hdi ▸ hd)⟩
  exact if_pos hm

section

variable (h1 : 1 ∉ S.D) (he : S.Enough) (hd : d ∈ S.D)
  {st : (ℕ → Option F.DCRTPoly) × List (Option F.Ciphertext)}
  (hst : ∀ j, j ∉ S.live → j ≠ 1 → st.1 j = none)

include h1 he hd hst

/-- The recovering node enters its own share, and collects those of its peers. -/
theorem follows_collectRound : Follows
    (collectShares (S.params 1) S.dropped (threshold S.N)
      (1, Function.update st.1 1 (S.recdSecretShares 1 d)))
    (S.live.map fun j => .got j (.got (S.shareRecoveryMsg d j))) (.ret (S.recoveryShares d)) := by
  have hs := recdSecretShares_eq hd (i := 1) ⟨(one_isNode S.two_le), h1⟩
  refine follows_collectShares he fun j hj => ?_
  by_cases hj1 : j = 1
  · subst hj1
    simp [hs]
  · simp [hj1, hst j hj hj1]

theorem follows_turn_recovering (hk : S.recovered d = some (k d)) :
    Follows (S.turn 1 st d) (S.roundScript k d 1).events
      (.ret (S.recoveryShares d, st.2.set (d - 1) (some (S.abortsCT k d)))) := by
  have hev : (S.roundScript k d 1).events =
      (S.live.map fun j => .got j (.got (S.shareRecoveryMsg d j))) ++
        .noted (.recoverSharedKey (S.recoveryShares d)) ::
          (S.live.flatMap fun j => [.sent j (S.abortsMsg k d) true]) := by
    rw [roundScript, sharesOf, noteRecovering, if_pos rfl]
    simp only [List.map_append, events_shift, events_gather_root _ _ one_notMem_live,
      events_fromOne_root _ one_notMem_live, ← List.map_eq_flatMap]
    rfl
  rw [hev]
  unfold turn recoverOne recoverDroppedSecret sendRecoveredPartialCT
  rw [if_pos (by rfl)]
  simp only [bind_assoc]
  refine (follows_collectRound h1 he hd hst).bind (.note ?_)
  rw [show F.recoverSharedKey S.cc (S.recoveryShares d) (S.params 1).num_of_nodes
    (threshold (S.params 1).num_of_nodes) = some (k d) from hk]
  rw [← List.append_nil (List.flatMap _ _)]
  refine Follows.bind (Follows.foldlM (g := fun _ _ => ()) (fun j hj _ => ?_) ()) (.nil _)
  have hj := mem_live.mp hj
  rw [← bind_pure (sendSerialMsg _ _ _ _ _ _)]
  have hpeer : j ∈ S.peers 1 := (mem_peers (one_isNode S.two_le)).mpr ⟨hj.1.1.1, hj.1.1.2, hj.2⟩
  exact follows_sendSerialMsg hpeer (.nil _)

/-- If the key cannot be recovered, the recovering node throws. -/
theorem follows_turn_throws (hk : S.recovered d = none) :
    ∃ e, Follows (S.turn 1 st d) ((S.sharesOf d 1).events ++
      [.noted (.recoverSharedKey (S.recoveryShares d))]) (.fail e) := by
  rw [sharesOf, events_gather_root _ _ one_notMem_live]
  unfold turn recoverOne recoverDroppedSecret
  rw [if_pos (by rfl)]
  simp only [bind_assoc]
  refine ⟨"RecoverSharedKey", (follows_collectRound h1 he hd hst).bind (.note ?_)⟩
  rw [show F.recoverSharedKey S.cc (S.recoveryShares d) (S.params 1).num_of_nodes
    (threshold (S.params 1).num_of_nodes) = none from hk]
  exact .nil _

end

theorem follows_turn_peer (hi : i ∈ S.live) (hd : d ∈ S.D)
    (st : (ℕ → Option F.DCRTPoly) × List (Option F.Ciphertext)) :
    Follows (S.turn i st d) (S.roundScript k d i).events
      (.ret (st.1, st.2.set (d - 1) (some (S.abortsCT k d)))) := by
  have hs := mem_live.mp hi
  have hev : (S.roundScript k d i).events =
      [.sent 1 (S.shareRecoveryMsg d i) false, .got 1 (.got (S.abortsMsg k d))] := by
    rw [roundScript, sharesOf, noteRecovering, if_neg hs.2]
    simp only [List.map_append, events_shift, events_gather_leaf _ _ hi hs.2,
      events_fromOne_leaf _ hi hs.2]
    rfl
  rw [hev]
  unfold turn recoverOne
  rw [if_neg (by exact hs.2), recdSecretShares_eq hd hs.1]
  simp only [nonNull_bind]
  refine follows_sendSerialMsg ((mem_peers hs.1.1).mpr ⟨le_rfl, (one_isNode S.two_le).2, hs.2.symm⟩) ?_
  refine follows_getSerialMsgWait ?_
  exact .nil _

/-- **The rounds**: each takes the shares of its own dropped node, whatever the map of the shares
holds from the rounds before. -/
theorem follows_rounds (h1 : 1 ∉ S.D) (he : S.Enough) (hi : S.Survivor i) {l : List ℕ}
    (hl : ∀ d ∈ l, d ∈ S.D ∧ S.recovered d = some (k d))
    (st : (ℕ → Option F.DCRTPoly) × List (Option F.Ciphertext))
    (hst : ∀ j, j ∉ S.live → j ≠ 1 → st.1 j = none) :
    ∃ f, (∀ j, j ∉ S.live → j ≠ 1 → f j = none) ∧
      Follows (l.foldlM (S.turn i) st) (S.roundsScript k l i).events
        (.ret (f, l.foldl (fun v d => v.set (d - 1) (some (S.abortsCT k d))) st.2)) := by
  induction l generalizing st with
  | nil => exact ⟨st.1, hst, .nil _⟩
  | cons d l ih =>
    obtain ⟨hd, hk⟩ := hl d (by simp)
    have hl' : ∀ e ∈ l, e ∈ S.D ∧ S.recovered e = some (k e) := fun e he =>
      hl e (List.mem_cons_of_mem _ he)
    simp only [List.foldlM_cons, roundsScript, List.map_append, events_shift, List.foldl_cons]
    rcases survivor_cases hi with rfl | ⟨hil, -⟩
    · have hnext : ∀ j, j ∉ S.live → j ≠ 1 → S.recoveryShares d j = none := fun j hj hj1 =>
        if_neg (by tauto)
      obtain ⟨f, hf, hr⟩ :=
        ih hl' (S.recoveryShares d, st.2.set (d - 1) (some (S.abortsCT k d))) hnext
      exact ⟨f, hf, (follows_turn_recovering h1 he hd hst hk).bind hr⟩
    · obtain ⟨f, hf, hr⟩ := ih hl' (st.1, st.2.set (d - 1) (some (S.abortsCT k d))) hst
      exact ⟨f, hf, (follows_turn_peer hil hd st).bind hr⟩

/-! ## The turns that do not end -/

/-- A live peer waits for the partial decryption of `d`. -/
theorem follows_turn_peer_waits (hi : i ∈ S.live) (hd : d ∈ S.D)
    (st : (ℕ → Option F.DCRTPoly) × List (Option F.Ciphertext)) :
    ∃ q, Follows (S.turn i st d) (S.sharesOf d i).events q ∧ q.Waits := by
  have hs := mem_live.mp hi
  rw [sharesOf, events_gather_leaf _ _ hi hs.2]
  unfold turn recoverOne
  rw [if_neg (by exact hs.2), recdSecretShares_eq hd hs.1]
  simp only [nonNull_bind]
  have h1 : 1 ∈ (S.readyNode i).connectedAddresses :=
    (mem_peers hs.1.1).mpr ⟨le_rfl, (one_isNode S.two_le).2, hs.2.symm⟩
  exact ⟨_, follows_sendSerialMsg h1 (.nil _), waits_getSerialMsgWait _⟩

/-- With too few nodes the recovering node waits for a second share from its first peer. -/
theorem follows_turn_few (he : ¬ S.Enough) (hl : S.live ≠ [])
    (st : (ℕ → Option F.DCRTPoly) × List (Option F.Ciphertext)) :
    ∃ q, Follows (S.turn 1 st d) (S.sharesOf d 1).events q ∧ q.Waits := by
  obtain ⟨j, L, hjL⟩ := List.exists_cons_of_ne_nil hl
  obtain ⟨n, hn⟩ : ∃ n, threshold S.N = n + 2 := ⟨S.N / 2 - 1, by
    have := S.two_le
    unfold threshold
    omega⟩
  have hlive : livePeers (S.params 1) S.dropped = j :: L := hjL
  have hlt : 1 + S.live.length < n + 2 := by
    rw [Enough, hn] at he
    omega
  rw [sharesOf, events_gather_root _ _ one_notMem_live]
  unfold turn recoverOne recoverDroppedSecret
  rw [if_pos (by rfl)]
  simp only [params_num_of_nodes, hn, collectShares, if_pos (show 1 < n + 2 by omega), bind_assoc]
  refine ⟨_, (follows_collectOnce (S := S) (d := d) 1 _).bind_left _, ?_⟩
  simp only [Prog.ret_bind, if_pos hlt, collectOnce, hlive, List.foldlM_cons, bind_assoc]
  exact waits_getSerialMsgWait _

/-- Without live peers the loop spins. -/
theorem turn_alone (hl : S.live = [])
    (st : (ℕ → Option F.DCRTPoly) × List (Option F.Ciphertext)) :
    S.turn 1 st d = .spin := by
  have hlt : 1 < threshold S.N := by
    have := S.two_le
    unfold threshold
    omega
  unfold turn recoverOne recoverDroppedSecret
  rw [if_pos (by rfl)]
  simp only [collectShares_spin hl hlt]
  rfl

end Setting

end Aborts

end P2P

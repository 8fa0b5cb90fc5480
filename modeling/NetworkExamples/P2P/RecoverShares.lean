import NetworkExamples.P2P.AbortsSetup

/-!
# The shares before a recovery

`RecoverDroppedSecret` counts the shares that it receives, from 1 for its own, and takes a turn of
all live peers as long as the count is below `threshold`. The count is of messages, not of holders.

* `Collects`: at the call of `RecoverSharedKey` there are the shares of `threshold` live holders, and
  exactly one message of each live peer has been awaited; and the call is reached.
* `collects_iff`: so it is if more than half of the nodes are left. With exactly half of them left,
  which the check of `node_nack` lets pass, one turn is not enough, and the next one waits for a
  second message of each live peer.
-/

namespace P2P

open Fifo

namespace Aborts

variable {F : OpenFHE} {E α : Type}

/-- The call of `RecoverDroppedSecret` at a node that has passed the check. -/
structure Drop (params : ClientParams) (node_nack : List ℕ) : Prop where
  isNode : 1 ≤ params.node_id ∧ params.node_id ≤ params.num_of_nodes
  nodup : node_nack.Nodup
  nodes : ∀ d ∈ node_nack, 1 ≤ d ∧ d ≤ params.num_of_nodes
  self : params.node_id ∉ node_nack
  check : node_nack.length < threshold params.num_of_nodes

/-- The live nodes whose shares are in the map. -/
def holders (params : ClientParams) (node_nack : List ℕ) (recoveryShares : ℕ → Option F.DCRTPoly) :
    Finset ℕ :=
  {j ∈ Finset.Icc 1 params.num_of_nodes | j ∉ node_nack ∧ (recoveryShares j).isSome}

/-- How many messages of node `j` the actions `es` take. -/
def awaited (es : List (Event ℕ (MessageFormat F) E)) (j : ℕ) : ℕ :=
  (es.filterMap (·.takenFrom j)).length

def shareMsg (share : F.DCRTPoly) : MessageFormat F :=
  ⟨"secretsharerecovery", Kind.poly.ser share⟩

/-- The state at the call of `RecoverSharedKey`, after the actions `es`. -/
structure Collected (params : ClientParams) (node_nack : List ℕ)
    (es : List (Event ℕ (MessageFormat F) (Note F))) (recoveryShares : ℕ → Option F.DCRTPoly) :
    Prop where
  enough : threshold params.num_of_nodes ≤ (holders params node_nack recoveryShares).card
  once : ∀ j, awaited es j = if j ∈ livePeers params node_nack then 1 else 0

/-- At the call there are enough shares, one message of each live peer has been awaited; and if
node `j` sends the shares `share j 0`, `share j 1`, …, the call is reached. -/
structure Collects (params : ClientParams) (cc : F.CryptoContext) (node_nack : List ℕ)
    (recoveryShares : ℕ → Option F.DCRTPoly) : Prop where
  atCall : ∀ es shares p,
    Follows (recoverDroppedSecret params cc node_nack recoveryShares) es
      (.note (.recoverSharedKey shares) p) → Collected params node_nack es shares
  calls : ∀ share : ℕ → ℕ → F.DCRTPoly, ∃ es shares p,
    Follows (recoverDroppedSecret params cc node_nack recoveryShares) es
      (.note (.recoverSharedKey shares) p) ∧
    ∀ j, ∃ n, es.filterMap (·.takenFrom j) = (List.range n).map fun m => .got (shareMsg (share j m))

variable {params : ClientParams} {cc : F.CryptoContext} {node_nack : List ℕ}
  {f : ℕ → Option F.DCRTPoly}

/-! ## The live peers -/

theorem mem_livePeers {j : ℕ} : j ∈ livePeers params node_nack ↔
    (1 ≤ j ∧ j ≤ params.num_of_nodes ∧ j ≠ params.node_id) ∧ j ∉ node_nack := by
  simp [livePeers, mem_others]

theorem nodup_livePeers : (livePeers params node_nack).Nodup := (nodup_others _ _).filter _

/-- The nodes are this one, its live peers and the dropped ones. -/
theorem length_livePeers (hnode : 1 ≤ params.node_id ∧ params.node_id ≤ params.num_of_nodes)
    (hnack : node_nack.Nodup) (hnodes : ∀ d ∈ node_nack, 1 ≤ d ∧ d ≤ params.num_of_nodes)
    (hself : params.node_id ∉ node_nack) :
    1 + (livePeers params node_nack).length + node_nack.length = params.num_of_nodes := by
  have hperm : (params.node_id :: livePeers params node_nack ++ node_nack).toFinset =
      Finset.Icc 1 params.num_of_nodes := by
    ext j
    simp only [List.cons_append, List.mem_toFinset, List.mem_cons, List.mem_append, mem_livePeers,
      Finset.mem_Icc]
    constructor
    · rintro (rfl | hj | hj)
      · exact hnode
      · exact ⟨hj.1.1, hj.1.2.1⟩
      · exact hnodes j hj
    · intro hj
      by_cases hid : j = params.node_id
      · exact .inl hid
      · by_cases hd : j ∈ node_nack
        · exact .inr (.inr hd)
        · exact .inr (.inl ⟨⟨hj.1, hj.2, hid⟩, hd⟩)
  have hnodup : (params.node_id :: livePeers params node_nack ++ node_nack).Nodup := by
    rw [List.cons_append, List.nodup_cons, List.nodup_append']
    refine ⟨?_, nodup_livePeers, hnack, fun j hj hd => (mem_livePeers.mp hj).2 hd⟩
    simp [mem_livePeers, hself]
  have hcard := List.toFinset_card_of_nodup hnodup
  rw [hperm, Nat.card_Icc] at hcard
  simp only [List.cons_append, List.length_cons, List.length_append] at hcard
  omega

theorem Drop.length_livePeers (h : Drop params node_nack) :
    1 + (livePeers params node_nack).length + node_nack.length = params.num_of_nodes :=
  Aborts.length_livePeers h.isNode h.nodup h.nodes h.self

/-! ## A turn of the loop -/

section

variable {es : List (Event ℕ (MessageFormat F) (Note F))} {L : List ℕ}

/-- The actions `es` are receives, one from each of the nodes `L`. -/
def Awaits (L : List ℕ) (es : List (Event ℕ (MessageFormat F) (Note F))) : Prop :=
  List.Forall₂ (fun j e => ∃ m, e = .got j (.got m)) L es

theorem takenFrom_got (a : ℕ) (r : Reply (MessageFormat F)) (j : ℕ) :
    (Event.got a r : Event ℕ (MessageFormat F) (Note F)).takenFrom j =
      if a = j then some r else none := rfl

theorem Awaits.awaited_eq (h : Awaits L es) (j : ℕ) : awaited es j = L.count j := by
  unfold awaited
  induction h with
  | nil => rfl
  | cons he h ih =>
    next i e L es =>
    obtain ⟨m, rfl⟩ := he
    rw [List.filterMap_cons, takenFrom_got]
    by_cases hij : i = j
    · subst hij
      simp [ih]
    · simp [hij, ih]

/-- A wait before the note `x` has received an object. -/
theorem note_getSerialMsgWait {T : Type} {k : Kind F T} {ty : String} {a : ℕ}
    {g : T → NodeM F (Note F) α} {x : Note F} {p : NodeM F (Note F) α}
    (h : Follows (getSerialMsgWait k ty a >>= g) es (.note x p)) :
    ∃ m y es', es = .got a (.got m) :: es' ∧ Follows (g y) es' (.note x p) := by
  cases h with
  | recv hm h =>
    next m es' =>
    change Follows ((deserialize k ty m.data).bind g) es' _ at h
    unfold deserialize at h
    split at h
    · cases h
    · split at h
      · next y hy => exact ⟨m, y, es', rfl, h⟩
      · cases h

/-- A turn before the note `x` has received a share from each live peer, and has stored it. -/
theorem note_collectOnce {g : ℕ × (ℕ → Option F.DCRTPoly) → NodeM F (Note F) α} {x : Note F}
    {p : NodeM F (Note F) α} {c : ℕ}
    (h : Follows (collectOnce params node_nack (c, f) >>= g) es (.note x p)) :
    ∃ es' es'' f', es = es' ++ es'' ∧ Awaits (livePeers params node_nack) es' ∧
      (∀ j, (f' j).isSome ↔ j ∈ livePeers params node_nack ∨ (f j).isSome) ∧
      Follows (g (c + (livePeers params node_nack).length, f')) es'' (.note x p) := by
  unfold collectOnce at h
  generalize livePeers params node_nack = L at h ⊢
  induction L generalizing c f es with
  | nil => exact ⟨[], es, f, rfl, .nil, by simp, h⟩
  | cons i L ih =>
    rw [List.foldlM_cons, bind_assoc, bind_assoc] at h
    obtain ⟨m, y, es₁, rfl, hrest⟩ := note_getSerialMsgWait h
    rw [pure_bind] at hrest
    obtain ⟨es', es'', f', rfl, hes', hf', hrest⟩ := ih hrest
    refine ⟨.got i (.got m) :: es', es'', f', rfl, .cons ⟨m, rfl⟩ hes', fun j => ?_, ?_⟩
    · rw [hf']
      by_cases hj : j = i
      · subst hj; simp
      · simp [hj]
    · rw [List.length_cons, Nat.add_comm L.length, ← Nat.add_assoc]
      exact hrest

/-- The turn with the shares `share j` of the live peers. -/
theorem follows_collectOnce (share : ℕ → F.DCRTPoly) (c : ℕ) (f : ℕ → Option F.DCRTPoly) :
    Follows (E := Note F) (collectOnce params node_nack (c, f))
      ((livePeers params node_nack).map fun j => .got j (.got (shareMsg (share j))))
      (.ret (c + (livePeers params node_nack).length, (livePeers params node_nack).foldl
        (fun f j => Function.update f j (some (share j))) f)) := by
  have hfold : ∀ (L : List ℕ) (st : ℕ × (ℕ → Option F.DCRTPoly)),
      L.foldl (fun st j => (st.1 + 1, Function.update st.2 j (some (share j)))) st =
        (st.1 + L.length, L.foldl (fun f j => Function.update f j (some (share j))) st.2) := by
    intro L
    induction L with
    | nil => exact fun _ => rfl
    | cons j L ih =>
      intro st
      rw [List.foldl_cons, ih, List.foldl_cons, List.length_cons]
      simp only [Prod.mk.injEq, and_true]
      omega
  rw [List.map_eq_flatMap, ← hfold _ (c, f)]
  refine Follows.foldlM (fun j _ st => ?_) _
  exact follows_getSerialMsgWait (.nil _)

theorem collectShares_turn {c : ℕ} (hc : c < threshold params.num_of_nodes) (turns : ℕ) :
    (collectShares params node_nack (turns + 1) (c, f) : NodeM F (Note F) _) =
      collectOnce params node_nack (c, f) >>= collectShares params node_nack turns :=
  if_pos hc

theorem collectShares_done {c : ℕ} (hc : threshold params.num_of_nodes ≤ c) (turns : ℕ) :
    (collectShares params node_nack (turns + 1) (c, f) : NodeM F (Note F) _) = pure f :=
  if_neg (by omega)

/-- Without a live peer the loop goes on for ever. -/
theorem collectShares_spin (hL : livePeers params node_nack = []) {c : ℕ}
    (hc : c < threshold params.num_of_nodes) (turns : ℕ) :
    (collectShares params node_nack turns (c, f) : NodeM F (Note F) _) = .spin := by
  induction turns with
  | zero => rfl
  | succ turns ih =>
    rw [collectShares_turn hc, collectOnce, hL, List.foldlM_nil, pure_bind, ih]

end

/-! ## The call of `RecoverSharedKey` -/

/-- The call, and what is after it. -/
def callRecover (params : ClientParams) (cc : F.CryptoContext) (recoveryShares : ℕ → Option F.DCRTPoly) :
    NodeM F (Note F) (F.SecretKey × (ℕ → Option F.DCRTPoly)) :=
  .note (.recoverSharedKey recoveryShares) <|
    match F.recoverSharedKey cc recoveryShares params.num_of_nodes
        (threshold params.num_of_nodes) with
    | some recovered_sk => pure (recovered_sk, recoveryShares)
    | none => .fail "RecoverSharedKey"

theorem recoverDroppedSecret_eq : recoverDroppedSecret params cc node_nack f =
    collectShares params node_nack (threshold params.num_of_nodes) (1, f) >>=
      callRecover params cc := rfl

/-- There is one call. -/
theorem note_callRecover {es : List (Event ℕ (MessageFormat F) (Note F))}
    {shares : ℕ → Option F.DCRTPoly} {p : NodeM F (Note F) (F.SecretKey × (ℕ → Option F.DCRTPoly))}
    (h : Follows (callRecover params cc f) es (.note (.recoverSharedKey shares) p)) :
    es = [] ∧ shares = f := by
  cases h with
  | nil => exact ⟨rfl, rfl⟩
  | note h =>
    split at h
    · cases h
    · cases h

/-- More than half of the nodes are left. -/
theorem Drop.enough_iff (h : Drop params node_nack) :
    threshold params.num_of_nodes ≤ 1 + (livePeers params node_nack).length ↔
      params.num_of_nodes % 2 = 1 ∨ node_nack.length < params.num_of_nodes / 2 := by
  have hlen := h.length_livePeers
  have hcheck := h.check
  unfold threshold at *
  omega

/-- One node alone has no peers. -/
theorem Drop.livePeers_eq_nil (h : Drop params node_nack) (ht : ¬ 1 < threshold params.num_of_nodes) :
    livePeers params node_nack = [] := by
  have hlen := h.length_livePeers
  have hnode := h.isNode
  unfold threshold at ht
  exact List.length_eq_zero_iff.mp (by omega)

theorem threshold_eq {N : ℕ} (ht : 1 < threshold N) : ∃ n, threshold N = n + 1 + 1 :=
  ⟨threshold N - 2, by omega⟩

/-- Enough nodes are left: one turn is enough. -/
theorem Drop.note_recoverDroppedSecret (h : Drop params node_nack)
    (he : threshold params.num_of_nodes ≤ 1 + (livePeers params node_nack).length)
    {es : List (Event ℕ (MessageFormat F) (Note F))} {shares : ℕ → Option F.DCRTPoly}
    {p : NodeM F (Note F) (F.SecretKey × (ℕ → Option F.DCRTPoly))}
    (hcall : Follows (recoverDroppedSecret params cc node_nack f) es
      (.note (.recoverSharedKey shares) p)) :
    Awaits (livePeers params node_nack) es ∧
      ∀ j, (shares j).isSome ↔ j ∈ livePeers params node_nack ∨ (f j).isSome := by
  rw [recoverDroppedSecret_eq] at hcall
  by_cases ht : 1 < threshold params.num_of_nodes
  · obtain ⟨n, hn⟩ := threshold_eq ht
    rw [hn, collectShares_turn ht, bind_assoc] at hcall
    obtain ⟨es', es'', f', rfl, hes', hf', hcall⟩ := note_collectOnce hcall
    rw [collectShares_done he, pure_bind] at hcall
    obtain ⟨rfl, rfl⟩ := note_callRecover hcall
    rw [List.append_nil]
    exact ⟨hes', hf'⟩
  · rw [h.livePeers_eq_nil ht]
    rw [threshold, collectShares_done (by omega), pure_bind] at hcall
    obtain ⟨rfl, rfl⟩ := note_callRecover hcall
    exact ⟨.nil, by simp⟩

/-- Enough nodes are left: with a share from each live peer the call is reached. -/
theorem Drop.follows_recoverDroppedSecret (h : Drop params node_nack)
    (he : threshold params.num_of_nodes ≤ 1 + (livePeers params node_nack).length)
    (cc : F.CryptoContext) (f : ℕ → Option F.DCRTPoly) (share : ℕ → F.DCRTPoly) : ∃ shares,
      Follows (recoverDroppedSecret params cc node_nack f)
        ((livePeers params node_nack).map fun j => .got j (.got (shareMsg (share j))))
        (callRecover params cc shares) := by
  rw [recoverDroppedSecret_eq]
  by_cases ht : 1 < threshold params.num_of_nodes
  · obtain ⟨n, hn⟩ := threshold_eq ht
    rw [hn, collectShares_turn ht, bind_assoc, ← List.append_nil (List.map _ _)]
    refine ⟨(livePeers params node_nack).foldl (fun f j => Function.update f j (some (share j))) f,
      (follows_collectOnce share 1 f).bind ?_⟩
    rw [collectShares_done he, pure_bind]
    exact .nil _
  · rw [h.livePeers_eq_nil ht, threshold, collectShares_done (by omega), pure_bind]
    exact ⟨f, .nil _⟩

/-- With exactly half of the nodes left, a second turn of the live peers comes before the call. -/
theorem Drop.follows_recoverDroppedSecret_twice (h : Drop params node_nack)
    (he : ¬ threshold params.num_of_nodes ≤ 1 + (livePeers params node_nack).length)
    (hL : livePeers params node_nack ≠ []) (cc : F.CryptoContext) (f : ℕ → Option F.DCRTPoly)
    (share : ℕ → F.DCRTPoly) : ∃ shares,
      Follows (recoverDroppedSecret params cc node_nack f)
        (((livePeers params node_nack).map fun j => .got j (.got (shareMsg (share j)))) ++
          (livePeers params node_nack).map fun j => .got j (.got (shareMsg (share j))))
        (callRecover params cc shares) := by
  have hlen := h.length_livePeers
  have hcheck := h.check
  have hpos := List.length_pos_iff.mpr hL
  obtain ⟨n, hn⟩ : ∃ n, threshold params.num_of_nodes = n + 1 + 1 + 1 :=
    ⟨threshold params.num_of_nodes - 3, by unfold threshold at *; omega⟩
  let turn f := (livePeers params node_nack).foldl
    (fun f j => Function.update f j (some (share j))) f
  refine ⟨turn (turn f), ?_⟩
  rw [recoverDroppedSecret_eq, hn, collectShares_turn (by omega), bind_assoc]
  refine (follows_collectOnce share 1 f).bind ?_
  rw [collectShares_turn (by omega), bind_assoc, ← List.append_nil (List.map _ _)]
  refine (follows_collectOnce share _ (turn f)).bind ?_
  rw [collectShares_done (by unfold threshold at *; omega), pure_bind]
  exact .nil _

/-! ## When one turn is enough -/

theorem awaited_map (share : ℕ → F.DCRTPoly) (L : List ℕ) (j : ℕ) :
    (L.map fun j => (Event.got j (.got (shareMsg (share j))) :
      Event ℕ (MessageFormat F) (Note F))).filterMap (·.takenFrom j) =
      List.replicate (L.count j) (.got (shareMsg (share j))) := by
  induction L with
  | nil => rfl
  | cons i L ih =>
    rw [List.map_cons, List.filterMap_cons, takenFrom_got, ih]
    by_cases hij : i = j
    · subst hij
      simp [List.replicate_succ]
    · simp [hij]

theorem count_livePeers (j : ℕ) : (livePeers params node_nack).count j =
    if j ∈ livePeers params node_nack then 1 else 0 := by
  split
  · next hj => exact List.count_eq_one_of_mem nodup_livePeers hj
  · next hj => exact List.count_eq_zero_of_not_mem hj

theorem Drop.collects (h : Drop params node_nack) (hf : (f params.node_id).isSome)
    (he : threshold params.num_of_nodes ≤ 1 + (livePeers params node_nack).length) :
    Collects params cc node_nack f := by
  refine ⟨fun es shares p hcall => ?_, fun share => ?_⟩
  · obtain ⟨hes, hshares⟩ := h.note_recoverDroppedSecret he hcall
    refine ⟨?_, fun j => by rw [hes.awaited_eq, count_livePeers]⟩
    have hsub : (params.node_id :: livePeers params node_nack).toFinset ⊆
        holders params node_nack shares := by
      intro j hj
      simp only [List.mem_toFinset, List.mem_cons] at hj
      simp only [holders, Finset.mem_filter, Finset.mem_Icc]
      rcases hj with rfl | hj
      · exact ⟨h.isNode, h.self, (hshares _).mpr (.inr hf)⟩
      · have hmem := mem_livePeers.mp hj
        exact ⟨⟨hmem.1.1, hmem.1.2.1⟩, hmem.2, (hshares j).mpr (.inl hj)⟩
    have hnodup : (params.node_id :: livePeers params node_nack).Nodup :=
      List.nodup_cons.mpr ⟨by simp [mem_livePeers], nodup_livePeers⟩
    have hcard := Finset.card_le_card hsub
    rw [List.toFinset_card_of_nodup hnodup, List.length_cons] at hcard
    omega
  · obtain ⟨shares, hcall⟩ := h.follows_recoverDroppedSecret he cc f (share · 0)
    refine ⟨_, shares, _, hcall, fun j => ⟨(livePeers params node_nack).count j, ?_⟩⟩
    rw [awaited_map (share · 0), count_livePeers]
    split <;> rfl

theorem Drop.not_collects (h : Drop params node_nack)
    (he : ¬ threshold params.num_of_nodes ≤ 1 + (livePeers params node_nack).length)
    (share : F.DCRTPoly) : ¬ Collects params cc node_nack f := by
  intro hc
  have hlen := h.length_livePeers
  by_cases hL : livePeers params node_nack = []
  · -- No live peer: the call is not reached.
    obtain ⟨es, shares, p, hcall, -⟩ := hc.calls fun _ _ => share
    have hnode := h.isNode
    rw [recoverDroppedSecret_eq, collectShares_spin hL (by simp [hL] at he; omega)] at hcall
    cases hcall
  · obtain ⟨shares, hcall⟩ := h.follows_recoverDroppedSecret_twice he hL cc f fun _ => share
    obtain ⟨j, hj⟩ := List.exists_mem_of_ne_nil _ hL
    have honce := (hc.atCall _ _ _ hcall).once j
    rw [awaited, List.filterMap_append, awaited_map fun _ => share, count_livePeers, if_pos hj] at honce
    simp at honce

/-- **Enough shares before the recovery.** -/
theorem collects_iff (h : Drop params node_nack) (recoveryShares : ℕ → Option F.DCRTPoly)
    (share : F.DCRTPoly) :
    Collects params cc node_nack (Function.update recoveryShares params.node_id (some share)) ↔
      params.num_of_nodes % 2 = 1 ∨ node_nack.length < params.num_of_nodes / 2 := by
  rw [← h.enough_iff]
  constructor
  · intro hc
    by_contra he
    exact h.not_collects he share hc
  · exact h.collects (by simp)

/-- Three nodes, one of them dropped. -/
theorem collects_three : Drop ⟨3, 1, .add, false, []⟩ [2] ∧ ∀ recoveryShares,
    Collects (F := OpenFHE.ideal) ⟨3, 1, .add, false, []⟩ (.bfvrns 65537 4 16 30 60) [2]
      (Function.update recoveryShares 1 (some (0 : ℤ))) := by
  have h : Drop ⟨3, 1, .add, false, []⟩ [2] :=
    ⟨by decide, by decide, by decide, by decide, by decide⟩
  exact ⟨h, fun recoveryShares => (collects_iff h recoveryShares (0 : ℤ)).mpr (by decide)⟩

/-- Four nodes, two of them dropped. -/
theorem not_collects_four : ¬ ∀ node_nack, Drop ⟨4, 1, .add, false, []⟩ node_nack →
    Collects (F := OpenFHE.ideal) ⟨4, 1, .add, false, []⟩ (.bfvrns 65537 4 16 30 60) node_nack
      (Function.update (fun _ => none) 1 (some (0 : ℤ))) := by
  intro h
  have hdrop : Drop ⟨4, 1, .add, false, []⟩ [2, 3] :=
    ⟨by decide, by decide, by decide, by decide, by decide⟩
  exact hdrop.not_collects (F := OpenFHE.ideal) (by decide) (0 : ℤ) (h [2, 3] hdrop)

end Aborts

end P2P

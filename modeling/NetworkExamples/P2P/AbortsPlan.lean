import NetworkExamples.P2P.AbortsSetup

/-!
# The run of the threshold network after the abort point

After the abort point the survivors exchange their partial decryptions (`decryptScript`): each
survivor's `node_nack` is the list of the nodes that have exited, in order (`dropped`), if
time-outs fire only for these. What follows depends on how many nodes are left: a `Tail` is what
the survivors do then, up to where they end or wait for ever. Each tail makes a plan for the whole
run (`Tail.runs`).
-/

namespace P2P

open Fifo

namespace Aborts

variable {F : OpenFHE}

namespace Setting

variable (S : Setting F)

/-- A node that does not exit. -/
abbrev Survivor (i : ℕ) : Prop := S.IsNode i ∧ i ∉ S.D

def resultCT : F.Ciphertext :=
  match S.compute_operation with
  | .multiply => F.evalMultMany S.cc (evalMultAddskAll F S.cc S.rand S.N 1) S.cipherTexts
  | .add => F.evalAddMany S.cc S.cipherTexts
  | .vectorsum => F.evalSum S.cc (evalSumKeys1 F S.cc S.rand S.N) (S.cipherText 1) 16

/-- The partial decryption of node `i`. -/
def partialCT (i : ℕ) : F.Ciphertext :=
  if i = 1 then F.multipartyDecryptLead S.cc (S.rand i) S.resultCT (S.sk i)
  else F.multipartyDecryptMain S.cc (S.rand i) S.resultCT (S.sk i)

def partialMsg (i : ℕ) : MessageFormat F :=
  ⟨"partialciphertext", Kind.ciphertexts.ser [S.partialCT i]⟩

/-- The nodes that have exited, in order. -/
def dropped : List ℕ := (List.range' 1 S.N).filter (· ∈ S.D)

/-- The partial decryptions of the survivors. -/
def liveVec : List (Option F.Ciphertext) :=
  (List.range' 1 S.N).map fun j => if j ∈ S.D then none else some (S.partialCT j)

/-- What a survivor receives from node `j`. -/
def partialReply (j : ℕ) : Reply (MessageFormat F) :=
  if j ∈ S.D then .timedOut else .got (S.partialMsg j)

/-- The exchange of the partial decryptions. -/
def decryptScript (i : ℕ) : Script ℕ (MessageFormat F) (Note F) :=
  if S.Survivor i then
    ((S.peers i).map fun d => (0, .sent d (S.partialMsg i) true)) ++
      (others S.N i).map fun j => (1, .got j (S.partialReply j))
  else []

/-- What a client does with the partial decryptions, to its result. -/
def rest (i : ℕ) : NodeM F (Note F) (Option F.Plaintext) := do
  let pt ← finish (S.rand i) (S.params i) (S.ready i) S.resultCT ⟨S.dropped, S.liveVec⟩
  pure (some pt)

/-- A survivor at `p` has ended, or waits for ever: in the loop without live peers, for a message,
or for a node that has exited to take its message. -/
inductive Ends (p : NodeM F (Note F) (Option F.Plaintext)) : Prop
  | halted (h : p.halted = true)
  | spin (h : p = .spin)
  | waits (h : p.Waits)
  | send {d : ℕ} {m : MessageFormat F} {k : NodeM F (Note F) (Option F.Plaintext)} (hd : d ∈ S.D)
      (h : p = .send d m false k)

/-- **A tail**: what the survivors do with the partial decryptions. -/
structure Tail where
  script : ℕ → Script ℕ (MessageFormat F) (Note F)
  time : ℕ
  stop : ℕ → NodeM F (Note F) (Option F.Plaintext)
  phase : Phase script time
  quiet : ∀ i, ¬ S.Survivor i → script i = []
  follows : ∀ i, S.Survivor i → Follows (S.rest i) (script i).events (stop i)
  ends : ∀ i, S.Survivor i → S.Ends (stop i)

/-- A tail from the ends of its programs. -/
theorem Tail.exists {script : ℕ → Script ℕ (MessageFormat F) (Note F)} {time : ℕ}
    (phase : Phase script time) (quiet : ∀ i, ¬ S.Survivor i → script i = [])
    (h : ∀ i, S.Survivor i → ∃ q, Follows (S.rest i) (script i).events q ∧ S.Ends q) :
    ∃ t : S.Tail, t.script = script := by
  have h' : ∀ i, ∃ q, S.Survivor i → Follows (S.rest i) (script i).events q ∧ S.Ends q := by
    intro i
    by_cases hi : S.Survivor i
    · obtain ⟨q, hq⟩ := h i hi
      exact ⟨q, fun _ => hq⟩
    · exact ⟨.spin, fun hs => absurd hs hi⟩
  choose stop hstop using h'
  exact ⟨⟨script, time, stop, phase, quiet, fun i hi => (hstop i hi).1,
    fun i hi => (hstop i hi).2⟩, rfl⟩

variable {S} {i : ℕ}

/-! ## The exchange of the partial decryptions -/

theorem mem_dropped {d : ℕ} : d ∈ S.dropped ↔ d ∈ S.D := by
  simp only [dropped, List.mem_filter, List.mem_range'_1, decide_eq_true_eq, and_iff_right_iff_imp]
  intro hd
  have := S.mem_nodes d hd
  omega

theorem compute_eq :
    compute S.cc S.insertedKeys S.cipherTexts = (pure S.resultCT : NodeM F (Note F) _) := by
  unfold compute insertedKeys resultCT
  cases S.compute_operation with
  | multiply => rfl
  | add => rfl
  | vectorsum =>
    obtain ⟨n, hn⟩ : ∃ n, S.N = n + 1 := ⟨S.N - 1, by have := S.two_le; omega⟩
    have hh : S.cipherTexts.head? = some (S.cipherText 1) := by
      simp [cipherTexts, hn, List.range'_succ]
    simp only [hh, nonNull_bind]

variable (S) in
/-- One step of a survivor's receive loop. -/
def receiveStep (st : Partials F) (j : ℕ) : Partials F :=
  if j ∈ S.D then { st with node_nack := st.node_nack ++ [j] }
  else { st with vec := st.vec.set (j - 1) (some (S.partialCT j)) }

theorem foldl_receiveStep {n : ℕ} (hn : n ≤ S.N) :
    (List.range' 1 n).foldl S.receiveStep ⟨[], List.replicate S.N none⟩ =
      ⟨(List.range' 1 n).filter (· ∈ S.D),
        ((List.range' 1 n).map fun j => if j ∈ S.D then none else some (S.partialCT j)) ++
          List.replicate (S.N - n) none⟩ := by
  induction n with
  | zero => simp
  | succ n ih =>
    have hrep : List.replicate (S.N - n) (none : Option F.Ciphertext) =
        none :: List.replicate (S.N - (n + 1)) none := by
      rw [← List.replicate_succ]; congr 1; omega
    rw [List.range'_1_concat, List.foldl_append, ih (by omega), hrep]
    by_cases hd : 1 + n ∈ S.D
    · simp [receiveStep, hd]
    · simp [receiveStep, hd, List.set_append_right]

theorem follows_receivePartials (hi : S.Survivor i) :
    Follows (receivePartials (S.params i) (S.partialCT i))
      ((others S.N i).map fun j => .got j (S.partialReply j))
      (.ret ⟨S.dropped, S.liveVec⟩) := by
  have hfold := foldl_receiveStep (S := S) le_rfl
  rw [Nat.sub_self, List.replicate_zero, List.append_nil] at hfold
  rw [dropped, liveVec, ← hfold, others_map]
  refine Follows.foldlM (fun j _ st => ?_) _
  unfold receivePartial
  by_cases hij : i = j
  · subst hij
    rw [if_neg (by simp), if_neg (by simp), receiveStep, if_neg hi.2]
    exact .nil _
  · rw [if_pos hij, if_pos (by exact hij), receiveStep, partialReply]
    by_cases hj : j ∈ S.D
    · rw [if_pos hj, if_pos hj]
      exact follows_getMsgWait_late (by decide) (.nil _)
    · rw [if_neg hj, if_neg hj]
      refine follows_getMsgWait (by simp [selects, partialMsg]) ?_
      simp only [partialMsg, Kind.deserialize_ser]
      exact .nil _

/-- The client after the abort point follows the exchange, then does `rest`. -/
theorem follows_decrypt (hi : S.Survivor i) :
    Follows (decrypt (S.rand i) (S.params i) (S.ready i) >>= fun pt => pure (some pt))
      (S.decryptScript i).events (S.rest i) := by
  have hev : (S.decryptScript i).events =
      ((S.readyNode i).connectedAddresses.map fun d => .sent d (S.partialMsg i) true) ++
        (((others S.N i).map fun j => .got j (S.partialReply j)) ++ []) := by
    rw [decryptScript, if_pos hi]
    simp [Function.comp_def, readyNode, node]
  rw [hev]
  simp only [decrypt, ready, compute_eq, pure_bind, bind_assoc]
  refine follows_broadcastSerialMsg ?_
  exact (follows_receivePartials hi).bind (.nil _)

theorem sents_decryptScript (a b : ℕ) : sents (S.decryptScript a) b =
    if S.Survivor a ∧ b ∈ S.peers a then [(0, S.partialMsg a, true)] else [] := by
  unfold decryptScript
  by_cases ha : S.Survivor a
  · rw [if_pos ha, sents_append, sents_map (S.mesh.nodup a ha.1), sents_map_got, List.append_nil]
    exact (if_congr (and_iff_right ha) rfl rfl).symm
  · rw [if_neg ha, if_neg fun h => ha h.1]
    rfl

theorem takes_decryptScript (a b : ℕ) : takes (S.decryptScript b) a =
    if S.Survivor b ∧ a ∈ others S.N b then [(1, S.partialReply a)] else [] := by
  unfold decryptScript
  by_cases hb : S.Survivor b
  · rw [if_pos hb, takes_append, takes_map_sent, List.nil_append, takes_map_reply
      (nodup_others _ _)]
    exact (if_congr (and_iff_right hb) rfl rfl).symm
  · rw [if_neg hb, if_neg fun h => hb h.1]
    rfl

/-! ## The whole run -/

namespace Tail

variable (t : S.Tail)

/-- **What node `i` does in the whole run.** -/
def fullScript (i : ℕ) : Script ℕ (MessageFormat F) (Note F) :=
  S.setupScript i ++ shift S.setupTime (S.decryptScript i ++ shift 2 (t.script i))

/-- The program of node `i` at the end of the run. -/
def fullStop (i : ℕ) : NodeM F (Note F) (Option F.Plaintext) :=
  if S.Survivor i then t.stop i
  else if S.IsNode i then .ret none else .fail "no node"

/-- The plan of the whole run. -/
def plan : Plan ℕ (MessageFormat F) (Note F) (Option F.Plaintext) where
  script := t.fullScript
  stop := t.fullStop
  left _ b := if (t.fullStop b).halted then none else some []

theorem fullStop_halted (hi : ¬ S.Survivor i) : (t.fullStop i).halted = true := by
  rw [fullStop, if_neg hi]
  split <;> rfl

theorem follows_full (hi : S.Survivor i) :
    Follows (S.network i) (t.fullScript i).events (t.fullStop i) := by
  rw [network, if_pos hi.1, fullStop, if_pos hi, fullScript]
  simp only [List.map_append, events_shift, main]
  refine (follows_setup hi.1).bind ?_
  rw [if_neg (by simpa [params] using hi.2)]
  exact (follows_decrypt hi).append (t.follows i hi)

theorem follows_exit (hi : S.IsNode i) (hd : i ∈ S.D) :
    Follows (S.network i) (t.fullScript i).events (t.fullStop i) := by
  have hs : ¬ S.Survivor i := fun h => h.2 hd
  rw [network, if_pos hi, fullStop, if_neg hs, if_pos hi, fullScript, decryptScript, if_neg hs,
    t.quiet i hs]
  simp only [List.map_append, events_shift, shift_nil, List.map_nil, main]
  refine (follows_setup hi).bind ?_
  rw [if_pos (by simpa [params] using hd)]
  exact .nil _

theorem fullScript_outside (hi : ¬ S.IsNode i) : t.fullScript i = [] := by
  have hs : ¬ S.Survivor i := fun h => hi h.1
  simp [fullScript, setupScript_outside hi, decryptScript, if_neg hs, t.quiet i hs]

/-- The queues of the tail. -/
theorem wire_tail (a b : ℕ) :
    Wire (sents (shift 2 (t.script a)) b) (takes (shift 2 (t.script b)) a) := by
  rw [sents_shift, takes_shift]
  exact (t.phase.wire a b).shift 2

theorem unread_nil (a b : ℕ) : Unread (t.plan.left a b) [] := by
  simp only [plan]
  split
  · intro x hx
    cases hx
  · rfl

/-- Between survivors each partial decryption arrives. -/
theorem chan_survivors {a b : ℕ} (ha : S.Survivor a) (hb : S.Survivor b) :
    Chan (t.plan.left a b) (sents (S.decryptScript a) b ++ sents (shift 2 (t.script a)) b)
      (takes (S.decryptScript b) a ++ takes (shift 2 (t.script b)) a) := by
  have hchan := (t.wire_tail a b).chan (.nil (t.unread_nil a b))
  rw [List.append_nil, List.append_nil] at hchan
  have hmem : b ∈ S.peers a ↔ a ∈ others S.N b := by
    rw [mem_peers ha.1, mem_others]
    omega
  rw [sents_decryptScript, takes_decryptScript]
  by_cases hab : b ∈ S.peers a
  · have hreply : S.partialReply a = .got (S.partialMsg a) := if_neg ha.2
    rw [if_pos ⟨ha, hab⟩, if_pos ⟨hb, hmem.mp hab⟩, hreply]
    exact .got Nat.zero_lt_one hchan
  · rw [if_neg fun h => hab h.2, if_neg fun h => hab (hmem.mpr h.2)]
    exact hchan

/-- A survivor waits for a node that has exited in vain. -/
theorem chan_exited_sender {a : ℕ} (ha : ¬ S.Survivor a) (b : ℕ) :
    Chan (t.plan.left a b) (sents (S.decryptScript a) b ++ sents (shift 2 (t.script a)) b)
      (takes (S.decryptScript b) a ++ takes (shift 2 (t.script b)) a) := by
  have hwire := t.wire_tail a b
  rw [t.quiet a ha] at hwire ⊢
  have htakes : takes (shift 2 (t.script b)) a = [] := List.forall₂_nil_left_iff.mp hwire
  rw [sents_decryptScript, takes_decryptScript, if_neg fun h => ha h.1, htakes, List.append_nil]
  split
  · next h =>
    have hd : a ∈ S.D := by
      by_contra hd
      have hnode := mem_others.mp h.2
      exact ha ⟨by omega, hd⟩
    rw [partialReply, if_pos hd]
    exact .late (.nil (t.unread_nil a b))
  · exact .nil (t.unread_nil a b)

/-- A message to a node that has exited is sent with a time-out. -/
theorem chan_exited_receiver {b : ℕ} (a : ℕ) (hb : ¬ S.Survivor b) :
    Chan (t.plan.left a b) (sents (S.decryptScript a) b ++ sents (shift 2 (t.script a)) b)
      (takes (S.decryptScript b) a ++ takes (shift 2 (t.script b)) a) := by
  have hwire := t.wire_tail a b
  rw [t.quiet b hb] at hwire ⊢
  have hsents : sents (shift 2 (t.script a)) b = [] := List.forall₂_nil_right_iff.mp hwire
  have hleft : t.plan.left a b = none := if_pos (t.fullStop_halted hb)
  rw [takes_decryptScript, if_neg fun h => hb h.1, sents_decryptScript, hsents, hleft,
    List.append_nil]
  refine .nil ?_
  intro x hx
  split at hx
  · rw [List.mem_singleton.mp hx]
  · cases hx

/-- The queues of the exchange of the partial decryptions and of the tail. -/
theorem chan_decrypt (a b : ℕ) :
    Chan (t.plan.left a b) (sents (S.decryptScript a ++ shift 2 (t.script a)) b)
      (takes (S.decryptScript b ++ shift 2 (t.script b)) a) := by
  rw [sents_append, takes_append]
  by_cases hb : S.Survivor b
  · by_cases ha : S.Survivor a
    · exact t.chan_survivors ha hb
    · exact t.chan_exited_sender ha b
  · exact t.chan_exited_receiver a hb

theorem decryptScript_sorted (i : ℕ) : (S.decryptScript i).Pairwise (·.1 ≤ ·.1) := by
  unfold decryptScript
  split
  · refine sorted_two (t := 0) (u := 1) (fun e he => ?_) (fun e he => ?_) (Nat.zero_le _)
    · obtain ⟨x, -, rfl⟩ := List.mem_map.mp he; rfl
    · obtain ⟨x, -, rfl⟩ := List.mem_map.mp he; rfl
  · exact .nil

theorem decryptScript_bound {e : ℕ × Event ℕ (MessageFormat F) (Note F)}
    (he : e ∈ S.decryptScript i) : e.1 < 2 := by
  obtain ⟨-, he⟩ := mem_ite_nil he
  rcases List.mem_append.mp he with he | he
  · obtain ⟨x, -, rfl⟩ := List.mem_map.mp he; exact Nat.zero_lt_two
  · obtain ⟨x, -, rfl⟩ := List.mem_map.mp he; exact Nat.one_lt_two

theorem fullScript_sorted (i : ℕ) : (t.fullScript i).Pairwise (·.1 ≤ ·.1) := by
  refine setupScript_phase.sorted_append ?_
  refine List.pairwise_append.mpr ⟨decryptScript_sorted i, sorted_shift (t.phase.sorted i),
    fun x hx y hy => ?_⟩
  obtain ⟨u, -, hu⟩ := mem_shift.mp hy
  have := decryptScript_bound hx
  omega

/-- A survivor's wait times out only for a node that has exited, after all its actions. -/
theorem late {u a : ℕ} (h : (u, .got a .timedOut) ∈ t.fullScript i) :
    a ∈ S.D ∧ ∀ e ∈ t.fullScript a, e.1 < u := by
  rcases List.mem_append.mp h with h | h
  · exact absurd h (setupScript_phase.late_notMem i a u)
  · obtain ⟨v, hv, hu⟩ := mem_shift.mp h
    rcases List.mem_append.mp hv with hv | hv
    · obtain ⟨hi, hv⟩ := mem_ite_nil hv
      rcases List.mem_append.mp hv with hv | hv
      · obtain ⟨x, -, hx⟩ := List.mem_map.mp hv; cases hx
      · obtain ⟨x, -, hx⟩ := List.mem_map.mp hv
        simp only [Prod.mk.injEq, Event.got.injEq] at hx
        obtain ⟨rfl, rfl, hr⟩ := hx
        have hd : x ∈ S.D := by
          by_contra hd
          rw [partialReply, if_neg hd] at hr
          cases hr
        have hs : ¬ S.Survivor x := fun h => h.2 hd
        refine ⟨hd, fun e he => ?_⟩
        rw [fullScript, decryptScript, if_neg hs, t.quiet x hs] at he
        have := setupScript_phase.bound x e (by simpa using he)
        simp only at hu
        omega
    · obtain ⟨w, hw, -⟩ := mem_shift.mp hv
      exact absurd hw (t.phase.late_notMem i a w)

theorem late_mem (hi : S.Survivor i) {d : ℕ} (hd : d ∈ S.D) :
    ∃ u, (u, .got d .timedOut) ∈ t.fullScript i := by
  refine ⟨S.setupTime + 1, List.mem_append_right _ (mem_shift.mpr ⟨1, ?_, rfl⟩)⟩
  refine List.mem_append_left _ ?_
  rw [decryptScript, if_pos hi]
  refine List.mem_append_right _ (List.mem_map.mpr ⟨d, ?_, ?_⟩)
  · have := S.mem_nodes d hd
    exact mem_others.mpr ⟨this.1, this.2, fun h => hi.2 (h ▸ hd)⟩
  · rw [partialReply, if_pos hd]

/-- **The whole run goes by the plan**: the setup, the exchange of the partial decryptions, and
the tail. -/
theorem runs : t.plan.Runs (Finset.Icc 1 S.N) S.network where
  fits := by
    refine ⟨t.fullScript_sorted, fun a b => ?_, fun i u a h => ?_⟩
    · refine setupScript_phase.chan_append (τ := fun i => S.decryptScript i ++ shift 2 (t.script i)) ?_
      rw [sents_shift, takes_shift]
      exact (t.chan_decrypt a b).shift _
    · obtain ⟨hd, hlt⟩ := t.late h
      exact ⟨t.fullStop_halted fun hs => hs.2 hd, hlt⟩
  follows i := by
    by_cases hi : S.IsNode i
    · by_cases hd : i ∈ S.D
      · exact t.follows_exit hi hd
      · exact t.follows_full ⟨hi, hd⟩
    · have hs : ¬ S.Survivor i := fun h => hi h.1
      simp only [plan]
      rw [t.fullScript_outside hi, fullStop, if_neg hs, if_neg hi, network, if_neg hi]
      exact .nil _
  halts a b h := if_pos h
  inert i := by
    by_cases hi : S.Survivor i
    · have hst : t.fullStop i = t.stop i := if_pos hi
      rcases t.ends i hi with h | h | ⟨a, sel, k, h⟩ | ⟨hd, h⟩
      · exact .halted (by simpa only [plan, hst] using h)
      · exact .spin (by simpa only [plan, hst] using h)
      · refine .recv (by simpa only [plan, hst] using h) ?_
        simp [plan, hst, h]
      · refine .send (by simpa only [plan, hst] using h) ?_
        exact t.fullStop_halted fun hs => hs.2 hd
    · exact .halted (t.fullStop_halted hi)
  blocked i d m b k h := by
    by_cases hi : S.Survivor i
    · have hst : t.fullStop i = t.stop i := if_pos hi
      simp only [plan, hst] at h
      rcases t.ends i hi with h' | h' | ⟨a, sel, g, h'⟩ | ⟨hd, h'⟩
      · rw [h] at h'; cases h'
      · rw [h] at h'; cases h'
      · rw [h] at h'; cases h'
      · rw [h] at h'; cases h'
        exact .inl (t.late_mem hi hd)
    · have := t.fullStop_halted hi
      simp only [plan] at h
      rw [h] at this
      cases this
  outside i hi := t.fullScript_outside (by simpa using hi)

end Tail

end Setting

end Aborts

end P2P

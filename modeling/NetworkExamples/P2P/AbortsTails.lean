import NetworkExamples.P2P.AbortsRecovery

/-!
# How the runs of the threshold network end

One tail for each case of the recovery (`AbortsRecovery.lean`), and what the survivors' notes say in
it. The notes of every tail are right (`NoteOk`): a survivor enters the recovery with the list of the
nodes that have exited, the recovering node calls `RecoverSharedKey` on the shares of one node, and who
fuses does so with the vector `fusedVec`. In the cases without a recovery that ends (`¬ Recoverable`)
no survivor fuses.
-/

namespace P2P

open Fifo

namespace Aborts

variable {F : OpenFHE}

namespace Setting

section

variable (S : Setting F)

/-- The secret key of the dropped node `d` as the recovering node has it. -/
def recoveredKey (d : ℕ) : F.SecretKey := (S.recovered d).getD (S.sk d)

/-- What a note of a survivor says. -/
def NoteOk : Note F → Prop
  | .recovering node_nack => node_nack = S.dropped
  | .recoverSharedKey shares => ∃ d ∈ S.D, shares = S.recoveryShares d
  | .fusion vec => vec = S.fusedVec S.recoveredKey

/-- **The survivors get all partial decryptions**: nobody has exited, or the recovering node is
there, with enough nodes for the check of the majority and for the shares, and the keys come
back. -/
def Recoverable : Prop :=
  S.D = ∅ ∨ (1 ∉ S.D ∧ S.D.card < threshold S.N ∧ S.Enough ∧
    ∀ d ∈ S.D, S.recovered d = some (S.recoveredKey d))

end

variable {S : Setting F} {i d : ℕ} {k : ℕ → F.SecretKey}

namespace Tail

variable (t : S.Tail)

def Honest : Prop := ∀ i, ∀ x ∈ notes (t.script i), S.NoteOk x

/-- Every survivor fuses. -/
structure Fuses : Prop where
  noted : ∀ i, S.Survivor i → .fusion (S.fusedVec S.recoveredKey) ∈ notes (t.script i)
  stop : ∀ i, S.Survivor i → t.stop i = .ret (some (S.plaintext S.recoveredKey))

/-- No survivor fuses. -/
def Sticks : Prop := ∀ i vec, .fusion vec ∉ notes (t.script i)

end Tail

/-! ## The partial decryptions -/

theorem follows_fuse (k : ℕ → F.SecretKey) :
    Follows (fuse S.cc (S.fusedVec k)) [.noted (.fusion (S.fusedVec k))]
      (.ret (S.plaintext k)) := by
  have hvec : S.fusedVec k = ((List.range' 1 S.N).map (S.fusedCT k)).map some := by
    rw [List.map_map]; rfl
  unfold fuse
  refine .note ?_
  rw [hvec, mapM_nonNull]
  exact .nil _

theorem liveVec_eq_fusedVec (hD : S.D = ∅) : S.liveVec = S.fusedVec k := by
  simp [liveVec, fusedVec, fusedCT, hD]

/-- The vector with the partial decryptions of the dropped nodes `l`. -/
theorem foldl_set_liveVec (l : List ℕ) (hl : ∀ d ∈ l, 1 ≤ d) (f : ℕ → Option F.Ciphertext) :
    l.foldl (fun v d => v.set (d - 1) (some (S.abortsCT k d))) ((List.range' 1 S.N).map f) =
      (List.range' 1 S.N).map fun j => if j ∈ l then some (S.abortsCT k j) else f j := by
  induction l generalizing f with
  | nil => simp
  | cons d l ih =>
    rw [List.foldl_cons, Lists.set_map_range' _ _ _ (hl d (by simp)),
      ih fun e he => hl e (List.mem_cons_of_mem _ he)]
    refine List.map_congr_left fun j _ => ?_
    by_cases hjl : j ∈ l
    · simp [hjl]
    · by_cases hjd : j = d
      · subst hjd; simp [hjl]
      · simp [hjl, hjd]

/-- After all rounds the vector is complete. -/
theorem foldl_set_dropped :
    S.dropped.foldl (fun v d => v.set (d - 1) (some (S.abortsCT k d))) S.liveVec =
      S.fusedVec k := by
  have hl : ∀ d ∈ S.dropped, 1 ≤ d := fun d hd => (S.mem_nodes d (mem_dropped.mp hd)).1
  rw [liveVec, foldl_set_liveVec _ hl, fusedVec]
  refine List.map_congr_left fun j _ => ?_
  unfold fusedCT
  by_cases hj : j ∈ S.D
  · rw [if_pos (mem_dropped.mpr hj), if_pos hj]
  · rw [if_neg fun h => hj (mem_dropped.mp h), if_neg hj, if_neg hj]

/-! ## What the survivors do -/

theorem rest_of_none (hD : S.D = ∅) :
    S.rest i = fuse S.cc S.liveVec >>= fun pt => pure (some pt) := by
  have hnil : S.dropped = [] := by simp [dropped, hD]
  unfold rest finish recoverDropped
  rw [if_neg (by simp [hnil]), if_neg (by simp [hnil])]
  rfl

theorem rest_of_majority (h : threshold S.N ≤ S.D.card) :
    S.rest i = .fail "majority number of nodes dropped out, not enough nodes to recover" := by
  have hpos : 0 < threshold S.N := Nat.succ_pos _
  unfold rest finish
  rw [if_pos (by simp only [length_dropped, params_num_of_nodes]; omega)]
  rfl

theorem rest_of_dropped (hD : S.D.Nonempty) (h : S.D.card < threshold S.N) :
    S.rest i = .note (.recovering S.dropped) (S.dropped.foldlM (S.turn i) (fun _ => none, S.liveVec)
      >>= fun st => fuse S.cc st.2 >>= fun pt => pure (some pt)) := by
  have hne : S.dropped.length ≠ 0 := by
    rw [Ne, List.length_eq_zero_iff]
    exact dropped_ne_nil hD
  have hlt : ¬ (0 < S.dropped.length ∧ threshold S.N ≤ S.dropped.length) := by
    rw [length_dropped]; omega
  unfold rest finish recoverDropped
  rw [if_neg (by exact hlt), if_pos (by exact hne)]
  simp only [bind_assoc]
  exact congrArg (Prog.note (Note.recovering S.dropped)) (Prog.bind_assoc _ _ _)

/-! ## The notes of the scripts -/

@[simp] theorem notes_noteScript (x : Note F) (i : ℕ) :
    notes (S.noteScript x i) = if S.Survivor i then [x] else [] := by
  unfold noteScript
  split <;> rfl

@[simp] theorem notes_noteRecovering (x : Note F) (i : ℕ) :
    notes (noteRecovering x i) = if i = 1 then [x] else [] := by
  unfold noteRecovering
  split <;> rfl

@[simp] theorem notes_sharesOf (d i : ℕ) : notes (S.sharesOf d i) = [] := notes_gather _ _ _ _ _

theorem notes_roundScript (d i : ℕ) :
    notes (S.roundScript k d i) = if i = 1 then [.recoverSharedKey (S.recoveryShares d)] else [] := by
  simp [roundScript]

/-- In the rounds only the recovering node passes notes: the shares of the dropped nodes. -/
theorem mem_notes_roundsScript {x : Note F} {l : List ℕ} (h : x ∈ notes (S.roundsScript k l i)) :
    ∃ d ∈ l, x = .recoverSharedKey (S.recoveryShares d) := by
  induction l with
  | nil => simp [roundsScript] at h
  | cons d l ih =>
    rw [roundsScript, notes_append, notes_shift, notes_roundScript] at h
    rcases List.mem_append.mp h with h | h
    · obtain ⟨-, h⟩ := mem_ite_nil h
      exact ⟨d, by simp, List.mem_singleton.mp h⟩
    · obtain ⟨e, he, hx⟩ := ih h
      exact ⟨e, List.mem_cons_of_mem _ he, hx⟩

/-! ## The tails -/

/-- The recovery: the note that it begins, then `σ`. -/
def recoveryScript (S : Setting F) (σ : ℕ → Script ℕ (MessageFormat F) (Note F)) (i : ℕ) :
    Script ℕ (MessageFormat F) (Note F) :=
  S.noteScript (.recovering S.dropped) i ++ shift 1 (σ i)

theorem mem_notes_recoveryScript {σ : ℕ → Script ℕ (MessageFormat F) (Note F)} {x : Note F}
    (h : x ∈ notes (S.recoveryScript σ i)) : x = .recovering S.dropped ∨ x ∈ notes (σ i) := by
  rw [recoveryScript, notes_append, notes_shift, notes_noteScript] at h
  rcases List.mem_append.mp h with h | h
  · obtain ⟨-, h⟩ := mem_ite_nil h
    exact .inl (List.mem_singleton.mp h)
  · exact .inr h

theorem follows_recoveryScript (hD : S.D.Nonempty) (h : S.D.card < threshold S.N)
    (hi : S.Survivor i) {σ : ℕ → Script ℕ (MessageFormat F) (Note F)}
    {q : NodeM F (Note F) (Option F.Plaintext)}
    (hf : Follows (S.dropped.foldlM (S.turn i) (fun _ => none, S.liveVec)
      >>= fun st => fuse S.cc st.2 >>= fun pt => pure (some pt)) (σ i).events q) :
    Follows (S.rest i) (S.recoveryScript σ i).events q := by
  rw [rest_of_dropped hD h, recoveryScript, noteScript, if_pos hi]
  simp only [List.map_append, events_shift]
  exact .note hf

/-- Nobody has exited. -/
theorem fuseTail (hD : S.D = ∅) : ∃ t : S.Tail, t.Honest ∧ t.Fuses := by
  refine ⟨⟨S.noteScript (.fusion (S.fusedVec S.recoveredKey)), 1,
    fun _ => .ret (some (S.plaintext S.recoveredKey)), noteScript_phase _, fun i hi => if_neg hi,
    fun i hi => ?_, fun i _ => .halted rfl⟩, fun i x hx => ?_, fun i hi => ?_, fun i _ => rfl⟩
  · rw [rest_of_none hD, liveVec_eq_fusedVec (k := S.recoveredKey) hD, noteScript, if_pos hi]
    exact (follows_fuse _).bind (.nil _)
  · rw [notes_noteScript] at hx
    obtain ⟨-, hx⟩ := mem_ite_nil hx
    rw [List.mem_singleton.mp hx]
    rfl
  · simp only [notes_noteScript, if_pos hi, List.mem_singleton]

/-- The majority has exited. -/
theorem majorityTail (h : threshold S.N ≤ S.D.card) : ∃ t : S.Tail, t.Honest ∧ t.Sticks := by
  obtain ⟨t, ht⟩ : ∃ t : S.Tail, t.script = fun _ => [] :=
    Tail.exists S Phase.nil (fun _ _ => rfl) fun i _ =>
      ⟨_, by rw [rest_of_majority h]; exact .nil _, .halted rfl⟩
  exact ⟨t, fun i x hx => by simp [ht] at hx, fun i vec hx => by simp [ht] at hx⟩

/-- A tail that ends in the recovery. -/
theorem stickTail (hD : S.D.Nonempty) (h : S.D.card < threshold S.N)
    {σ : ℕ → Script ℕ (MessageFormat F) (Note F)} {T : ℕ} (hσ : Phase σ T)
    (hquiet : ∀ i, ¬ S.Survivor i → σ i = [])
    (hnotes : ∀ i, ∀ x ∈ notes (σ i), ∃ d ∈ S.D, x = .recoverSharedKey (S.recoveryShares d))
    (hf : ∀ i, S.Survivor i → ∃ q : NodeM F (Note F) (Option F.Plaintext),
      Follows (S.dropped.foldlM (S.turn i) (fun _ => none, S.liveVec)
        >>= fun st => fuse S.cc st.2 >>= fun pt => pure (some pt)) (σ i).events q ∧ S.Ends q) :
    ∃ t : S.Tail, t.Honest ∧ t.Sticks := by
  have hq : ∀ i, ¬ S.Survivor i → S.recoveryScript σ i = [] := fun i hi => by
    rw [recoveryScript, noteScript, if_neg hi, hquiet i hi]; rfl
  obtain ⟨t, ht⟩ := Tail.exists S ((noteScript_phase _).append hσ) hq fun i hi => by
    obtain ⟨q, hq, he⟩ := hf i hi
    exact ⟨q, follows_recoveryScript hD h hi hq, he⟩
  have hnote : ∀ i, ∀ x ∈ notes (t.script i), x = .recovering S.dropped ∨
      ∃ d ∈ S.D, x = .recoverSharedKey (S.recoveryShares d) := fun i x hx => by
    rw [ht] at hx
    exact (mem_notes_recoveryScript hx).imp_right (hnotes i x)
  refine ⟨t, fun i x hx => ?_, fun i vec hx => ?_⟩
  · rcases hnote i x hx with rfl | ⟨d, hd, rfl⟩
    · rfl
    · exact ⟨d, hd, rfl⟩
  · rcases hnote i _ hx with h | ⟨d, -, h⟩ <;> cases h

/-- The recovering node has exited. -/
theorem deadTail (h1 : 1 ∈ S.D) (h : S.D.card < threshold S.N) :
    ∃ t : S.Tail, t.Honest ∧ t.Sticks := by
  obtain ⟨n, hn⟩ : ∃ n, S.N = n + 1 := ⟨S.N - 1, by have := S.two_le; omega⟩
  obtain ⟨l, hl⟩ : ∃ l, S.dropped = 1 :: l := by
    refine ⟨(List.range' 2 n).filter (· ∈ S.D), ?_⟩
    rw [dropped, hn, List.range'_succ, List.filter_cons_of_pos (by simpa using h1)]
  refine stickTail ⟨1, h1⟩ h Phase.nil (fun _ _ => rfl) (fun i x hx => absurd hx (by simp))
    fun i hi => ⟨_, .nil _, ?_⟩
  have hi1 : i ≠ 1 := fun h => hi.2 (h ▸ h1)
  have hmem : 1 ∈ (S.readyNode i).connectedAddresses :=
    (mem_peers hi.1).mpr ⟨le_rfl, (one_isNode S.two_le).2, hi1.symm⟩
  rw [hl, List.foldlM_cons]
  simp only [turn, recoverOne]
  rw [if_neg (by exact hi1), recdSecretShares_eq h1 hi]
  simp only [nonNull_bind, sendSerialMsg, sendMsg]
  rw [if_pos (by exact hmem)]
  exact .send h1 (by rfl)

/-- A recovery that ends in the turn of the dropped node `d`. -/
theorem roundsTail (h1 : 1 ∉ S.D) (h : S.D.card < threshold S.N) {l l' : List ℕ}
    (hl : S.dropped = l ++ d :: l') (he : l ≠ [] → S.Enough)
    (hk : ∀ e ∈ l, S.recovered e = some (S.recoveredKey e))
    {τ : ℕ → Script ℕ (MessageFormat F) (Note F)} {T : ℕ} (hτ : Phase τ T)
    (hquiet : ∀ i, i ≠ 1 → τ i = [])
    (hnotes : ∀ i, ∀ x ∈ notes (τ i), x = .recoverSharedKey (S.recoveryShares d))
    (hf : ∀ st : (ℕ → Option F.DCRTPoly) × List (Option F.Ciphertext),
      (∀ j, j ∉ S.live → j ≠ 1 → st.1 j = none) →
      ∃ q, Follows (S.turn 1 st d) ((S.sharesOf d 1).events ++ (τ 1).events) q ∧
        ∀ g, S.Ends (q.bind g)) :
    ∃ t : S.Tail, t.Honest ∧ t.Sticks := by
  have hmem : ∀ e ∈ l ++ d :: l', e ∈ S.D := fun e he => mem_dropped.mp (hl ▸ he)
  have hd : d ∈ S.D := hmem d (by simp)
  have hphase : Phase (fun i => S.roundsScript S.recoveredKey l i ++
      shift ((2 + (1 + 2)) * l.length) (S.sharesOf d i ++ shift 2 (τ i))) _ :=
    (roundsScript_phase l).append ((sharesOf_phase d).append hτ)
  refine stickTail ⟨d, hd⟩ h hphase (fun i hi => ?_)
    (fun i x hx => ?_) fun i hi => ?_
  · have hi1 : i ≠ 1 := fun h => hi (h ▸ ⟨(one_isNode S.two_le), h1⟩)
    rw [roundsScript_quiet h1 hi, sharesOf, gather_outside _ _ (not_live_of_not_survivor hi) hi1,
      hquiet i hi1]
    rfl
  · simp only [notes_append, notes_shift, notes_sharesOf, List.nil_append] at hx
    rcases List.mem_append.mp hx with hx | hx
    · obtain ⟨e, he, hx⟩ := mem_notes_roundsScript hx
      exact ⟨e, hmem e (by simp [he]), hx⟩
    · exact ⟨d, hd, hnotes i x hx⟩
  · rw [hl, List.foldlM_append]
    simp only [List.map_append, events_shift, List.foldlM_cons, bind_assoc]
    obtain ⟨f, hf', hr⟩ : ∃ f, (∀ j, j ∉ S.live → j ≠ 1 → f j = none) ∧ ∃ v,
        Follows (l.foldlM (S.turn i) (fun _ => none, S.liveVec))
          (S.roundsScript S.recoveredKey l i).events (.ret (f, v)) := by
      by_cases hnil : l = []
      · subst hnil
        exact ⟨_, fun _ _ _ => rfl, _, .nil _⟩
      · obtain ⟨f, hf, hr⟩ := follows_rounds h1 (he hnil) hi
          (fun e he => ⟨hmem e (by simp [he]), hk e he⟩)
          (fun _ => none, S.liveVec) fun _ _ _ => rfl
        exact ⟨f, hf, _, hr⟩
    obtain ⟨v, hr⟩ := hr
    rcases survivor_cases hi with rfl | ⟨hil, hi1⟩
    · obtain ⟨q, hq, hend⟩ := hf (f, v) hf'
      exact ⟨_, hr.bind (hq.bind_left _), hend _⟩
    · obtain ⟨q, hq, hw⟩ := follows_turn_peer_waits hil hd (f, v)
      rw [hquiet i hi1, Script.events, List.map_nil, List.append_nil]
      exact ⟨_, hr.bind (hq.bind_left _), .waits (hw.bind _)⟩

/-- Too few nodes are left. -/
theorem fewTail (hD : S.D.Nonempty) (h1 : 1 ∉ S.D) (h : S.D.card < threshold S.N)
    (he : ¬ S.Enough) : ∃ t : S.Tail, t.Honest ∧ t.Sticks := by
  obtain ⟨d, l, hl⟩ := List.exists_cons_of_ne_nil (dropped_ne_nil hD)
  refine roundsTail (l := []) h1 h hl (fun h => absurd rfl h) (fun e he => absurd he (by simp))
    Phase.nil (fun _ _ => rfl) (fun i x hx => absurd hx (by simp)) fun st _ => ?_
  simp only [Script.events, List.map_nil, List.append_nil]
  by_cases hlive : S.live = []
  · rw [turn_alone hlive, sharesOf, hlive]
    exact ⟨.spin, .nil _, fun g => .spin rfl⟩
  · obtain ⟨q, hq, hw⟩ := follows_turn_few he hlive st
    exact ⟨q, hq, fun g => .waits (hw.bind g)⟩

/-- The key of a dropped node does not come back. -/
theorem throwTail (h1 : 1 ∉ S.D) (h : S.D.card < threshold S.N) (he : S.Enough) {e : ℕ}
    (heD : e ∈ S.D) (hk : S.recovered e = none) : ∃ t : S.Tail, t.Honest ∧ t.Sticks := by
  obtain ⟨d, hfind⟩ : ∃ d, S.dropped.find? (fun d => (S.recovered d).isNone) = some d :=
    Option.isSome_iff_exists.mp (List.find?_isSome.mpr ⟨e, mem_dropped.mpr heD, by simp [hk]⟩)
  obtain ⟨hd, l, l', hl, hsome⟩ := List.find?_eq_some_iff_append.mp hfind
  have hd' : S.recovered d = none := by simpa using hd
  have hdD : d ∈ S.D := mem_dropped.mp (by simp [hl])
  refine roundsTail h1 h hl (fun _ => he) (fun e he => ?_)
    (noteRecovering_phase (.recoverSharedKey (S.recoveryShares d))) (fun i hi => if_neg hi)
    (fun i x hx => ?_) fun st hst => ?_
  · obtain ⟨key, hkey⟩ := Option.isSome_iff_exists.mp (by simpa using hsome e he)
    rw [recoveredKey, hkey, Option.getD_some]
  · rw [notes_noteRecovering] at hx
    exact List.mem_singleton.mp (mem_ite_nil hx).2
  · obtain ⟨msg, hq⟩ := follows_turn_throws h1 he hdD hst hd'
    exact ⟨_, hq, fun g => .halted rfl⟩

/-- The dropped nodes' partial decryptions come back. -/
theorem recoverTail (hD : S.D.Nonempty) (h1 : 1 ∉ S.D) (h : S.D.card < threshold S.N)
    (he : S.Enough) (hk : ∀ d ∈ S.D, S.recovered d = some (S.recoveredKey d)) :
    ∃ t : S.Tail, t.Honest ∧ t.Fuses := by
  have hphase : Phase (S.recoveryScript fun i => S.roundsScript S.recoveredKey S.dropped i ++
      shift ((2 + (1 + 2)) * S.dropped.length)
        (S.noteScript (.fusion (S.fusedVec S.recoveredKey)) i)) _ :=
    (noteScript_phase _).append ((roundsScript_phase _).append (noteScript_phase _))
  refine ⟨⟨_, _, fun _ => .ret (some (S.plaintext S.recoveredKey)), hphase, fun i hi => ?_,
    fun i hi => ?_, fun i _ => .halted rfl⟩, fun i x hx => ?_, fun i hi => ?_, fun i _ => rfl⟩
  · rw [recoveryScript, roundsScript_quiet h1 hi, noteScript, noteScript, if_neg hi, if_neg hi]
    rfl
  · obtain ⟨f, -, hr⟩ := follows_rounds h1 he hi (l := S.dropped)
      (fun d hd => ⟨mem_dropped.mp hd, hk d (mem_dropped.mp hd)⟩)
      (fun _ => none, S.liveVec) fun _ _ _ => rfl
    refine follows_recoveryScript hD h hi ?_
    simp only [List.map_append, events_shift]
    refine hr.bind ?_
    rw [show S.dropped.foldl _ (fun _ => none, S.liveVec).2 = S.fusedVec S.recoveredKey from
      foldl_set_dropped, noteScript, if_pos hi]
    exact (follows_fuse _).bind (.nil _)
  · dsimp only at hx
    rcases mem_notes_recoveryScript hx with rfl | hx
    · rfl
    · rw [notes_append, notes_shift, notes_noteScript] at hx
      rcases List.mem_append.mp hx with hx | hx
      · obtain ⟨d, hd, rfl⟩ := mem_notes_roundsScript hx
        exact ⟨d, mem_dropped.mp hd, rfl⟩
      · rw [List.mem_singleton.mp (mem_ite_nil hx).2]
        rfl
  · simp [recoveryScript, if_pos hi]

/-- **Every run has a tail**, and its notes are right; whether the survivors fuse is decided by
`Recoverable`. -/
theorem exists_tail (S : Setting F) :
    ∃ t : S.Tail, t.Honest ∧ (S.Recoverable → t.Fuses) ∧ (¬ S.Recoverable → t.Sticks) := by
  have hfuses : S.Recoverable → (∃ t : S.Tail, t.Honest ∧ t.Fuses) →
      ∃ t : S.Tail, t.Honest ∧ (S.Recoverable → t.Fuses) ∧ (¬ S.Recoverable → t.Sticks) :=
    fun hr ⟨t, ht, hf⟩ => ⟨t, ht, fun _ => hf, fun hn => absurd hr hn⟩
  have hsticks : ¬ S.Recoverable → (∃ t : S.Tail, t.Honest ∧ t.Sticks) →
      ∃ t : S.Tail, t.Honest ∧ (S.Recoverable → t.Fuses) ∧ (¬ S.Recoverable → t.Sticks) :=
    fun hn ⟨t, ht, hs⟩ => ⟨t, ht, fun hr => absurd hr hn, fun _ => hs⟩
  rcases S.D.eq_empty_or_nonempty with hD | hD
  · exact hfuses (.inl hD) (fuseTail hD)
  have hne : S.D ≠ ∅ := hD.ne_empty
  by_cases h : S.D.card < threshold S.N
  swap
  · exact hsticks (fun hr => h (hr.resolve_left hne).2.1) (majorityTail (by omega))
  by_cases h1 : 1 ∈ S.D
  · exact hsticks (fun hr => (hr.resolve_left hne).1 h1) (deadTail h1 h)
  by_cases he : S.Enough
  swap
  · exact hsticks (fun hr => he (hr.resolve_left hne).2.2.1) (fewTail hD h1 h he)
  by_cases hk : ∃ d ∈ S.D, S.recovered d = none
  · obtain ⟨d, hd, hk⟩ := hk
    refine hsticks (fun hr => ?_) (throwTail h1 h he hd hk)
    have := (hr.resolve_left hne).2.2.2 d hd
    rw [hk] at this
    cases this
  · have hsome : ∀ d ∈ S.D, S.recovered d = some (S.recoveredKey d) := by
      intro d hd
      obtain ⟨key, hkey⟩ := Option.ne_none_iff_exists'.mp fun hn => hk ⟨d, hd, hn⟩
      rw [recoveredKey, hkey, Option.getD_some]
    exact hfuses (.inr ⟨h1, h, he, hsome⟩) (recoverTail hD h1 h he hsome)

end Setting

end Aborts

end P2P

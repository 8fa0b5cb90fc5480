import NetworkExamples.P2P.PathMeasurement

/-!
# What the receives of the path measurement return

`meant` is what each process is meant to receive, in order. The measurement works (`Works`) if in
every run every process receives only that, as objects of the kind it expects, and no state is
stuck before all nodes have sent their partial decryptions. It does for three nodes, and for no
other number (`works_iff`).
-/

namespace P2P

open Fifo

namespace Statistics

variable {F : OpenFHE}

/-- The receives of a history. -/
def received (es : List (Event ℕ (MessageFormat F) Empty)) :
    List (ℕ × Reply (MessageFormat F)) :=
  es.filterMap fun e =>
    match e with
    | .got a r => some (a, r)
    | _ => none

/-- The messages `l` from the node before. -/
def fromPrev (i : ℕ) (l : List (MessageFormat F)) : List (ℕ × Reply (MessageFormat F)) :=
  if 1 < i then l.map fun m => (i - 1, .got m) else []

/-- The messages `l` from the next node. -/
def fromNext (N i : ℕ) (l : List (MessageFormat F)) : List (ℕ × Reply (MessageFormat F)) :=
  if i < N then l.map fun m => (i + 1, .got m) else []

@[simp] theorem received_nil : received ([] : List (Event ℕ (MessageFormat F) Empty)) = [] := rfl
@[simp] theorem received_append (es es' : List (Event ℕ (MessageFormat F) Empty)) :
    received (es ++ es') = received es ++ received es' := List.filterMap_append
@[simp] theorem received_got (a : ℕ) (r : Reply (MessageFormat F))
    (es : List (Event ℕ (MessageFormat F) Empty)) :
    received (.got a r :: es) = (a, r) :: received es := rfl
@[simp] theorem received_sent (d : ℕ) (m : MessageFormat F) (b : Bool)
    (es : List (Event ℕ (MessageFormat F) Empty)) :
    received (.sent d m b :: es) = received es := rfl

@[simp] theorem received_map_got (l : List ℕ) (m : ℕ → MessageFormat F) :
    received (l.map fun j => .got j (.got (m j))) = l.map fun j => (j, .got (m j)) := by
  induction l with
  | nil => rfl
  | cons j l ih => simp [ih]

@[simp] theorem received_map_sent (l : List ℕ) (m : MessageFormat F) (b : Bool) :
    received (l.map fun d => .sent d m b) = [] := by
  induction l with
  | nil => rfl
  | cons d l ih => simp [ih]

theorem received_ite (p : Prop) [Decidable p] (es : List (Event ℕ (MessageFormat F) Empty)) :
    received (if p then es else []) = if p then received es else [] := by
  split <;> rfl

theorem received_recvAll (t a : ℕ) (l : List (MessageFormat F)) :
    received (recvAll t a l : Script ℕ _ Empty).events = l.map fun m => (a, .got m) := by
  induction l with
  | nil => rfl
  | cons m l ih =>
    rw [List.map_cons, ← ih]
    rfl

theorem received_sendAll (t d : ℕ) (l : List (MessageFormat F)) :
    received (sendAll t d l : Script ℕ _ Empty).events = [] := by
  induction l with
  | nil => rfl
  | cons m l ih => exact ih

/-- A node receives from the node before it what goes down. -/
theorem received_chainDown {N i : ℕ} (hi : 1 ≤ i ∧ i ≤ N) (m : ℕ → List (MessageFormat F)) :
    received (chainDown N m i : Script ℕ _ Empty).events = fromPrev i (m (i - 1)) := by
  unfold chainDown fromPrev
  rw [Script.events, List.map_append, received_append]
  by_cases h : 1 < i
  · rw [if_pos ⟨h, hi.2⟩, if_pos h, received_recvAll]
    split
    · rw [received_sendAll, List.append_nil]
    · exact List.append_nil _
  · rw [if_neg (by tauto), if_neg h]
    split
    · rw [received_sendAll]; rfl
    · rfl

/-- A node receives from the next node what goes up. -/
theorem received_chainUp {N i : ℕ} (hi : 1 ≤ i ∧ i ≤ N) (m : ℕ → List (MessageFormat F)) :
    received (chainUp N m i : Script ℕ _ Empty).events = fromNext N i (m (i + 1)) := by
  unfold chainUp fromNext
  rw [Script.events, List.map_append, received_append]
  by_cases h : i < N
  · rw [if_pos ⟨hi.1, h⟩, if_pos h, received_recvAll]
    split
    · rw [received_sendAll, List.append_nil]
    · exact List.append_nil _
  · rw [if_neg (by tauto), if_neg h]
    split
    · rw [received_sendAll]; rfl
    · rfl

namespace Setting

variable (S : Setting F)

/-- **What process `i` is meant to receive**, with the senders. -/
def meant (i : ℕ) : List (ℕ × Reply (MessageFormat F)) :=
  if i = 0 then
    [(S.N, .got S.finalPubKeyMsg), (1, .got S.evalMultFinalMsg), (S.N, .got S.evalSumFinalMsg)] ++
      (S.peers 0).map fun j => (j, .got (S.partialMsg j))
  else
    [(0, .got S.contextMsg)] ++
      -- The public key of the nodes before; the joint public key.
      fromPrev i [publicKeyMsg S.cc S.rand (i - 1)] ++
      fromNext S.N i [publicKeyMsg S.cc S.rand S.N] ++
      -- The switching key of the nodes before, the joint one; the parts of the multiplication key
      -- of the nodes after; the multiplication key.
      fromPrev i [evalMultMsg S.cc S.rand (i - 1)] ++
      fromNext S.N i [evalMultMsg S.cc S.rand S.N] ++
      fromNext S.N i [evalMixMultMsg S.cc S.rand S.N (i + 1)] ++
      fromPrev i [evalMixMultMsg S.cc S.rand S.N 1] ++
      -- The summation keys of the nodes before; the joint ones.
      fromPrev i [evalSum0Msg S.cc S.rand (i - 1), evalSum1Msg S.cc S.rand (i - 1)] ++
      fromNext S.N i [evalSum1Msg S.cc S.rand S.N] ++
      -- The ciphertext of zeros, or of the nodes before; the ciphertext of all nodes.
      (if i = 1 then [(0, .got S.zeroMsg)] else []) ++
      fromPrev i [S.cipherTextMsg (i - 1)] ++
      fromNext S.N i [S.cipherTextMsg S.N]

/-- A state of the network. -/
abbrev State (_ : Setting F) : Type := Net ℕ (MessageFormat F) Empty (Option F.Plaintext)

/-- All nodes have sent their partial decryptions. -/
def AllSent (s : S.State) : Prop :=
  ∀ i, S.IsNode i → ∃ m, .sent 0 m false ∈ s.hist i ∧ m.msgType = "partialct"

/-- **The measurement works**: no process throws (so that every object is of the kind that is
expected), each receives what it is meant to, and no state is stuck before all partial decryptions
are sent. -/
def Works : Prop :=
  ∀ s : S.State, Net.Reach false (Net.init S.network) s →
    (∀ i, i ≤ S.N → (∀ e, s.prog i ≠ .fail e) ∧ received (s.hist i) <+: S.meant i) ∧
    (¬ S.AllSent s → ∃ i, i ≤ S.N ∧ Net.Enabled false s i)

variable {S} {i : ℕ}

/-- The script receives what is meant. -/
theorem received_script (h : i = 0 ∨ S.IsNode i) : received (S.script i).events = S.meant i := by
  unfold meant
  rcases h with rfl | hi
  · rw [events_script_controller, if_pos rfl]
    simp
  · have h0 : i ≠ 0 := by omega
    rw [events_script h0 hi, if_neg h0, keyEvents, measureEvents]
    simp only [Path.publicKeyScript, Path.evalMultScript, Path.evalSumScript, List.map_append,
      events_shift, received_append, received_got, received_sent, received_nil, received_ite,
      received_chainDown hi, received_chainUp hi, ite_self, List.nil_append, List.append_nil,
      List.cons_append, List.append_assoc]

theorem halted_network (h : i ∉ Finset.Icc 0 S.N) (M : ℕ) :
    (S.networkFor M i).halted = true := by
  rw [Finset.mem_Icc] at h
  unfold networkFor
  rw [if_neg (by omega), if_neg (by omega)]
  rfl

/-- A node sends its partial decryption in the end. -/
theorem sent_partial_mem (hi : S.IsNode i) :
    .sent 0 (S.partialMsg i) false ∈ (S.script i).events := by
  rw [events_script (by omega) hi, measureEvents]
  simp

/-- For three nodes it works. -/
theorem works_three (hring : 26 ≤ F.ringSize S.cc) (hN : S.N = 3) : S.Works := by
  have hr := runs (S := S) hring (by omega)
  have hnet : S.networkFor S.N = S.network := by rw [hN]; rfl
  rw [hnet] at hr
  intro s hs
  refine ⟨fun i hi => ⟨fun e he => ?_, ?_⟩, fun hsent => ?_⟩
  · -- A process that has ended is at the end of its script, where it has returned.
    have hp := hr.prog_eq_stop hs (hr.hist_eq_of_halted hs (i := i) (by rw [he]; rfl))
    rw [he] at hp
    simp only [stop] at hp
    split at hp
    · cases hp
    · rw [if_pos (by omega)] at hp
      cases hp
  · rw [← received_script (by omega)]
    exact (hr.hist_prefix hs i).filterMap _
  · obtain ⟨i, hi, hno⟩ : ∃ i, S.IsNode i ∧ ∀ m, .sent 0 m false ∈ s.hist i →
        m.msgType ≠ "partialct" := by
      by_contra hall
      refine hsent fun i hi => ?_
      by_contra hno
      exact hall ⟨i, hi, fun m hm ht => hno ⟨m, hm, ht⟩⟩
    have hne : s.hist i ≠ (S.script i).events := fun heq =>
      hno _ (heq ▸ sent_partial_mem hi) rfl
    obtain ⟨j, hj⟩ := hr.progress hs ⟨i, hne⟩
    exact ⟨j, (Finset.mem_Icc.mp (hr.mem_of_enabled (fun i hi => halted_network hi 3) hs hj)).2, hj⟩

/-- Up to its keys the first node sends no partial decryption. -/
theorem sent_keyEvents {m : MessageFormat F} (h : .sent 0 m false ∈ S.keyEvents 1) :
    m.msgType ≠ "partialct" := by
  have hN : 1 < S.N := S.two_le
  simp only [keyEvents, Path.publicKeyScript, Path.evalMultScript, Path.evalSumScript,
    List.map_append, events_shift, events_chainDown_first _ hN, events_chainUp_first _ hN, hN.ne,
    if_true, if_false] at h
  simp at h
  rw [h]
  show "evalmultfinal" ≠ "partialct"
  decide

/-- For any other number of nodes it gets stuck. -/
theorem not_works (hN : S.N ≠ 3) : ¬ S.Works := by
  intro h
  obtain ⟨stop, left, -, hr⟩ := stuck_runs (S := S) (M := 3) (by decide) hN.symm
  obtain ⟨s, hs, hh, -, he⟩ := hr.completes (s := Net.init (S.networkFor 3)) .refl
  refine Exists.elim ((h s hs).2 fun hsent => ?_) fun i hi => he i hi.2
  obtain ⟨m, hm, ht⟩ := hsent 1 (one_isNode S.two_le)
  rw [hh 1, show (S.stuckScript 1).events = _ from
    events_stuckScript Nat.one_ne_zero (one_isNode S.two_le)] at hm
  exact sent_keyEvents hm ht

/-- **The receives of the path measurement always match**, and nothing is stuck before all partial
decryptions are sent, if and only if there are three nodes. -/
theorem works_iff (hring : 26 ≤ F.ringSize S.cc) : S.Works ↔ S.N = 3 := by
  constructor
  · intro h
    by_contra hN
    exact not_works hN h
  · exact works_three hring

/-- A path of `N` nodes with the ideal instance of OpenFHE. -/
def ideal (N : ℕ) (hN : 2 ≤ N) : Setting OpenFHE.ideal where
  N := N
  inputs i := [(i : ℤ), (i : ℤ) ^ 2, (i : ℤ) ^ 3]
  rand i := (i : ℤ)
  peers i := if i = 0 then List.range' 1 N else [i - 1, i + 1, 0]
  two_le := hN
  three_le _ := le_rfl
  nodup_names := List.nodup_range' 1
  mem_names j := by
    rw [if_pos rfl, List.mem_range'_1]
    omega
  neighbours i hi := by
    rw [if_neg (by omega)]
    exact ⟨fun _ => by simp, fun _ => by simp⟩
  mem_controller i hi := by
    rw [if_neg (by omega)]
    simp

theorem works_ideal : (ideal 3 (by decide)).Works := (works_iff (by decide)).mpr rfl

theorem not_works_two : ¬ (ideal 2 (by decide)).Works := not_works (by decide)

end Setting

end Statistics

end P2P

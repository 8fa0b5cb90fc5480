import NetworkExamples.P2P.AbortsSafety

/-!
# The run of the threshold network without aborts

If no node exits, the run from the synchronization to the exchange of the partial decryptions is
one phase (`exchangedScript_phase`). `exchangePartials` is that part of the client, with what the
client then knows as its result; `main_eq` is the client as `exchangePartials` and the fusion.

* `abortFree_run`: no state is stuck, no wait times out, and all nodes end with the shares dealt for
  them, the ciphertexts of all nodes in order, and the same result.
-/

namespace P2P

open Fifo

namespace Aborts

variable {F : OpenFHE}

/-- What a client knows after the exchange of the partial decryptions. -/
structure Exchanged (F : OpenFHE) where
  ready : Ready F
  resultCT : F.Ciphertext
  partials : Partials F

section

variable (mynode : NodeImpl F) (r : F.Rand) (params : ClientParams)

/-- The client from the synchronization to the exchange of the partial decryptions. -/
def exchangePartials : NodeM F (Note F) (Exchanged F) := do
  let s ← setup mynode r params
  let resultCT ← compute s.cc s.keys s.cipherTexts
  let ciphertextPartial := partialDecrypt r params s.cc resultCT s.secretKey
  broadcastSerialMsg s.mynode .ciphertexts [ciphertextPartial] "partialciphertext" 10
  let st ← receivePartials params ciphertextPartial
  pure ⟨s, resultCT, st⟩

/-- A client that does not exit exchanges the partial decryptions, then fuses them. -/
theorem main_eq (h : params.aborts = false) :
    main mynode r params = exchangePartials mynode r params >>= fun x =>
      finish r params x.ready x.resultCT x.partials >>= fun pt => pure (some pt) := by
  simp [main, exchangePartials, decrypt, h]

end

namespace Setting

variable (S : Setting F)

/-- The network of the clients, up to the exchange of the partial decryptions. -/
def exchangeNetwork (i : ℕ) : NodeM F (Note F) (Exchanged F) :=
  if S.IsNode i then exchangePartials (S.node i) (S.rand i) (S.params i) else .fail "no node"

/-- What node `i` knows after the exchange. -/
def exchanged (i : ℕ) : Exchanged F := ⟨S.ready i, S.resultCT, ⟨S.dropped, S.liveVec⟩⟩

def partialsScript : ℕ → Script ℕ (MessageFormat F) (Note F) :=
  spread S.meshOut S.meshIn S.partialMsg true

/-- **What node `i` does**, if no node exits. -/
def exchangedScript (i : ℕ) : Script ℕ (MessageFormat F) (Note F) :=
  S.setupScript i ++ shift S.setupTime (S.partialsScript i)

def exchangedStop (i : ℕ) : NodeM F (Note F) (Exchanged F) :=
  if S.IsNode i then .ret (S.exchanged i) else .fail "no node"

def exchangedPlan : Plan ℕ (MessageFormat F) (Note F) (Exchanged F) where
  script := S.exchangedScript
  stop := S.exchangedStop
  left _ _ := none

variable {S} {i : ℕ}

theorem exchangedScript_phase : Phase S.exchangedScript (S.setupTime + 2) :=
  setupScript_phase.append (spread_phase _ _ nodup_meshOut nodup_meshIn mem_meshOut)

theorem survivor_iff (hD : S.D = ∅) : S.Survivor i ↔ S.IsNode i := by
  simp [Survivor, hD]

/-- Without exits the exchange is the one of the survivors. -/
theorem events_partialsScript (hD : S.D = ∅) (hi : S.IsNode i) :
    (S.partialsScript i).events = (S.decryptScript i).events := by
  have hr : ∀ j, S.partialReply j = .got (S.partialMsg j) := fun j => if_neg (by simp [hD])
  rw [partialsScript, events_spread_mesh hi, decryptScript, if_pos ((survivor_iff hD).mpr hi)]
  simp [Function.comp_def, hr]

theorem follows_exchangePartials (hD : S.D = ∅) (hi : S.IsNode i) :
    Follows (exchangePartials (S.node i) (S.rand i) (S.params i)) (S.exchangedScript i).events
      (.ret (S.exchanged i)) := by
  have hs : S.Survivor i := (survivor_iff hD).mpr hi
  have hev : (S.decryptScript i).events =
      ((S.readyNode i).connectedAddresses.map fun d => .sent d (S.partialMsg i) true) ++
        (((others S.N i).map fun j => .got j (S.partialReply j)) ++ []) := by
    rw [decryptScript, if_pos hs]
    simp [Function.comp_def, readyNode, node]
  simp only [exchangedScript, List.map_append, events_shift]
  refine (follows_setup hi).bind ?_
  rw [events_partialsScript hD hi, hev]
  simp only [ready, compute_eq, pure_bind]
  refine follows_broadcastSerialMsg ?_
  exact (follows_receivePartials hs).bind (.nil _)

theorem exchangedScript_outside (hi : ¬ S.IsNode i) : S.exchangedScript i = [] := by
  have ho : S.meshOut i = [] := if_neg hi
  have hin : S.meshIn i = [] := if_neg hi
  simp [exchangedScript, setupScript_outside hi, partialsScript, spread, ho, hin]

/-- **The run of the clients goes by the plan**, if no node exits. -/
theorem exchanged_runs (hD : S.D = ∅) :
    S.exchangedPlan.Runs (Finset.Icc 1 S.N) S.exchangeNetwork := by
  refine exchangedScript_phase.runs (fun i => ?_) (fun i => ?_) fun i hi => ?_
  · unfold exchangeNetwork exchangedStop
    split
    · next hi => exact follows_exchangePartials hD hi
    · next hi =>
      rw [exchangedScript_outside hi]
      exact .nil _
  · unfold exchangedStop
    split <;> rfl
  · exact exchangedScript_outside (by simpa using hi)

/-- No wait times out. -/
theorem timedOut_notMem (hD : S.D = ∅) {s : Net ℕ (MessageFormat F) (Note F) (Exchanged F)}
    (hs : Net.Reach false (Net.init S.exchangeNetwork) s) (i a : ℕ) :
    .got a .timedOut ∉ s.hist i := by
  intro h
  obtain ⟨e, he, hx⟩ := List.mem_map.mp ((Plan.Runs.hist_prefix (exchanged_runs hD) hs i).subset h)
  obtain ⟨u, e⟩ := e
  cases hx
  exact exchangedScript_phase.late_notMem i a u he

/-- What a node that has ended knows. -/
theorem eq_exchanged (hD : S.D = ∅) {s : Net ℕ (MessageFormat F) (Note F) (Exchanged F)}
    (hs : Net.Reach false (Net.init S.exchangeNetwork) s) {k : ℕ} {x : Exchanged F}
    (hx : s.prog k = .ret x) : S.IsNode k ∧ x = S.exchanged k := by
  have hr := exchanged_runs hD
  have hp := hr.prog_eq_stop hs (hr.hist_eq_of_halted hs (i := k) (by rw [hx]; rfl))
  rw [hx] at hp
  simp only [exchangedPlan, exchangedStop] at hp
  split at hp
  · next hk =>
    cases hp
    exact ⟨hk, rfl⟩
  · cases hp

theorem getElem?_cipherTexts (hi : S.IsNode i) : S.cipherTexts[i - 1]? = some (S.cipherText i) := by
  have hget : (List.range' 1 S.N)[i - 1]? = some i := by
    rw [List.getElem?_range' (by omega)]
    congr 1
    omega
  rw [cipherTexts, List.getElem?_map, hget]
  rfl

theorem recdSecretShares_of_ne {k : ℕ} (hi : S.IsNode i) (hik : i ≠ k) :
    S.recdSecretShares k i = some (S.share i k) :=
  if_pos (mem_others.mpr ⟨hi.1, hi.2, hik⟩)

/-- **The run without aborts**: from every state it can go on to the end, so that no state before
the end is stuck, and no wait times out. A node that ends has its own secret key, the share that
every other node dealt for it, the ciphertexts of all nodes in order, the partial decryptions of all
nodes, and the same result as all. -/
theorem abortFree_run (hD : S.D = ∅) {s : Net ℕ (MessageFormat F) (Note F) (Exchanged F)}
    (hs : Net.Reach false (Net.init S.exchangeNetwork) s) :
    ((∀ i, S.IsNode i → ∃ x, s.prog i = .ret x) ∨ ∃ i, S.IsNode i ∧ Net.Enabled false s i) ∧
    (∃ s', Net.Reach false s s' ∧ ∀ i, S.IsNode i → ∃ x, s'.prog i = .ret x) ∧
    (∀ i a, .got a .timedOut ∉ s.hist i) ∧
    ∀ k x, s.prog k = .ret x →
      x.ready.cc = S.cc ∧ x.ready.secretKey = S.sk k ∧
      (∀ i, S.IsNode i → i ≠ k → x.ready.recdSecretShares i = some (S.share i k)) ∧
      x.ready.cipherTexts.length = S.N ∧
      (∀ i, S.IsNode i → x.ready.cipherTexts[i - 1]? = some (S.cipherText i)) ∧
      x.resultCT = S.resultCT ∧
      x.partials.node_nack = [] ∧
      x.partials.vec = (List.range' 1 S.N).map fun i => some (S.partialCT i) := by
  have hr := exchanged_runs hD
  have hend : ∀ s', Net.Reach false (Net.init S.exchangeNetwork) s' →
      (∀ i, s'.prog i = S.exchangedStop i) → ∀ i, S.IsNode i → ∃ x, s'.prog i = .ret x :=
    fun s' _ hp i hi => ⟨_, (hp i).trans (if_pos hi)⟩
  refine ⟨?_, ?_, timedOut_notMem hD hs, fun k x hx => ?_⟩
  · by_cases hh : ∀ i, s.hist i = (S.exchangedScript i).events
    · exact .inl (hend s hs fun i => hr.prog_eq_stop hs (hh i))
    · obtain ⟨i, hi⟩ := hr.progress hs (not_forall.mp hh)
      refine .inr ⟨i, Finset.mem_Icc.mp (hr.mem_of_enabled (fun j hj => ?_) hs hi), hi⟩
      rw [exchangeNetwork, if_neg fun h => hj (Finset.mem_Icc.mpr h)]
      rfl
  · obtain ⟨s', hs', -, hp, -⟩ := hr.completes hs
    exact ⟨s', hs', hend s' (hs.trans hs') hp⟩
  · obtain ⟨-, rfl⟩ := eq_exchanged hD hs hx
    refine ⟨rfl, rfl, fun i hi hik => recdSecretShares_of_ne hi hik, ?_,
      fun i hi => getElem?_cipherTexts hi, rfl, ?_, ?_⟩
    · simp [exchanged, ready, cipherTexts]
    · simp [exchanged, dropped, hD]
    · simp [exchanged, liveVec, hD]

theorem abortFree_run_three : ∃ s, Net.Reach false
    (Net.init (ideal 3 ∅ (by decide) (by decide)).exchangeNetwork) s ∧
      ∀ k, 1 ≤ k ∧ k ≤ 3 → ∃ x, s.prog k = .ret x ∧ x.partials.node_nack = [] := by
  obtain ⟨-, ⟨s, hs, hp⟩, -⟩ := abortFree_run (S := ideal 3 ∅ (by decide) (by decide)) rfl .refl
  refine ⟨s, hs, fun k hk => ?_⟩
  obtain ⟨x, hx⟩ := hp k hk
  obtain ⟨-, -, -, -, -, -, hn, -⟩ := (abortFree_run rfl hs).2.2.2 k x hx
  exact ⟨x, hx, hn⟩

end Setting

end Aborts

end P2P

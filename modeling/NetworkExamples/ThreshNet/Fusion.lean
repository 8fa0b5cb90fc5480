import NetworkExamples.ThreshNet.ThreshAborts

/-!
# What the clients of the client-server network fuse

A client may give up on a party that is only slow, so that one partial decryption of a party is made by
itself and another one by client 1, with the recovered key. Whatever the clients give up on, and in
every interleaving, each client that fuses has one partial decryption for the key of each party, and
no client fails.

* `Safe`: the invariant; it holds without `Timely`.
* `Safe.step`: every step keeps it.
-/

namespace ThreshNet

open Schedule

variable {F : OpenFHE}

namespace Setting

variable (S : Setting F)

/-- The partial decryption that client 1 makes with the recovered key of party `i`. -/
def recoveredPartial (i : ℕ) : F.Ciphertext :=
  F.multipartyDecryptMain S.cc (S.rand recovering_client_id) S.resultCT (S.secretKey i)

/-- A partial decryption with the key of party `i`. -/
def Right (i : ℕ) : Source → F.Ciphertext → Prop
  | .own, ct => ct = S.ciphertextPartial i
  | .aborts, ct => i ≠ 1 ∧ ct = S.recoveredPartial i

/-- A fusion of one partial decryption for the key of each party: the lead one of party 1, and main
ones of the others. Each is made by its party, or, but for that of party 1, by the recovering client. -/
def Complete (pt : F.Plaintext) : Prop :=
  ∃ maker : ℕ → ℕ, (∀ i, maker i = i ∨ maker i = recovering_client_id) ∧
    pt = F.multipartyDecryptFusion S.cc ((List.range' 1 S.Num_of_parties).map fun i =>
      if i = 1 then F.multipartyDecryptLead S.cc (S.rand (maker i)) S.resultCT (S.secretKey i)
      else F.multipartyDecryptMain S.cc (S.rand (maker i)) S.resultCT (S.secretKey i))

/-- What holds of client `c` at a place. -/
def PcSafe (c : ℕ) : Pc F → Prop
  | .loop i => 1 ≤ i ∧ i ≤ S.Num_of_parties + 1
  | .poll i _ | .waitAborts i => S.IsParty i ∧ i ≠ c
  | .check i _ recd => (S.IsParty i ∧ i ≠ c) ∧ ∀ ct, recd = some ct → ct = S.ciphertextPartial i
  | .recover i => c = 1 ∧ S.IsParty i ∧ i ≠ c
  | .publish i ct => c = 1 ∧ (S.IsParty i ∧ i ≠ c) ∧ ct = S.recoveredPartial i
  | .done pt => S.Complete pt
  | .start | .exited | .sent | .fuse => True
  | .failed => False

/-- **The invariant.** -/
structure Safe (s : State F) : Prop where
  partials : ∀ i ct, s.server.partialCipherTexts i = some ct → ct = S.ciphertextPartial i
  aborts : ∀ i ct, s.server.abortsCipherTexts (1, i) = some ct →
    i ≠ 1 ∧ ct = S.recoveredPartial i
  shares : s.server.secretShares = S.init.server.secretShares
  vec : ∀ c i src ct, s.partialCiphertextVec c i = some (src, ct) → S.Right i src ct
  pc : ∀ c, S.PcSafe c (s.pc c)
  recd : ∀ c, s.pc c = .sent → s.server.ctRecd c = true
  filled : ∀ c, s.pc c ≠ .exited → ∀ j, 1 ≤ j → j < S.place (s.pc c) →
    s.partialCiphertextVec c j ≠ none

variable {S} {s : State F} {c i : ℕ} {p q : Pc F}

theorem safe_init : S.Safe S.init where
  partials := nofun
  aborts := nofun
  shares := rfl
  vec := nofun
  pc _ := trivial
  recd := nofun
  filled _ _ j hj hlt := absurd hlt (by simp [init, place])

/-- A client that is at `q` goes to `p`. -/
theorem Safe.goto (h : S.Safe s) (hq : s.pc c = q) (hp : S.PcSafe c p) (hsent : p ≠ .sent)
    (hplace : p ≠ .exited → q ≠ .exited ∧ ∀ j, 1 ≤ j → j < S.place p → j < S.place q) :
    S.Safe (s.goto c p) where
  partials := h.partials
  aborts := h.aborts
  shares := h.shares
  vec := h.vec
  pc a := by
    unfold State.goto
    by_cases ha : a = c
    · subst ha
      simpa using hp
    · simpa [ha] using h.pc a
  recd a := by
    unfold State.goto
    by_cases ha : a = c
    · subst ha
      intro hpc
      exact absurd (by simpa using hpc) hsent
    · simpa [ha] using h.recd a
  filled a := by
    unfold State.goto
    by_cases ha : a = c
    · subst ha
      simp only [Function.update_self]
      intro hp j hj hlt
      obtain ⟨hex, hlt'⟩ := hplace hp
      subst hq
      exact h.filled a hex j hj (hlt' j hj hlt)
    · simpa [ha] using h.filled a

/-- Client `c` stores the partial decryption of party `i`. -/
theorem Safe.store (h : S.Safe s) {src : Source} {ct : F.Ciphertext} (hi : S.IsParty i)
    (hq : s.pc c = q) (hex : q ≠ .exited) (hplace : S.place q = i) (hright : S.Right i src ct) :
    S.Safe (s.store c i src ct) where
  partials := h.partials
  aborts := h.aborts
  shares := h.shares
  vec a j src' ct' hvec := by
    unfold State.store at hvec
    dsimp only at hvec
    by_cases ha : a = c
    · subst ha
      rw [Function.update_self] at hvec
      by_cases hj : j = i
      · subst hj
        rw [Function.update_self] at hvec
        cases hvec
        exact hright
      · rw [Function.update_of_ne hj] at hvec
        exact h.vec a j src' ct' hvec
    · rw [Function.update_of_ne ha] at hvec
      exact h.vec a j src' ct' hvec
  pc a := by
    unfold State.store
    by_cases ha : a = c
    · subst ha
      simpa [PcSafe] using hi.2
    · simpa [ha] using h.pc a
  recd a := by
    unfold State.store
    by_cases ha : a = c
    · subst ha
      simp
    · simpa [ha] using h.recd a
  filled a := by
    unfold State.store
    by_cases ha : a = c
    · subst ha
      simp only [Function.update_self]
      intro _ j hj hlt
      have hle : j ≤ i := Nat.lt_succ_iff.mp hlt
      by_cases hji : j = i
      · subst hji
        simp
      · rw [Function.update_of_ne hji]
        subst hq
        exact h.filled a hex j hj (by omega)
    · simpa [ha] using h.filled a

/-- A vector of partial decryptions of all parties is fused. -/
theorem Safe.complete (h : S.Safe s) {vec : List (Source × F.Ciphertext)}
    (hvec : (List.range' 1 S.Num_of_parties).mapM (s.partialCiphertextVec c) = some vec) :
    S.Complete (F.multipartyDecryptFusion S.cc (vec.map (·.2))) := by
  let maker (i : ℕ) : ℕ :=
    if (s.partialCiphertextVec c i).map Prod.fst = some .aborts then recovering_client_id else i
  have hmaker : ∀ i, maker i = i ∨ maker i = recovering_client_id := by
    intro i
    simp only [maker]
    split
    · exact .inr rfl
    · exact .inl rfl
  refine ⟨maker, hmaker, congrArg (F.multipartyDecryptFusion S.cc) (Lists.map_of_mapM ?_ hvec)⟩
  rintro i ⟨src, ct⟩ hi
  have hright := h.vec c i src ct hi
  cases src with
  | own =>
    obtain rfl : ct = S.ciphertextPartial i := hright
    simp [maker, hi, ciphertextPartial]
  | aborts =>
    obtain ⟨hne, rfl⟩ := hright
    simp [maker, hi, hne, recoveredPartial]

/-! ## The steps -/

/-- Client `c` is at `p`. -/
theorem Safe.at (h : S.Safe s) (hp : s.pc c = p) : S.PcSafe c p := hp ▸ h.pc c

/-- A client has sent its partial decryption, or exits. -/
theorem Safe.step_start (h : S.Safe s) (hc : S.IsParty c) (hp : s.pc c = .start) :
    S.Safe (S.step s c) := by
  unfold Setting.step
  rw [if_neg (not_not.mpr hc), hp]
  dsimp only
  split
  · exact h.goto hp trivial nofun fun hex => absurd rfl hex
  · refine ⟨fun i ct hct => ?_, h.aborts, h.shares, h.vec, fun a => ?_, fun a ha => ?_, fun a => ?_⟩
    · by_cases hi : i = c
      · subst hi
        simpa [Server.partialCipherTextFromClient, eq_comm] using hct
      · exact h.partials i ct (by simpa [Server.partialCipherTextFromClient, hi] using hct)
    · by_cases hac : a = c
      · subst hac
        simp [State.goto, PcSafe]
      · simpa [State.goto, hac] using h.pc a
    · by_cases hac : a = c
      · subst hac
        simp [Server.partialCipherTextFromClient]
      · have hold := h.recd a (by simpa [State.goto, hac] using ha)
        simpa [Server.partialCipherTextFromClient, hac] using hold
    · by_cases hac : a = c
      · subst hac
        simp [State.goto, place]
      · simpa [State.goto, hac] using h.filled a

theorem Safe.step_sent (h : S.Safe s) (hc : S.IsParty c) (hp : s.pc c = .sent) :
    S.Safe (S.step s c) := by
  have hrecd : s.server.partialCipherTextsReceivedWait c = true := h.recd c hp
  unfold Setting.step
  rw [if_neg (not_not.mpr hc), hp]
  simp only [hrecd, if_true]
  exact h.goto hp ⟨le_rfl, Nat.le_add_left _ _⟩ nofun fun _ =>
    ⟨nofun, fun j hj hlt => absurd hlt (not_lt.mpr hj)⟩

theorem Safe.step_loop (h : S.Safe s) (hc : S.IsParty c) (hp : s.pc c = .loop i) :
    S.Safe (S.step s c) := by
  obtain ⟨h1, hN⟩ : 1 ≤ i ∧ i ≤ S.Num_of_parties + 1 := h.at hp
  unfold Setting.step
  rw [if_neg (not_not.mpr hc), hp]
  dsimp only
  split
  · next hlt =>
    exact h.goto hp trivial nofun fun _ =>
      ⟨nofun, fun j _ hj => (Nat.lt_succ_iff.mp hj).trans_lt hlt⟩
  · next hlt =>
    have hi : S.IsParty i := ⟨h1, not_lt.mp hlt⟩
    split
    · next hci =>
      split
      · next ct hct => exact h.store hi hp nofun rfl (h.partials i ct hct)
      · exact h.goto hp ⟨hi, Ne.symm hci⟩ nofun fun _ => ⟨nofun, fun _ _ hlt => hlt⟩
    · next hci =>
      rw [not_not] at hci
      subst hci
      exact h.store hi hp nofun rfl rfl

theorem Safe.step_poll {ctr : ℕ} (h : S.Safe s) (hc : S.IsParty c) (hp : s.pc c = .poll i ctr) :
    S.Safe (S.step s c) := by
  have hi : S.IsParty i ∧ i ≠ c := h.at hp
  unfold Setting.step
  rw [if_neg (not_not.mpr hc), hp]
  exact h.goto hp ⟨hi, fun ct hct => h.partials i ct hct⟩ nofun fun _ => ⟨nofun, fun _ _ hlt => hlt⟩

theorem Safe.step_check {ctr : ℕ} {recd : Option F.Ciphertext} (h : S.Safe s) (hc : S.IsParty c)
    (hp : s.pc c = .check i ctr recd) : S.Safe (S.step s c) := by
  obtain ⟨hi, hrecd⟩ : (S.IsParty i ∧ i ≠ c) ∧ ∀ ct, recd = some ct → ct = S.ciphertextPartial i :=
    h.at hp
  unfold Setting.step
  rw [if_neg (not_not.mpr hc), hp]
  dsimp only
  split
  · split
    · next hc1 => exact h.goto hp ⟨hc1, hi⟩ nofun fun _ => ⟨nofun, fun _ _ hlt => hlt⟩
    · exact h.goto hp hi nofun fun _ => ⟨nofun, fun _ _ hlt => hlt⟩
  · split
    · next ct => exact h.store hi.1 hp nofun rfl (hrecd ct rfl)
    · exact h.goto hp hi nofun fun _ => ⟨nofun, fun _ _ hlt => hlt⟩

theorem Safe.step_recover (h : S.Safe s) (hF : F.Recovers S.cc) (h3 : 3 ≤ S.Num_of_parties)
    (hc : S.IsParty c) (hp : s.pc c = .recover i) : S.Safe (S.step s c) := by
  obtain ⟨rfl, hi⟩ : c = 1 ∧ S.IsParty i ∧ i ≠ c := h.at hp
  obtain ⟨shares, hshares, hkey⟩ := recovers hF h3 h.shares hi.1
  unfold Setting.step
  rw [if_neg (not_not.mpr hc), hp]
  simp only [hshares, hkey]
  exact h.goto hp ⟨rfl, hi, rfl⟩ nofun fun _ => ⟨nofun, fun _ _ hlt => hlt⟩

theorem Safe.step_publish {ct : F.Ciphertext} (h : S.Safe s) (hc : S.IsParty c)
    (hp : s.pc c = .publish i ct) : S.Safe (S.step s c) := by
  obtain ⟨rfl, hi, rfl⟩ : c = 1 ∧ (S.IsParty i ∧ i ≠ c) ∧ ct = S.recoveredPartial i := h.at hp
  unfold Setting.step
  rw [if_neg (not_not.mpr hc), hp]
  have hst : S.Safe (s.store 1 i .aborts (S.recoveredPartial i)) :=
    h.store hi.1 hp nofun rfl ⟨hi.2, rfl⟩
  refine ⟨hst.partials, fun j ct hct => ?_, hst.shares, hst.vec, hst.pc, hst.recd, hst.filled⟩
  by_cases hj : j = i
  · subst hj
    refine ⟨hi.2, ?_⟩
    simpa [Server.abortsPartialCipherTextFromClient, eq_comm] using hct
  · exact h.aborts j ct (by simpa [Server.abortsPartialCipherTextFromClient, hj] using hct)

theorem Safe.step_waitAborts (h : S.Safe s) (hc : S.IsParty c) (hp : s.pc c = .waitAborts i) :
    S.Safe (S.step s c) := by
  have hi : S.IsParty i ∧ i ≠ c := h.at hp
  unfold Setting.step
  rw [if_neg (not_not.mpr hc), hp]
  dsimp only
  split
  · next ct hct => exact h.store hi.1 hp nofun rfl (h.aborts i ct hct)
  · exact h

theorem Safe.step_fuse (h : S.Safe s) (hc : S.IsParty c) (hp : s.pc c = .fuse) :
    S.Safe (S.step s c) := by
  obtain ⟨vec, hvec⟩ := Lists.mapM_isSome (l := List.range' 1 S.Num_of_parties)
    (f := s.partialCiphertextVec c) fun j hj => by
      have hj := List.mem_range'_1.mp hj
      have hplace : S.place (s.pc c) = S.Num_of_parties + 1 := by rw [hp]; rfl
      exact h.filled c (by rw [hp]; nofun) j hj.1 (by omega)
  unfold Setting.step
  rw [if_neg (not_not.mpr hc), hp]
  simp only [hvec]
  exact h.goto hp (h.complete hvec) nofun fun _ => ⟨nofun, fun _ _ hlt => hlt⟩

/-- **Every step keeps the invariant.** -/
theorem Safe.step (h : S.Safe s) (hF : F.Recovers S.cc) (h3 : 3 ≤ S.Num_of_parties) (c : ℕ) :
    S.Safe (S.step s c) := by
  by_cases hc : S.IsParty c
  · cases hp : s.pc c with
    | start => exact h.step_start hc hp
    | sent => exact h.step_sent hc hp
    | loop i => exact h.step_loop hc hp
    | poll i ctr => exact h.step_poll hc hp
    | check i ctr recd => exact h.step_check hc hp
    | recover i => exact h.step_recover hF h3 hc hp
    | publish i ct => exact h.step_publish hc hp
    | waitAborts i => exact h.step_waitAborts hc hp
    | fuse => exact h.step_fuse hc hp
    | exited | failed | done pt =>
      unfold Setting.step
      rwa [if_neg (not_not.mpr hc), hp]
  · unfold Setting.step
    rwa [if_pos hc]

end Setting

end ThreshNet

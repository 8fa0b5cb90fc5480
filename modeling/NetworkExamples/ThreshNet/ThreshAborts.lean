import NetworkExamples.Lists.Loops
import NetworkExamples.ThreshNet.ThreshClient

/-!
# The recovery in the client-server network

A client that waits in `AbortsPartialCipherTextToClients` for party `i` is lost (`Lost`) if client 1
has ended without sending that pair, or has got the partial decryption of `i` from `i` itself.

* `not_lost`: no client is lost in any run in which client 1 does not exit and the other clients
  give up only on parties that exit or whose pair client 1 has sent (`Timely`).
* `lost_of_exit`, `lost_of_late`: without that, a client is lost in some run, if client 1 exits, or if
  client 2 is slow.
-/

namespace ThreshNet

open Schedule

variable {F : OpenFHE}

/-! ## What holds of one client -/

/-- The party of a place in the loop over the parties. -/
def Pc.party : Pc F → Option ℕ
  | .poll i _ | .check i _ _ | .recover i | .publish i _ | .waitAborts i => some i
  | _ => none

namespace Setting

variable (S : Setting F)

/-- How far a client has come in the loop over the parties. -/
def place : Pc F → ℕ
  | .start | .sent => 0
  | .loop i | .poll i _ | .check i _ _ | .recover i | .publish i _ | .waitAborts i => i
  | .fuse | .done _ | .exited | .failed => S.Num_of_parties + 1

/-- What holds of client `c` at `p` with the vector `v`, while the server is at `sv`. -/
structure ClientOk (sv : Server F) (c : ℕ) (p : Pc F) (v : ℕ → Option (Source × F.Ciphertext)) :
    Prop where
  sent : p = .sent → sv.ctRecd c = true
  loop : ∀ i, p = .loop i → 1 ≤ i ∧ i ≤ S.Num_of_parties + 1
  party : ∀ i, p.party = some i → S.IsParty i ∧ i ≠ c
  checked : ∀ i ctr ct, p = .check i ctr (some ct) → sv.partialCipherTexts i ≠ none
  own : ∀ i ct, v i = some (.own, ct) → i = c ∨ sv.partialCipherTexts i ≠ none
  filled : p ≠ .exited → p ≠ .failed → ∀ j, 1 ≤ j → j < S.place p → v j ≠ none
  recovering : ∀ i, p = .recover i → c = 1
  publishing : ∀ i ct, p = .publish i ct → c = 1
  waits : ∀ i, p = .waitAborts i →
    S.IsParty c ∧ c ≠ 1 ∧ (i ∈ S.D ∨ sv.abortsCipherTexts (1, i) ≠ none)
  lead : c = 1 → p ≠ .exited ∧ (3 ≤ S.Num_of_parties → p ≠ .failed)

/-- The server has the entries of `sv` and more. -/
structure Grows (sv sv' : Server F) : Prop where
  partialCipherTexts : ∀ i, sv.partialCipherTexts i ≠ none → sv'.partialCipherTexts i ≠ none
  ctRecd : ∀ i, sv.ctRecd i = true → sv'.ctRecd i = true
  abortsCipherTexts : ∀ x, sv.abortsCipherTexts x ≠ none → sv'.abortsCipherTexts x ≠ none

/-- **The invariant.** -/
structure Inv (s : State F) : Prop where
  client : ∀ c, S.ClientOk s.server c (s.pc c) (s.partialCiphertextVec c)
  /-- Who exits sends no partial decryption. -/
  live : ∀ i, s.server.partialCipherTexts i ≠ none → i ∉ S.D
  /-- A pair is sent by client 1 when it stores it. -/
  published : ∀ i, s.server.abortsCipherTexts (1, i) ≠ none → i ≠ 1 ∧ i < S.place (s.pc 1) ∧
    ∃ ct, s.partialCiphertextVec 1 i = some (.aborts, ct)
  shares : s.server.secretShares = S.init.server.secretShares

variable {S} {s : State F} {c : ℕ} {p : Pc F} {sv sv' : Server F}
  {v : ℕ → Option (Source × F.Ciphertext)}

theorem ClientOk.grows (h : S.ClientOk sv c p v) (hg : Grows sv sv') : S.ClientOk sv' c p v where
  sent hp := hg.ctRecd _ (h.sent hp)
  loop := h.loop
  party := h.party
  checked i ctr ct hp := hg.partialCipherTexts _ (h.checked i ctr ct hp)
  own i ct hv := (h.own i ct hv).imp_right (hg.partialCipherTexts i)
  filled := h.filled
  recovering := h.recovering
  publishing := h.publishing
  waits i hp :=
    ⟨(h.waits i hp).1, (h.waits i hp).2.1, (h.waits i hp).2.2.imp_right (hg.abortsCipherTexts _)⟩
  lead := h.lead

theorem grows_upload (sv : Server F) (ct : F.Ciphertext) (c : ℕ) :
    Grows sv (sv.partialCipherTextFromClient ct c) where
  partialCipherTexts i h := by
    unfold Server.partialCipherTextFromClient
    by_cases hi : i = c
    · subst hi; simp
    · simpa [hi] using h
  ctRecd i h := by
    unfold Server.partialCipherTextFromClient
    by_cases hi : i = c
    · subst hi; simp
    · simpa [hi] using h
  abortsCipherTexts _ h := h

theorem grows_publish (sv : Server F) (ct : F.Ciphertext) (c i : ℕ) :
    Grows sv (sv.abortsPartialCipherTextFromClient ct c i) where
  partialCipherTexts _ h := h
  ctRecd _ h := h
  abortsCipherTexts x h := by
    unfold Server.abortsPartialCipherTextFromClient
    by_cases hx : x = (c, i)
    · subst hx; simp
    · simpa [hx] using h

/-! ## The two kinds of steps -/

/-- A client goes to `p`. -/
theorem Inv.goto (h : S.Inv s) (hc : S.ClientOk s.server c p (s.partialCiphertextVec c))
    (hp : S.place (s.pc c) ≤ S.place p) : S.Inv (s.goto c p) where
  client a := by
    unfold State.goto
    by_cases ha : a = c
    · subst ha; simpa using hc
    · simpa [ha] using h.client a
  live := h.live
  published i hi := by
    obtain ⟨hi1, hlt, hct⟩ := h.published i hi
    refine ⟨hi1, ?_, hct⟩
    unfold State.goto
    by_cases h1 : 1 = c
    · subst h1; simp; omega
    · simpa [h1] using hlt
  shares := h.shares

/-- What holds of a client that has stored a partial decryption. -/
theorem ClientOk.store {i : ℕ} {src : Source} {ct : F.Ciphertext} (h : S.ClientOk sv c p v)
    (hi : S.IsParty i) (hplace : S.place p = i) (hex : p ≠ .exited) (hf : p ≠ .failed)
    (hsrc : src = .own → i = c ∨ sv.partialCipherTexts i ≠ none) :
    S.ClientOk sv c (.loop (i + 1)) (Function.update v i (some (src, ct))) where
  sent hp := by cases hp
  loop j hp := by cases hp; omega
  party j hp := by cases hp
  checked j ctr ct hp := by cases hp
  own j ct' hv := by
    by_cases hj : j = i
    · subst hj
      simp only [Function.update_self, Option.some.injEq, Prod.mk.injEq] at hv
      exact hsrc hv.1
    · rw [Function.update_of_ne hj] at hv
      exact h.own j ct' hv
  filled _ _ j hj hlt := by
    by_cases hji : j = i
    · subst hji; simp
    · rw [Function.update_of_ne hji]
      refine h.filled hex hf j hj ?_
      simp only [place] at hlt
      omega
  recovering j hp := by cases hp
  publishing j x hp := by cases hp
  waits j hp := by cases hp
  lead hc := ⟨by simp, fun _ => by simp⟩

/-- A client stores the partial decryption of party `i`. -/
theorem Inv.store {i : ℕ} {src : Source} {ct : F.Ciphertext} (h : S.Inv s) (hi : S.IsParty i)
    (hplace : S.place (s.pc c) = i) (hex : s.pc c ≠ .exited) (hf : s.pc c ≠ .failed)
    (hsrc : src = .own → i = c ∨ s.server.partialCipherTexts i ≠ none) :
    S.Inv (s.store c i src ct) where
  client a := by
    unfold State.store
    by_cases ha : a = c
    · subst ha
      simpa using (h.client a).store hi hplace hex hf hsrc
    · simpa [ha] using h.client a
  live := h.live
  published j hj := by
    obtain ⟨hj1, hlt, x, hx⟩ := h.published j hj
    unfold State.store
    by_cases h1 : 1 = c
    · subst h1
      have hne : j ≠ i := by omega
      simp only [Function.update_self, Function.update_of_ne hne, place]
      exact ⟨hj1, by omega, x, hx⟩
    · simp only [Function.update_of_ne h1]
      exact ⟨hj1, hlt, x, hx⟩
  shares := h.shares

/-- What holds of a client that goes on to `p'`. -/
theorem ClientOk.moveTo {p' : Pc F} (h : S.ClientOk sv c p v) (hex : p ≠ .exited)
    (hf : p ≠ .failed)
    (hplace : p' ≠ .exited → p' ≠ .failed → ∀ j, 1 ≤ j → j < S.place p' → j < S.place p)
    (hsent : p' ≠ .sent) (hloop : ∀ i, p' = .loop i → 1 ≤ i ∧ i ≤ S.Num_of_parties + 1)
    (hparty : ∀ i, p'.party = some i → S.IsParty i ∧ i ≠ c)
    (hchecked : ∀ i ctr ct, p' = .check i ctr (some ct) → sv.partialCipherTexts i ≠ none)
    (hrecovering : ∀ i, p' = .recover i → c = 1)
    (hpublishing : ∀ i ct, p' = .publish i ct → c = 1)
    (hwaits : ∀ i, p' = .waitAborts i →
      S.IsParty c ∧ c ≠ 1 ∧ (i ∈ S.D ∨ sv.abortsCipherTexts (1, i) ≠ none))
    (hlead : c = 1 → p' ≠ .exited ∧ (3 ≤ S.Num_of_parties → p' ≠ .failed)) :
    S.ClientOk sv c p' v where
  sent hp := absurd hp hsent
  loop := hloop
  party := hparty
  checked := hchecked
  own := h.own
  filled he hf' j hj hlt := h.filled hex hf j hj (hplace he hf' j hj hlt)
  recovering := hrecovering
  publishing := hpublishing
  waits := hwaits
  lead := hlead

/-! ## The recovery of a key -/

theorem length_others {N i : ℕ} (hi : 1 ≤ i ∧ i ≤ N) : (Fifo.others N i).length = N - 1 := by
  have hset : (Fifo.others N i).toFinset = (Finset.Icc 1 N).erase i := by
    ext j
    simp only [List.mem_toFinset, Fifo.mem_others, Finset.mem_erase, Finset.mem_Icc]
    tauto
  rw [← List.toFinset_card_of_nodup (Fifo.nodup_others N i), hset,
    Finset.card_erase_of_mem (Finset.mem_Icc.mpr hi), Nat.card_Icc]
  omega

/-- With three parties or more the shares on the server bring the key of a party back. -/
theorem recovers (hF : F.Recovers S.cc) (h3 : 3 ≤ S.Num_of_parties)
    (hsv : sv.secretShares = S.init.server.secretShares) {i : ℕ} (hi : S.IsParty i) :
    ∃ shares, sv.secretSharesToClient i S.thresh S.Num_of_parties = some shares ∧
      F.recoverSharedKey S.cc shares S.Num_of_parties S.thresh = some (S.secretKey i) := by
  have hlen : ((Fifo.others S.Num_of_parties i).take S.thresh).length = S.thresh := by
    rw [List.length_take, length_others hi]
    unfold thresh
    omega
  have hpos : 0 < S.thresh := Nat.succ_pos _
  unfold Server.secretSharesToClient
  rw [if_neg (by omega), hsv]
  refine ⟨_, rfl, ?_⟩
  refine hF (S.rand i) (S.secretKey i) S.Num_of_parties S.thresh i _
    ((Fifo.others S.Num_of_parties i).take S.thresh).toFinset hpos ?_ (fun j hj => ?_) fun j => ?_
  · rw [List.toFinset_card_of_nodup ((Fifo.nodup_others _ _).sublist (List.take_sublist _ _)), hlen]
  · exact Fifo.mem_others.mp (List.mem_of_mem_take (List.mem_toFinset.mp hj))
  · exact if_congr (by simp) rfl rfl

/-! ## The steps keep the invariant -/

variable (S) in
/-- A client other than client 1 gives up on a party only if that exits, or if client 1 has sent
its pair. -/
def Timely (s : State F) (c : ℕ) : Prop :=
  ∀ i, s.GivesUp c i → c ≠ 1 → i ∈ S.D ∨ s.server.abortsCipherTexts (1, i) ≠ none

theorem inv_init : S.Inv S.init where
  client c := by
    constructor <;> simp [init, Pc.party, place]
  live i hi := by simp [init] at hi
  published i hi := by simp [init] at hi
  shares := rfl

/-- The server gets new entries. -/
theorem Inv.server (h : S.Inv s) (hg : Grows s.server sv')
    (hlive : ∀ i, sv'.partialCipherTexts i ≠ none → i ∉ S.D)
    (hpub : ∀ i, sv'.abortsCipherTexts (1, i) ≠ none → i ≠ 1 ∧ i < S.place (s.pc 1) ∧
      ∃ ct, s.partialCiphertextVec 1 i = some (.aborts, ct))
    (hshares : sv'.secretShares = s.server.secretShares) : S.Inv { s with server := sv' } where
  client c := (h.client c).grows hg
  live := hlive
  published := hpub
  shares := hshares.trans h.shares

/-- A client sends its partial decryption, or exits. -/
theorem Inv.step_start (h : S.Inv s) (h1 : 1 ∉ S.D) (hc : S.IsParty c) (hp : s.pc c = .start) :
    S.Inv (S.step s c) := by
  have hok := h.client c
  rw [hp] at hok
  unfold Setting.step
  rw [if_neg (not_not.mpr hc), hp]
  dsimp only
  split
  · next hd =>
    refine h.goto (hok.moveTo (by simp) (by simp) (by simp) (by simp) (by simp) (by simp [Pc.party])
      (by simp) (by simp) (by simp) (by simp) fun hc1 => ?_) (by rw [hp]; exact Nat.zero_le _)
    exact absurd (hc1 ▸ hd) h1
  · next hd =>
    have h' := h.server (grows_upload s.server (S.ciphertextPartial c) c) (fun i hi => ?_)
      h.published rfl
    · refine h'.goto (c := c) (p := .sent) ?_ (by rw [hp]; exact Nat.zero_le _)
      exact ⟨fun _ => by simp [Server.partialCipherTextFromClient], by simp, by simp [Pc.party],
        by simp, (h'.client c).own, by simp [place], by simp, by simp, by simp, by simp⟩
    · by_cases hic : i = c
      · exact hic ▸ hd
      · refine h.live i ?_
        simpa [Server.partialCipherTextFromClient, hic] using hi

/-- A client that has sent its partial decryption goes on to the loop over the parties. -/
theorem Inv.step_sent (h : S.Inv s) (hc : S.IsParty c) (hp : s.pc c = .sent) :
    S.Inv (S.step s c) := by
  have hok := h.client c
  rw [hp] at hok
  have hrecd : s.server.partialCipherTextsReceivedWait c = true := hok.sent rfl
  unfold Setting.step
  rw [if_neg (not_not.mpr hc), hp]
  dsimp only
  rw [if_pos hrecd]
  refine h.goto (hok.moveTo (by simp) (by simp) (fun _ _ j h1 hj => ?_) (by simp) (fun i hi => ?_)
    (by simp [Pc.party]) (by simp) (by simp) (by simp) (by simp) (by simp))
    (by rw [hp]; exact Nat.zero_le _)
  · simp only [place] at hj
    omega
  · cases hi
    omega

/-- A client at the head of the loop over the parties. -/
theorem Inv.step_loop {i : ℕ} (h : S.Inv s) (hc : S.IsParty c) (hp : s.pc c = .loop i) :
    S.Inv (S.step s c) := by
  have hok := h.client c
  rw [hp] at hok
  have hi := hok.loop i rfl
  have hplace : S.place (s.pc c) = i := by rw [hp]; rfl
  unfold Setting.step
  rw [if_neg (not_not.mpr hc), hp]
  dsimp only
  split
  · next hlt =>
    refine h.goto (hok.moveTo (by simp) (by simp) (fun _ _ j _ hj => ?_) (by simp) (by simp)
      (by simp [Pc.party]) (by simp) (by simp) (by simp) (by simp) (by simp)) ?_
    · simp only [place] at hj ⊢
      omega
    · rw [hplace]
      exact hi.2
  · next hle =>
    have hi' : S.IsParty i := ⟨hi.1, by omega⟩
    split
    · next hne =>
      split
      · next ct hct =>
        refine h.store hi' hplace (by simp [hp]) (by simp [hp]) fun _ => .inr ?_
        rw [show s.server.partialCipherTexts i = some ct from hct]
        simp
      · refine h.goto (hok.moveTo (by simp) (by simp) (fun _ _ j _ hj => hj) (by simp) (by simp)
          (fun j hj => ?_) (by simp) (by simp) (by simp) (by simp) (by simp)) (by rw [hplace]; rfl)
        cases hj
        exact ⟨hi', Ne.symm hne⟩
    · next heq =>
      exact h.store hi' hplace (by simp [hp]) (by simp [hp]) fun _ => .inl (by omega)

/-- A client polls. -/
theorem Inv.step_poll {i ctr : ℕ} (h : S.Inv s) (hc : S.IsParty c) (hp : s.pc c = .poll i ctr) :
    S.Inv (S.step s c) := by
  have hok := h.client c
  rw [hp] at hok
  unfold Setting.step
  rw [if_neg (not_not.mpr hc), hp]
  dsimp only
  refine h.goto (hok.moveTo (by simp) (by simp) (fun _ _ j _ hj => hj) (by simp) (by simp)
    (fun j hj => ?_) (fun j k ct hj => ?_) (by simp) (by simp) (by simp) (by simp)) (by rw [hp]; rfl)
  · cases hj
    exact hok.party i rfl
  · simp only [Pc.check.injEq] at hj
    obtain ⟨rfl, -, hct⟩ := hj
    rw [show s.server.partialCipherTexts i = some ct from hct]
    simp

/-- A client after a poll: here it may give up. -/
theorem Inv.step_check {i ctr : ℕ} {recd : Option F.Ciphertext} (h : S.Inv s)
    (ht : S.Timely s c) (hc : S.IsParty c) (hp : s.pc c = .check i ctr recd) :
    S.Inv (S.step s c) := by
  have hok := h.client c
  rw [hp] at hok
  have hi := hok.party i rfl
  have hplace : S.place (s.pc c) = i := by rw [hp]; rfl
  unfold Setting.step
  rw [if_neg (not_not.mpr hc), hp]
  dsimp only
  split
  · next hg =>
    split
    · next hc1 =>
      refine h.goto (hok.moveTo (by simp) (by simp) (fun _ _ j _ hj => hj) (by simp) (by simp)
        (fun j hj => ?_) (by simp) (fun _ _ => hc1) (by simp) (by simp) (by simp))
        (by rw [hplace]; rfl)
      cases hj
      exact hi
    · next hc1 =>
      refine h.goto (hok.moveTo (by simp) (by simp) (fun _ _ j _ hj => hj) (by simp) (by simp)
        (fun j hj => ?_) (by simp) (by simp) (by simp) (fun j hj => ?_) (by simp))
        (by rw [hplace]; rfl)
      · cases hj
        exact hi
      · cases hj
        exact ⟨hc, hc1, ht i ⟨ctr, recd, hp, hg⟩ hc1⟩
  · cases recd with
    | some ct =>
      exact h.store hi.1 hplace (by simp [hp]) (by simp [hp]) fun _ => .inr (hok.checked i ctr ct rfl)
    | none =>
      refine h.goto (hok.moveTo (by simp) (by simp) (fun _ _ j _ hj => hj) (by simp) (by simp)
        (fun j hj => ?_) (by simp) (by simp) (by simp) (by simp) (by simp)) (by rw [hplace]; rfl)
      cases hj
      exact hi

/-- The recovering client gets the shares of a party. -/
theorem Inv.step_recover {i : ℕ} (hF : F.Recovers S.cc) (h : S.Inv s) (hc : S.IsParty c)
    (hp : s.pc c = .recover i) : S.Inv (S.step s c) := by
  have hok := h.client c
  rw [hp] at hok
  have hi := hok.party i rfl
  have hc1 := hok.recovering i rfl
  have hplace : S.place (s.pc c) = i := by rw [hp]; rfl
  have hfailed : ¬ 3 ≤ S.Num_of_parties → S.Inv (s.goto c .failed) := fun h3 =>
    h.goto (hok.moveTo (by simp) (by simp) (by simp) (by simp) (by simp) (by simp [Pc.party])
      (by simp) (by simp) (by simp) (by simp) fun _ => ⟨by simp, fun h => absurd h h3⟩)
      (by rw [hplace]; exact Nat.le_succ_of_le hi.1.2)
  have hpublish : ∀ ct, S.Inv (s.goto c (.publish i ct)) := fun ct => by
    refine h.goto (hok.moveTo (by simp) (by simp) (fun _ _ j _ hj => hj) (by simp) (by simp)
      (fun j hj => ?_) (by simp) (by simp) (fun _ _ _ => hc1) (by simp) (by simp))
      (by rw [hplace]; rfl)
    cases hj
    exact hi
  unfold Setting.step
  rw [if_neg (not_not.mpr hc), hp]
  dsimp only
  by_cases h3 : 3 ≤ S.Num_of_parties
  · obtain ⟨shares, hsh, hk⟩ := recovers hF h3 h.shares hi.1
    simp only [hsh, hk]
    exact hpublish _
  · split
    · exact hfailed h3
    · split
      · exact hfailed h3
      · exact hpublish _

/-- The recovering client sends a pair. -/
theorem Inv.step_publish {i : ℕ} {ct : F.Ciphertext} (h : S.Inv s) (hc : S.IsParty c)
    (hp : s.pc c = .publish i ct) : S.Inv (S.step s c) := by
  have hok := h.client c
  rw [hp] at hok
  have hi := hok.party i rfl
  have hc1 := hok.publishing i ct rfl
  have hplace : S.place (s.pc c) = i := by rw [hp]; rfl
  unfold Setting.step
  rw [if_neg (not_not.mpr hc), hp]
  dsimp only
  have hst : S.Inv (s.store c i .aborts ct) :=
    h.store hi.1 hplace (by simp [hp]) (by simp [hp]) (by simp)
  refine hst.server (grows_publish _ _ _ _) h.live (fun j hj => ?_) rfl
  by_cases hji : j = i
  · subst hji hc1
    simp [State.store, place, hi.2]
  · refine hst.published j ?_
    simpa [Server.abortsPartialCipherTextFromClient, State.store, hji] using hj

/-- A client waits for a pair. -/
theorem Inv.step_waitAborts {i : ℕ} (h : S.Inv s) (hc : S.IsParty c)
    (hp : s.pc c = .waitAborts i) : S.Inv (S.step s c) := by
  have hok := h.client c
  rw [hp] at hok
  have hplace : S.place (s.pc c) = i := by rw [hp]; rfl
  unfold Setting.step
  rw [if_neg (not_not.mpr hc), hp]
  dsimp only
  split
  · exact h.store (hok.party i rfl).1 hplace (by simp [hp]) (by simp [hp]) (by simp)
  · exact h

/-- A client fuses: it has all partial decryptions. -/
theorem Inv.step_fuse (h : S.Inv s) (hc : S.IsParty c) (hp : s.pc c = .fuse) :
    S.Inv (S.step s c) := by
  have hok := h.client c
  rw [hp] at hok
  obtain ⟨vec, hvec⟩ := Lists.mapM_isSome (l := List.range' 1 S.Num_of_parties)
    (f := s.partialCiphertextVec c) fun j hj => by
      have hj := List.mem_range'_1.mp hj
      exact hok.filled (by simp) (by simp) j hj.1 (by simp only [place]; omega)
  unfold Setting.step
  rw [if_neg (not_not.mpr hc), hp]
  simp only [hvec]
  exact h.goto (hok.moveTo (by simp) (by simp) (fun _ _ j _ hj => hj) (by simp) (by simp)
    (by simp [Pc.party]) (by simp) (by simp) (by simp) (by simp) (by simp)) (by rw [hp]; rfl)

/-- **Every timely step keeps the invariant.** -/
theorem Inv.step (hF : F.Recovers S.cc) (h1 : 1 ∉ S.D) (h : S.Inv s) (ht : S.Timely s c) :
    S.Inv (S.step s c) := by
  by_cases hc : S.IsParty c
  swap
  · unfold Setting.step
    rwa [if_pos hc]
  cases hp : s.pc c with
  | start => exact h.step_start h1 hc hp
  | sent => exact h.step_sent hc hp
  | loop i => exact h.step_loop hc hp
  | poll i ctr => exact h.step_poll hc hp
  | check i ctr recd => exact h.step_check ht hc hp
  | recover i => exact h.step_recover hF hc hp
  | publish i ct => exact h.step_publish hc hp
  | waitAborts i => exact h.step_waitAborts hc hp
  | fuse => exact h.step_fuse hc hp
  | exited | done pt | failed =>
    unfold Setting.step
    rwa [if_neg (not_not.mpr hc), hp]

/-! ## No client is lost -/

/-- Client `c` waits for the pair of party `i`, and client 1 has ended without a fusion, or has
got the partial decryption of `i` from `i` itself, and will never send the pair. -/
def Lost (s : State F) (c i : ℕ) : Prop :=
  s.pc c = .waitAborts i ∧
    (s.pc 1 = .exited ∨ s.pc 1 = .failed ∨ ∃ ct, s.partialCiphertextVec 1 i = some (.own, ct))

/-- **No client is lost**, in any run in which client 1 does not exit and the steps are timely. -/
theorem not_lost (hF : F.Recovers S.cc) (h1 : 1 ∉ S.D) (hs : Reach S.step S.Timely S.init s)
    (c i : ℕ) : ¬ Lost s c i := by
  have h : S.Inv s := hs.invariant inv_init fun s c h ht => h.step hF h1 ht
  rintro ⟨hp, hlost⟩
  obtain ⟨hc, hc1, hwait⟩ := (h.client c).waits i hp
  obtain ⟨hi, hic⟩ := (h.client c).party i (by rw [hp]; rfl)
  have hi1 : i ≠ 1 := by
    rintro rfl
    exact hwait.elim h1 fun hpub => (h.published 1 hpub).1 rfl
  rcases hlost with hex | hf | ⟨ct, hct⟩
  · exact ((h.client 1).lead rfl).1 hex
  · exact ((h.client 1).lead rfl).2 (by omega) hf
  · have hup := ((h.client 1).own i ct hct).resolve_left hi1
    obtain ⟨-, -, x, hx⟩ := h.published i (hwait.resolve_left (h.live i hup))
    simp [hct] at hx

/-! ## Lost clients -/

@[simp] theorem goto_pc (s : State F) (c : ℕ) (p : Pc F) : (s.goto c p).pc c = p :=
  Function.update_self ..

@[simp] theorem goto_server (s : State F) (c : ℕ) (p : Pc F) : (s.goto c p).server = s.server :=
  rfl

@[simp] theorem goto_goto (s : State F) (c : ℕ) (p q : Pc F) :
    (s.goto c p).goto c q = s.goto c q := by
  simp [State.goto]

variable (S) in
/-- The states of all runs: a client may be slow at any point. -/
def Reachable (s : State F) : Prop := Reach S.step (fun _ _ => True) S.init s

variable (S) in
/-- The states of the runs in which clients give up on the parties in `Q` only. -/
def GivingUpOn (Q : Set ℕ) (s : State F) : Prop :=
  Reach S.step (fun s c => ∀ i, s.GivesUp c i → i ∈ Q) S.init s

namespace GivingUpOn

variable {Q : Set ℕ} {i ctr : ℕ} {ct : F.Ciphertext}

theorem reachable (h : S.GivingUpOn Q s) : S.Reachable s := h.mono fun _ _ _ => trivial

/-- Giving up on parties that exit is timely. -/
theorem timely (hQ : ∀ i ∈ Q, i ∈ S.D) (h : S.GivingUpOn Q s) :
    Reach S.step S.Timely S.init s :=
  h.mono fun _ _ h i hg _ => .inl (hQ i (h i hg))

theorem step (h : S.GivingUpOn Q s) (c : ℕ) (hQ : ∀ i, (s.pc c).party = some i → i ∈ Q) :
    S.GivingUpOn Q (S.step s c) :=
  h.tail c fun i ⟨ctr, recd, hp, _⟩ => hQ i (by rw [hp]; rfl)

/-- Client `c` polls in vain until it gives up: a run of `c` alone. -/
theorem poll (hQ : i ∈ Q) (hc : S.IsParty c) (hi : s.server.partialCipherTexts i = none)
    (h : S.GivingUpOn Q (s.goto c (.poll i 0))) (hctr : ctr * ABORTS_SLEEP_TIME_MSECS ≤ TIME_OUT) :
    S.GivingUpOn Q (s.goto c (.poll i ctr)) := by
  induction ctr with
  | zero => exact h
  | succ ctr ih =>
    have hle : ctr * ABORTS_SLEEP_TIME_MSECS ≤ TIME_OUT :=
      (Nat.mul_le_mul_right _ (Nat.le_succ ctr)).trans hctr
    have hpoll : S.step (s.goto c (.poll i ctr)) c = s.goto c (.check i ctr none) := by
      simp [Setting.step, hc, Server.partialCipherTextToClient, hi]
    have hcheck : S.step (s.goto c (.check i ctr none)) c = s.goto c (.poll i (ctr + 1)) := by
      simp [Setting.step, hc, hctr]
    have h' := ((ih hle).step c (by simpa [Pc.party] using hQ))
    rw [hpoll] at h'
    have h'' := h'.step c (by simpa [Pc.party] using hQ)
    rwa [hcheck] at h''

/-- A client that is at party `i` gives up on it, if nothing else happens. -/
theorem giveUp (hQ : i ∈ Q) (hc : S.IsParty c) (hi : S.IsParty i) (hc1 : c ≠ 1) (hci : c ≠ i)
    (hp : s.pc c = .loop i) (hct : s.server.partialCipherTexts i = none)
    (hrecd : s.server.ctRecd i = false) (h : S.GivingUpOn Q s) :
    S.GivingUpOn Q (s.goto c (.waitAborts i)) := by
  have hloop : S.step s c = s.goto c (.poll i 0) := by
    simp [Setting.step, hc, hp, hci, Server.partialCipherTextToClient, hct, not_lt.mpr hi.2]
  have hpoll : S.step (s.goto c (.poll i 100)) c = s.goto c (.check i 100 none) := by
    simp [Setting.step, hc, Server.partialCipherTextToClient, hct]
  have hcheck : S.step (s.goto c (.check i 100 none)) c = s.goto c (.waitAborts i) := by
    have hlate : (100 + 1) * ABORTS_SLEEP_TIME_MSECS > TIME_OUT := by decide
    simp [Setting.step, hc, hc1, hlate, Server.partialCipherTextsReceivedWait, hrecd]
  have hpolls : S.GivingUpOn Q (s.goto c (.poll i 100)) :=
    poll hQ hc hct (hloop ▸ h.step c (by simp [hp, Pc.party])) (by decide)
  have h' := hpolls.step c (by simpa [Pc.party] using hQ)
  rw [hpoll] at h'
  have h'' := h'.step c (by simpa [Pc.party] using hQ)
  rwa [hcheck] at h''

/-- Client `c` sends its partial decryption and goes on to the loop over the parties. -/
theorem upload (hc : S.IsParty c) (hlive : c ∉ S.D) (hp : s.pc c = .start)
    (h : S.GivingUpOn Q s) :
    S.GivingUpOn Q (State.goto { s with
      server := s.server.partialCipherTextFromClient (S.ciphertextPartial c) c } c (.loop 1)) := by
  have hstart : S.step s c = State.goto { s with
      server := s.server.partialCipherTextFromClient (S.ciphertextPartial c) c } c .sent := by
    simp [Setting.step, hc, hp, hlive, State.goto]
  have hsent := h.step c (by simp [hp, Pc.party])
  rw [hstart] at hsent
  have hloop := hsent.step c (by simp [Pc.party])
  simpa [Setting.step, hc, Server.partialCipherTextsReceivedWait,
    Server.partialCipherTextFromClient] using hloop

/-- A client gets the partial decryption of party `i` from the server. -/
theorem receive (hc : S.IsParty c) (hi : S.IsParty i) (hci : c ≠ i) (hp : s.pc c = .loop i)
    (hct : s.server.partialCipherTexts i = some ct) (h : S.GivingUpOn Q s) :
    S.GivingUpOn Q (s.store c i .own ct) := by
  have hloop : S.step s c = s.store c i .own ct := by
    simp [Setting.step, hc, hp, hci, Server.partialCipherTextToClient, hct, not_lt.mpr hi.2]
  exact hloop ▸ h.step c (by simp [hp, Pc.party])

/-- A client stores its own partial decryption. -/
theorem keep (hc : S.IsParty c) (hp : s.pc c = .loop c) (h : S.GivingUpOn Q s) :
    S.GivingUpOn Q (s.store c c .own (S.ciphertextPartial c)) := by
  have hloop : S.step s c = s.store c c .own (S.ciphertextPartial c) := by
    simp [Setting.step, hc, hp, not_lt.mpr hc.2]
  exact hloop ▸ h.step c (by simp [hp, Pc.party])

end GivingUpOn

/-- Client 1 is the only one that recovers keys, and client 1 may exit: then any other client is
lost in some run. -/
theorem lost_of_exit (h1 : 1 ∈ S.D) (hc : S.IsParty c) (hc1 : c ≠ 1) (hlive : c ∉ S.D) :
    ∃ s, S.Reachable s ∧ Lost s c 1 := by
  have hp1 : S.IsParty 1 := ⟨le_rfl, hc.1.trans hc.2⟩
  have hloop : S.GivingUpOn .univ _ := GivingUpOn.upload hc hlive rfl .refl
  have hwait := hloop.giveUp (Set.mem_univ 1) hc hp1 hc1 hc1 (by simp)
    (by simp [Server.partialCipherTextFromClient, hc1.symm, init])
    (by simp [Server.partialCipherTextFromClient, hc1.symm, init])
  refine ⟨_, hwait.reachable.tail 1 trivial, ?_⟩
  have hstart : S.init.pc 1 = .start := rfl
  simp [Lost, Setting.step, hp1.2, h1, State.goto, hc1, hc1.symm, hstart]

/-- All clients are live, but client 2 is slow: client `c` gives up on it before it sends its
partial decryption, which client 1 then gets from client 2 itself. -/
theorem lost_of_late (h1 : 1 ∉ S.D) (h2 : 2 ∉ S.D) (hc : S.IsParty c) (hc3 : 3 ≤ c)
    (hlive : c ∉ S.D) : ∃ s, S.Reachable s ∧ Lost s c 2 := by
  have hp1 : S.IsParty 1 := ⟨le_rfl, hc.1.trans hc.2⟩
  have hp2 : S.IsParty 2 := ⟨by omega, by omega⟩
  have hc1 : c ≠ 1 := by omega
  have hc2 : c ≠ 2 := by omega
  have h₁ : S.GivingUpOn .univ _ := GivingUpOn.upload hp1 h1 rfl .refl
  have h₂ := h₁.upload hc hlive (by simp [State.goto, hc1, init])
  have h₃ := h₂.receive hc hp1 hc1 (by simp)
    (show _ = some (S.ciphertextPartial 1) by simp [Server.partialCipherTextFromClient, hc1.symm])
  have h₄ := h₃.giveUp (Set.mem_univ 2) hc hp2 hc1 hc2 (by simp [State.store])
    (by simp [State.store, Server.partialCipherTextFromClient, hc2.symm, init])
    (by simp [State.store, Server.partialCipherTextFromClient, hc2.symm, init])
  have h₅ := h₄.upload hp2 h2 (by simp [State.store, State.goto, hc2.symm, init])
  have h₆ := h₅.keep hp1 (by simp [State.store, State.goto, hc1.symm])
  have h₇ := h₆.receive hp1 hp2 (by simp) (by simp [State.store])
    (show _ = some (S.ciphertextPartial 2) by
      simp [State.store, State.goto, Server.partialCipherTextFromClient])
  refine ⟨_, h₇.reachable, ?_⟩
  simp [Lost, State.store, State.goto, hc1, hc2]

/-! ## Three parties -/

/-- A network with the ideal instance of OpenFHE, in which the clients `D` exit. -/
def ideal (N : ℕ) (D : Finset ℕ) : Setting OpenFHE.ideal where
  Num_of_parties := N
  D := D
  cc := .bfvrns 65537 4 16 30 60
  resultCT := []
  rand i := (i : ℤ)
  secretKey i := (i : ℤ)

/-- Client 3 exits. Client 2 has the partial decryptions of client 1 and its own, gives up on
client 3 and waits for the pair of client 3, which client 1 will send. -/
theorem not_lost_three : ∃ s, Reach (ideal 3 {3}).step (ideal 3 {3}).Timely (ideal 3 {3}).init s ∧
    s.pc 2 = .waitAborts 3 ∧ ¬ Lost s 2 3 := by
  have hp1 : (ideal 3 {3}).IsParty 1 := by decide
  have hp2 : (ideal 3 {3}).IsParty 2 := by decide
  have h₁ : (ideal 3 {3}).GivingUpOn {3} _ := GivingUpOn.upload hp1 (by decide) rfl .refl
  have h₂ := h₁.upload hp2 (by decide) rfl
  have h₃ := h₂.receive hp2 hp1 (by decide) (goto_pc ..) rfl
  have h₄ := h₃.keep hp2 rfl
  have h₅ := h₄.giveUp (Set.mem_singleton 3) hp2 (by decide) (by decide) (by decide) rfl rfl rfl
  have hrun := h₅.timely (by rintro i rfl; decide)
  exact ⟨_, hrun, goto_pc .., not_lost (OpenFHE.ideal_recovers _) (by decide) hrun 2 3⟩

/-- Client 1 exits, and the two others are enough; client 2 waits for a pair that client 1 never
sends. -/
theorem lost_three : (ideal 3 {1}).thresh ≤ (Finset.Icc 1 3 \ (ideal 3 {1}).D).card ∧
    ∃ s, (ideal 3 {1}).Reachable s ∧ Lost s 2 1 :=
  ⟨by decide, lost_of_exit (by decide) (by decide) (by decide) (by decide)⟩

end Setting

end ThreshNet

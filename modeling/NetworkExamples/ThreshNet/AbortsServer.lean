import NetworkExamples.ThreshNet.Fusion
import NetworkExamples.ThreshNet.KeyGenServer

/-!
# The recovery over the threshold server

The clients of `ThreshClient.lean` with the calls that they make, and the server with its loop. At
the abort point the server has the shares that the clients have dealt in their key generations, and
no partial decryptions.

* `OnMaps`: the maps of the server are those of `Server`.
* `Party.Rel.step`: an atomic call is a step of `Setting.step`.
* `fuses`: what the clients fuse, in every run from the key generations on.
-/

namespace ThreshNet

open Async P2P SecretShares

variable {F : OpenFHE}

/-- A client after the abort point. -/
structure Party (F : OpenFHE) where
  client_id : ℕ
  pc : Pc F
  partialCiphertextVec : ℕ → Option (Source × F.Ciphertext)

namespace Party

def goto (party : Party F) (p : Pc F) : Party F := { party with pc := p }

/-- Store the partial decryption of party `i`, and go on with the next party. -/
def store (party : Party F) (i : ℕ) (src : Source) (ct : F.Ciphertext) : Party F :=
  { party with
    pc := .loop (i + 1)
    partialCiphertextVec := Function.update party.partialCiphertextVec i (some (src, ct)) }

variable (ser : Serials F) (S : Setting F)

/-- What a client does with the reply to a poll for a partial decryption. -/
def receive (party : Party F) (k : F.Ciphertext → Party F) (wait : Party F) (reply : TextReturn) :
    Party F :=
  if reply.textAvailable then
    match ser.ciphertexts.read "Received empty serialized mult partial cipher text result"
      reply.cipherText with
    | .ok (ct :: _) => k ct
    | _ => party.goto .failed
  else wait

/-- The recovering client gets the shares of party `i`. -/
def recover (party : Party F) (i : ℕ) (reply : SharesReturn) : Party F :=
  match ser.secretShares.deserialize reply.secretshares with
  | .error _ => party.goto .failed
  | .ok secretSharesRecd =>
    match F.recoverSharedKey S.cc (shareOf secretSharesRecd) S.Num_of_parties S.thresh with
    | none => party.goto .failed
    | some recovered_sk => party.goto (.publish i
        (F.multipartyDecryptMain S.cc (S.rand party.client_id) S.resultCT recovered_sk))

/-- What a client at a place does next. -/
def act (party : Party F) : Pc F → Next (Party F) Reply
  | .exited | .done _ | .failed => .stop
  | .start =>
    if party.client_id ∈ S.D then .go (party.goto .exited)
    else .call (.PartialCipherTextFromClient
      (ser.ciphertexts.serialize [S.ciphertextPartial party.client_id]) (.ofNat party.client_id))
        fun _ => party.goto .sent
  | .sent =>
    .call (.PartialCipherTextsReceivedWait (.ofNat party.client_id))
      fun (reply : PartialCTFlagReturn) =>
        if reply.textAvailable then party.goto (.loop 1) else party.goto .fuse
  | .loop i =>
    if S.Num_of_parties < i then .go (party.goto .fuse)
    else if party.client_id ≠ i then
      .call (.PartialCipherTextToClient (.ofNat i))
        (party.receive ser (party.store i .own) (party.goto (.poll i 0)))
    else .go (party.store i .own (S.ciphertextPartial party.client_id))
  | .poll i ctr =>
    .call (.PartialCipherTextToClient (.ofNat i))
      (party.receive ser (fun ct => party.goto (.check i ctr (some ct)))
        (party.goto (.check i ctr none)))
  | .check i ctr recd =>
    .call (.PartialCipherTextsReceivedWait (.ofNat i)) fun (reply : PartialCTFlagReturn) =>
      if (ctr + 1) * ABORTS_SLEEP_TIME_MSECS > TIME_OUT ∧ reply.textAvailable = false then
        if party.client_id = recovering_client_id then party.goto (.recover i)
        else party.goto (.waitAborts i)
      else
        match recd with
        | some ct => party.store i .own ct
        | none => party.goto (.poll i (ctr + 1))
  | .recover i =>
    .call (.SecretSharesToClient ⟨.ofNat i, .ofNat S.thresh, .ofNat S.Num_of_parties⟩)
      (party.recover ser S i)
  | .publish i ct =>
    .call (.AbortsPartialCipherTextFromClient (ser.ciphertexts.serialize [ct])
      (.ofNat recovering_client_id) (.ofNat i)) fun _ => party.store i .aborts ct
  | .waitAborts i =>
    .call (.AbortsPartialCipherTextToClients (.ofNat recovering_client_id) (.ofNat i))
      (party.receive ser (party.store i .aborts) party)
  | .fuse =>
    match (List.range' 1 S.Num_of_parties).mapM party.partialCiphertextVec with
    | some vec => .go (party.goto (.done (F.multipartyDecryptFusion S.cc (vec.map (·.2)))))
    | none => .go (party.goto .failed)

def next (party : Party F) : Next (Party F) Reply := party.act ser S party.pc

end Party

/-! ## The maps -/

/-- **The maps of the server hold those of `Server`**, for the clients `1, …, N`. -/
structure OnMaps (N : ℕ) (sv : ServerImpl F) (b : Server F) : Prop where
  partials : ∀ i, i ≤ N → sv.partialCiphertexts (.ofNat i) = (b.partialCipherTexts i).toList
  recd : ∀ i, i ≤ N → sv.ctRecdFlag (.ofNat i) = b.ctRecd i
  aborts : ∀ i, i ≤ N → sv.abortsPartialCiphertexts (.ofNat recovering_client_id, .ofNat i) =
    (b.abortsCipherTexts (recovering_client_id, i)).toList
  shares : ∀ i j, 1 ≤ i → i ≤ N → 1 ≤ j → j ≤ N → j ≠ i →
    uploaded sv.secretShares (.ofNat i) (.ofNat j) = some (b.secretShares i j)

section

variable {N : ℕ} {sv : ServerImpl F} {b : Server F} {i c : ℕ}

/-- A partial decryption is uploaded. -/
theorem OnMaps.partialCipherTextFromClient (h : OnMaps N sv b) (hN : N < 2 ^ 32) (hc : c ≤ N)
    (ct : F.Ciphertext) : OnMaps N { sv with
        partialCiphertexts := Function.update sv.partialCiphertexts (.ofNat c) [ct]
        ctRecdFlag := Function.update sv.ctRecdFlag (.ofNat c) true }
      (b.partialCipherTextFromClient ct c) where
  partials i hi := by
    unfold Server.partialCipherTextFromClient
    by_cases hic : i = c
    · subst hic
      simp
    · have hne : UInt32.ofNat i ≠ UInt32.ofNat c := fun he => hic (ofNat_inj hN hi hc he)
      simpa [hic, hne] using h.partials i hi
  recd i hi := by
    unfold Server.partialCipherTextFromClient
    by_cases hic : i = c
    · subst hic
      simp
    · have hne : UInt32.ofNat i ≠ UInt32.ofNat c := fun he => hic (ofNat_inj hN hi hc he)
      simpa [hic, hne] using h.recd i hi
  aborts := h.aborts
  shares := h.shares

/-- A pair is uploaded. -/
theorem OnMaps.abortsFromClient (h : OnMaps N sv b) (hN : N < 2 ^ 32) (hi : i ≤ N)
    (ct : F.Ciphertext) : OnMaps N { sv with
        abortsPartialCiphertexts := Function.update sv.abortsPartialCiphertexts
          (.ofNat recovering_client_id, .ofNat i) [ct] }
      (b.abortsPartialCipherTextFromClient ct recovering_client_id i) where
  partials := h.partials
  recd := h.recd
  aborts j hj := by
    unfold Server.abortsPartialCipherTextFromClient
    by_cases hji : j = i
    · subst hji
      simp
    · have hne : UInt32.ofNat j ≠ UInt32.ofNat i := fun he => hji (ofNat_inj hN hj hi he)
      simpa [hji, hne] using h.aborts j hj
  shares := h.shares

/-- The reply to a poll for a vector of at most one ciphertext. -/
theorem receive_ciphertexts (ser : Serials F) (sv : ServerImpl F) (party : Party F)
    (k : F.Ciphertext → Party F) (wait : Party F) (ct : Option F.Ciphertext) : ∃ reply, sv.ciphertextsToClient ser ct.toList = .ok (reply, sv) ∧
      party.receive ser k wait reply = match ct with
        | some ct => k ct
        | none => wait := by
  refine ⟨_, sv.ciphertextsToClient_eq _, ?_⟩
  cases ct with
  | none => rfl
  | some ct =>
    have hread := Serial.read_eq (ser.ciphertexts.reads_serialize [ct])
      "Received empty serialized mult partial cipher text result"
    simp [Party.receive, hread]

end

/-! ## The steps -/

namespace Party

/-- The server and the clients, with atomic calls. -/
abbrev Calls (S : Setting F) : Type := Atomic (Fin S.Num_of_parties) (ServerImpl F) (Party F)

variable {ser : Serials F} {S : Setting F} {t t' : Calls S} {s : State F} {sv : ServerImpl F}
  {b : Server F} {a : Fin S.Num_of_parties} {i : ℕ}

theorem isParty (a : Fin S.Num_of_parties) : S.IsParty (a.val + 1) :=
  ⟨Nat.le_add_left _ _, a.isLt⟩

variable (S) in
/-- The clients are where they are in the state `s`. -/
structure Rel (t : Calls S) (s : State F) : Prop where
  maps : OnMaps S.Num_of_parties t.state s.server
  client : ∀ a, t.client a = ⟨a.val + 1, s.pc (a.val + 1), s.partialCiphertextVec (a.val + 1)⟩

theorem Rel.goto (h : Rel S t s) (hm : OnMaps S.Num_of_parties sv b) (a : Fin S.Num_of_parties)
    (p : Pc F) : Rel S ⟨sv, Function.update t.client a ((t.client a).goto p)⟩
      { s.goto (a.val + 1) p with server := b } where
  maps := hm
  client e := by
    by_cases he : e = a
    · subst he
      simp [State.goto, Party.goto, h.client]
    · have hne : e.val ≠ a.val := fun hv => he (Fin.ext hv)
      simpa [State.goto, he, hne] using h.client e

theorem Rel.store (h : Rel S t s) (hm : OnMaps S.Num_of_parties sv b) (a : Fin S.Num_of_parties)
    (i : ℕ) (src : Source) (ct : F.Ciphertext) :
    Rel S ⟨sv, Function.update t.client a ((t.client a).store i src ct)⟩
      { s.store (a.val + 1) i src ct with server := b } where
  maps := hm
  client e := by
    by_cases he : e = a
    · subst he
      simp [State.store, Party.store, h.client]
    · have hne : e.val ≠ a.val := fun hv => he (Fin.ext hv)
      simpa [State.store, he, hne] using h.client e

/-- A client that only waits. -/
theorem Rel.same (h : Rel S t s) (hm : OnMaps S.Num_of_parties sv s.server)
    (a : Fin S.Num_of_parties) : Rel S ⟨sv, Function.update t.client a (t.client a)⟩ s :=
  ⟨hm, fun e => by rw [Function.update_eq_self]; exact h.client e⟩

variable [Inhabited F.DCRTPoly]

/-- What client `a` does, `n`, takes the clients and the server to `s'`. -/
def Acts (ser : Serials F) (S : Setting F) (t : Calls S)
    (a : Fin S.Num_of_parties) (n : Next (Party F) Reply) (s' : State F) : Prop :=
  (n = .stop ∧ Rel S t s') ∨
  (∃ p, n = .go p ∧ Rel S ⟨t.state, Function.update t.client a p⟩ s') ∨
  ∃ r K reply sv', n = .call r K ∧ ServerImpl.handle ser r t.state = .ok (reply, sv') ∧
    Rel S ⟨sv', Function.update t.client a (K reply)⟩ s'

omit [Inhabited F.DCRTPoly] in
theorem Rel.client_id (h : Rel S t s) (a : Fin S.Num_of_parties) :
    (t.client a).client_id = a.val + 1 := by
  rw [h.client]

theorem Rel.acts_start (h : Rel S t s) (hN : S.Num_of_parties + 1 < 2 ^ 32)
    (hp : s.pc (a.val + 1) = .start) :
    Acts ser S t a ((t.client a).act ser S .start) (S.step s (a.val + 1)) := by
  unfold Setting.step act
  rw [if_neg (not_not.mpr (isParty a)), hp, h.client_id]
  dsimp only
  split
  · exact .inr (.inl ⟨_, rfl, h.goto h.maps a .exited⟩)
  · exact .inr (.inr ⟨_, _, _, _, rfl,
      t.state.partialCipherTextFromClient_eq (ser.ciphertexts.reads_serialize _) _,
      h.goto (h.maps.partialCipherTextFromClient (by omega) (isParty a).2 _) a .sent⟩)

theorem Rel.acts_sent (h : Rel S t s) (hp : s.pc (a.val + 1) = .sent) :
    Acts ser S t a ((t.client a).act ser S .sent) (S.step s (a.val + 1)) := by
  unfold Setting.step act
  rw [if_neg (not_not.mpr (isParty a)), hp, h.client_id]
  refine .inr (.inr ⟨_, _, _, _, rfl, rfl, ?_⟩)
  dsimp only
  rw [h.maps.recd (a.val + 1) (isParty a).2]
  unfold Server.partialCipherTextsReceivedWait
  split
  · exact h.goto h.maps a (.loop 1)
  · exact h.goto h.maps a .fuse

/-- A poll for the partial decryption of party `i`. -/
theorem Rel.acts_poll (h : Rel S t s) (hi : i ≤ S.Num_of_parties) (k : F.Ciphertext → Party F)
    (wait : Party F) {s' : State F}
    (hk : ∀ ct, s.server.partialCipherTexts i = some ct →
      Rel S ⟨t.state, Function.update t.client a (k ct)⟩ s')
    (hwait : s.server.partialCipherTexts i = none →
      Rel S ⟨t.state, Function.update t.client a wait⟩ s') :
    Acts ser S t a (.call (.PartialCipherTextToClient (.ofNat i))
      ((t.client a).receive ser k wait)) s' := by
  obtain ⟨reply, hreply, hreceive⟩ := receive_ciphertexts ser t.state (t.client a) k wait
    (s.server.partialCipherTexts i)
  rw [← h.maps.partials i hi] at hreply
  refine .inr (.inr ⟨.PartialCipherTextToClient (.ofNat i), _, reply, _, rfl, hreply, ?_⟩)
  rw [hreceive]
  cases hct : s.server.partialCipherTexts i with
  | some ct => exact hk ct hct
  | none => exact hwait hct

theorem Rel.acts_loop (h : Rel S t s) (hp : s.pc (a.val + 1) = .loop i) :
    Acts ser S t a ((t.client a).act ser S (.loop i)) (S.step s (a.val + 1)) := by
  unfold Setting.step act
  rw [if_neg (not_not.mpr (isParty a)), hp, h.client_id]
  dsimp only
  split
  · exact .inr (.inl ⟨_, rfl, h.goto h.maps a .fuse⟩)
  · next hi =>
    split
    · refine h.acts_poll (not_lt.mp hi) _ _ (fun ct hct => ?_) fun hct => ?_
      · simp only [Server.partialCipherTextToClient, hct]
        exact h.store h.maps a i .own ct
      · simp only [Server.partialCipherTextToClient, hct]
        exact h.goto h.maps a (.poll i 0)
    · exact .inr (.inl ⟨_, rfl, h.store h.maps a i .own _⟩)

theorem Rel.acts_check {ctr : ℕ} {recd : Option F.Ciphertext} (h : Rel S t s)
    (hi : i ≤ S.Num_of_parties) (hp : s.pc (a.val + 1) = .check i ctr recd) :
    Acts ser S t a ((t.client a).act ser S (.check i ctr recd)) (S.step s (a.val + 1)) := by
  unfold Setting.step act
  rw [if_neg (not_not.mpr (isParty a)), hp]
  refine .inr (.inr ⟨_, _, _, _, rfl, rfl, ?_⟩)
  dsimp only
  rw [h.maps.recd i hi, h.client_id]
  unfold Server.partialCipherTextsReceivedWait
  split
  · split
    · exact h.goto h.maps a (.recover i)
    · exact h.goto h.maps a (.waitAborts i)
  · split
    · next ct => exact h.store h.maps a i .own ct
    · exact h.goto h.maps a (.poll i (ctr + 1))

theorem Rel.acts_publish {ct : F.Ciphertext} (h : Rel S t s) (hN : S.Num_of_parties + 1 < 2 ^ 32)
    (hi : i ≤ S.Num_of_parties) (hp : s.pc (a.val + 1) = .publish i ct) :
    Acts ser S t a ((t.client a).act ser S (.publish i ct)) (S.step s (a.val + 1)) := by
  unfold Setting.step act
  rw [if_neg (not_not.mpr (isParty a)), hp]
  refine .inr (.inr ⟨_, _, _, _, rfl,
    t.state.abortsPartialCipherTextFromClient_eq (ser.ciphertexts.reads_serialize _) _ _, ?_⟩)
  exact h.store (h.maps.abortsFromClient (by omega) hi ct) a i .aborts ct

theorem Rel.acts_waitAborts (h : Rel S t s) (hi : i ≤ S.Num_of_parties)
    (hp : s.pc (a.val + 1) = .waitAborts i) :
    Acts ser S t a ((t.client a).act ser S (.waitAborts i)) (S.step s (a.val + 1)) := by
  unfold Setting.step act
  rw [if_neg (not_not.mpr (isParty a)), hp]
  obtain ⟨reply, hreply, hreceive⟩ := receive_ciphertexts ser t.state (t.client a)
    ((t.client a).store i .aborts) (t.client a) (s.server.abortsCipherTexts (recovering_client_id, i))
  rw [← h.maps.aborts i hi] at hreply
  refine .inr (.inr ⟨.AbortsPartialCipherTextToClients (.ofNat recovering_client_id) (.ofNat i), _,
    reply, _, rfl, hreply, ?_⟩)
  rw [hreceive]
  dsimp only [Server.abortsPartialCipherTextToClients]
  cases s.server.abortsCipherTexts (recovering_client_id, i) with
  | some ct => exact h.store h.maps a i .aborts ct
  | none => exact h.same h.maps a

theorem Rel.acts_fuse (h : Rel S t s) (hp : s.pc (a.val + 1) = .fuse) :
    Acts ser S t a ((t.client a).act ser S .fuse) (S.step s (a.val + 1)) := by
  unfold Setting.step act
  rw [if_neg (not_not.mpr (isParty a)), hp]
  have hvec : (t.client a).partialCiphertextVec = s.partialCiphertextVec (a.val + 1) := by
    rw [h.client]
  rw [hvec]
  dsimp only
  cases (List.range' 1 S.Num_of_parties).mapM (s.partialCiphertextVec (a.val + 1)) with
  | some vec => exact .inr (.inl ⟨_, rfl, h.goto h.maps a _⟩)
  | none => exact .inr (.inl ⟨_, rfl, h.goto h.maps a .failed⟩)

/-- The recovering client gets the shares of party `i`, and recovers its key. -/
theorem Rel.acts_recover (h : Rel S t s) (hsafe : S.Safe s) (hF : F.Recovers S.cc)
    (h3 : 3 ≤ S.Num_of_parties) (hN : S.Num_of_parties + 1 < 2 ^ 32)
    (hi : S.IsParty i) (hp : s.pc (a.val + 1) = .recover i) :
    Acts ser S t a ((t.client a).act ser S (.recover i)) (S.step s (a.val + 1)) := by
  obtain ⟨shares, hshares, hkey⟩ := Setting.recovers hF h3 hsafe.shares hi
  let request : SecretKeySharesRequest := ⟨.ofNat i, .ofNat S.thresh, .ofNat S.Num_of_parties⟩
  have hreq : request.recover_client_id.toNat = i ∧ request.threshold.toNat = S.thresh ∧
      request.num_of_parties.toNat = S.Num_of_parties := by
    have hthresh : S.thresh ≤ S.Num_of_parties := by
      unfold Setting.thresh
      omega
    have hi2 := hi.2
    exact ⟨toNat_ofNat (by omega), toNat_ofNat (by omega), toNat_ofNat (by omega)⟩
  have hNreq : request.num_of_parties.toNat + 1 < 2 ^ 32 := by rw [hreq.2.2]; exact hN
  have hup : ∀ j ∈ ids request, uploaded t.state.secretShares request.recover_client_id j =
      some (s.server.secretShares request.recover_client_id.toNat j.toNat) := by
    intro j hj
    obtain ⟨hj1, hjN, hne⟩ := mem_ids.mp hj
    rw [hreq.2.2] at hjN
    have hji : j.toNat ≠ i := fun he => hne (UInt32.toNat_inj.mp (he.trans hreq.1.symm))
    have hm := h.maps.shares i j.toNat hi.1 hi.2 hj1 hjN hji
    rw [UInt32.ofNat_toNat] at hm
    rw [hreq.1]
    exact hm
  obtain ⟨fuel, reply, ssm', hrun, htyped⟩ := server_secretSharesToClient s.server hNreq hup
  obtain ⟨-, hreply, -⟩ := eq_of_secretSharesToClient hrun
  rw [hreq.1, hreq.2.1, hreq.2.2, hshares] at htyped
  -- The shares are there, and they are what is written.
  have hgiven : given request ≠ [] := by
    intro hnil
    rw [if_pos hnil] at hreply
    rw [hreply] at htyped
    cases htyped
  rw [if_neg hgiven] at hreply
  subst hreply
  have hsame : _ = shareOf (handedOut t.state.secretShares request) := Option.some.inj htyped
  have hhandle : t.state.secretSharesToClient ser request = _ :=
    t.state.secretSharesToClient_eq hNreq
  rw [if_neg hgiven] at hhandle
  unfold Setting.step act
  rw [if_neg (not_not.mpr (isParty a)), hp]
  refine .inr (.inr ⟨.SecretSharesToClient request, _, _, _, rfl, hhandle, ?_⟩)
  simp only [hshares, hkey]
  have hrecover : (t.client a).recover ser S i
      ⟨true, ser.secretShares.serialize (handedOut t.state.secretShares request)⟩ =
        (t.client a).goto (.publish i
          (F.multipartyDecryptMain S.cc (S.rand (a.val + 1)) S.resultCT (S.secretKey i))) := by
    unfold recover
    rw [ser.secretShares.deserialize_serialize]
    dsimp only
    rw [← hsame, hkey, h.client_id]
  rw [hrecover]
  have hm : OnMaps S.Num_of_parties { t.state with secretShares :=
      (subscript t.state.secretShares request.recover_client_id).2 } s.server :=
    ⟨h.maps.partials, h.maps.recd, h.maps.aborts, fun i j h1i hi h1j hj hji =>
      (uploaded_subscript _ _ _ _).trans (h.maps.shares i j h1i hi h1j hj hji)⟩
  exact h.goto hm a _

/-- **What a client does next** is its step in `Setting.step`. -/
theorem Rel.acts (ser : Serials F) (h : Rel S t s) (hsafe : S.Safe s) (hF : F.Recovers S.cc)
    (h3 : 3 ≤ S.Num_of_parties) (hN : S.Num_of_parties + 1 < 2 ^ 32) (a : Fin S.Num_of_parties) :
    Acts ser S t a ((t.client a).next ser S) (S.step s (a.val + 1)) := by
  have hc := isParty a
  have hat := hsafe.pc (a.val + 1)
  unfold next
  rw [show (t.client a).pc = s.pc (a.val + 1) by rw [h.client]]
  cases hp : s.pc (a.val + 1) with
  | start => exact h.acts_start hN hp
  | sent => exact h.acts_sent hp
  | loop i => exact h.acts_loop hp
  | fuse => exact h.acts_fuse hp
  | exited | failed | done pt =>
    refine .inl ⟨rfl, ?_⟩
    unfold Setting.step
    rwa [if_neg (not_not.mpr hc), hp]
  | poll i ctr =>
    rw [hp] at hat
    unfold Setting.step act
    rw [if_neg (not_not.mpr hc), hp]
    refine h.acts_poll hat.1.2 _ _ (fun ct hct => ?_) fun hct => ?_
    · simp only [Server.partialCipherTextToClient, hct]
      exact h.goto h.maps a (.check i ctr (some ct))
    · simp only [Server.partialCipherTextToClient, hct]
      exact h.goto h.maps a (.check i ctr none)
  | check i ctr recd =>
    rw [hp] at hat
    exact h.acts_check hat.1.1.2 hp
  | recover i =>
    rw [hp] at hat
    exact h.acts_recover hsafe hF h3 hN hat.2.1 hp
  | publish i ct =>
    rw [hp] at hat
    exact h.acts_publish hN hat.2.1.1.2 hp
  | waitAborts i =>
    rw [hp] at hat
    exact h.acts_waitAborts hat.1.2 hp

/-- **An atomic call is a step of `Setting.step`.** -/
theorem Rel.step (h : Rel S t s) (hsafe : S.Safe s) (hF : F.Recovers S.cc)
    (h3 : 3 ≤ S.Num_of_parties) (hN : S.Num_of_parties + 1 < 2 ^ 32)
    (hs : Atomic.Step (ServerImpl.service ser) (next ser S) (fun _ _ => False) t t') :
    ∃ a : Fin S.Num_of_parties, Rel S t' (S.step s (a.val + 1)) := by
  cases hs with
  | env henv => exact henv.elim
  | @go a p hnext =>
    refine ⟨a, ?_⟩
    obtain ⟨hn, -⟩ | ⟨p', hn, hrel⟩ | ⟨r, K, reply, sv', hn, -, -⟩ :=
      h.acts ser hsafe hF h3 hN a
    · rw [hn] at hnext
      cases hnext
    · rw [hn] at hnext
      cases hnext
      exact hrel
    · rw [hn] at hnext
      cases hnext
  | @call a r k rep state hnext hhandle =>
    refine ⟨a, ?_⟩
    obtain ⟨hn, -⟩ | ⟨p', hn, -⟩ | ⟨r', K, reply, sv', hn, hh, hrel⟩ :=
      h.acts ser hsafe hF h3 hN a
    · rw [hn] at hnext
      cases hnext
    · rw [hn] at hnext
      cases hnext
    · rw [hn] at hnext
      cases hnext
      cases hh.symm.trans hhandle
      exact hrel

/-! ## The runs -/

theorem Rel.runs (h : Rel S t s) (hsafe : S.Safe s) (hF : F.Recovers S.cc)
    (h3 : 3 ≤ S.Num_of_parties) (hN : S.Num_of_parties + 1 < 2 ^ 32)
    (hr : Atomic.Runs (ServerImpl.service ser) (next ser S) (fun _ _ => False) t t') :
    ∃ s', S.Safe s' ∧ Rel S t' s' := by
  induction hr with
  | refl => exact ⟨s, hsafe, h⟩
  | tail _ hs ih =>
    obtain ⟨s', hsafe', hrel⟩ := ih
    obtain ⟨a, hrel'⟩ := hrel.step hsafe' hF h3 hN hs
    exact ⟨_, hsafe'.step hF h3 _, hrel'⟩

omit [Inhabited F.DCRTPoly] in
/-- A client that has a call on its way has not ended. -/
theorem pc_of_call {party : Party F} {r : Request} {k : Reply r → Party F}
    (hnext : party.next ser S = .call r k) : (∀ pt, party.pc ≠ .done pt) ∧ party.pc ≠ .failed := by
  constructor
  · rintro pt hpc
    unfold next act at hnext
    rw [hpc] at hnext
    cases hnext
  · intro hpc
    unfold next act at hnext
    rw [hpc] at hnext
    cases hnext

end Party

/-! ## From the key generations on -/

section

variable [Inhabited F.DCRTPoly] {ser : Serials F} {N : ℕ} {cc : F.CryptoContext} {r : ℕ → F.Rand}
  {op : ComputeOperation}

/-- The parties after their key generations; the clients `D` exit. -/
abbrev afterKeyGen (cc : F.CryptoContext) (r : ℕ → F.Rand) (N : ℕ) (D : Finset ℕ)
    (resultCT : F.Ciphertext) : Setting F where
  Num_of_parties := N
  D := D
  cc := cc
  resultCT := resultCT
  rand := r
  secretKey := secretKey F cc r

/-- The clients of `x`, which have ended their key generations, at the abort point. -/
def atAborts {C : Type} (x : System Method (Fin N) (ServerImpl F) C Reply) :
    System Method (Fin N) (ServerImpl F) (Party F) Reply :=
  { x with client := fun i => ⟨i.val + 1, .start, fun _ => none⟩ }

omit [Inhabited F.DCRTPoly] in
/-- The server that the clients have dealt their shares to. -/
theorem onMaps_dealt {sv : ServerImpl F} (hN : N < 2 ^ 32) {D : Finset ℕ} {resultCT : F.Ciphertext}
    (hshares : ∀ i, 1 ≤ i → i ≤ N → sv.secretShares[UInt32.ofNat i]? = some (dealt N i
      (F.shareKeys cc (r i) (secretKey F cc r i) N (N / 2 + 1) i)))
    (hctext : sv.partialCiphertexts = fun _ => []) (hflag : sv.ctRecdFlag = fun _ => false)
    (haborts : sv.abortsPartialCiphertexts = fun _ => []) :
    OnMaps N sv (afterKeyGen cc r N D resultCT).init.server where
  partials i _ := by rw [hctext]; rfl
  recd i _ := by rw [hflag]; rfl
  aborts i _ := by rw [haborts]; rfl
  shares i j h1i hi h1j hj hji := by
    have hmem : UInt32.ofNat j ∈ (Fifo.others N i).map UInt32.ofNat :=
      List.mem_map_of_mem (Fifo.mem_others.mpr ⟨h1j, hj, hji⟩)
    unfold uploaded
    rw [hshares i h1i hi, Option.bind_some, dealt, getElem?_enter, if_pos hmem,
      toNat_ofNat (by omega)]
    rfl

/-- The clients at the abort point, once all have ended their key generations. -/
theorem atAborts_sim (hF : F.Recovers cc) (h3 : 3 ≤ N) (hN : N + 1 < 2 ^ 32) (D : Finset ℕ)
    (resultCT : F.Ciphertext)
    {x : System Method (Fin N) (ServerImpl F) (Session F (KeyPair F.PublicKey F.SecretKey)) Reply}
    (hr : ServerImpl.Runs ser (Session.next ser N) (keyGenServer cc r N op) x)
    (hend : ∀ i, ∃ keyPair inserted, x.client i = .run (.ret keyPair) inserted)
    {y : System Method (Fin N) (ServerImpl F) (Party F) Reply}
    (hy : ServerImpl.Runs ser (Party.next ser (afterKeyGen cc r N D resultCT)) (atAborts x) y) :
    y.Inv (ServerImpl.service ser) (Party.next ser (afterKeyGen cc r N D resultCT)) Set.univ ∧
      ∃ (t : Party.Calls (afterKeyGen cc r N D resultCT)) (s : State F),
        Sim (Party.next ser (afterKeyGen cc r N D resultCT)) y t ∧
        (afterKeyGen cc r N D resultCT).Safe s ∧ Party.Rel (afterKeyGen cc r N D resultCT) t s := by
  have hinv := ServerImpl.runs_inv hr
  obtain ⟨t₀, -, hsim₀, -, -⟩ := runs_rel ser cc r op (by omega) (by omega) hr
  have hidle : ∀ i, x.phase i = .idle := by
    intro i
    obtain ⟨keyPair, inserted, hc⟩ := hend i
    exact hsim₀.idle_of_stop hinv (by rw [hc]; rfl)
  have hinv' : (atAborts x).Inv (ServerImpl.service ser)
      (Party.next ser (afterKeyGen cc r N D resultCT)) Set.univ := hinv.restart hidle _
  obtain ⟨t, hrt, hsim⟩ := (Sim.of_idle hinv' hidle).runs hinv' hy
  obtain ⟨hshares, hctext, hflag, haborts⟩ := dealt_of_ended (by omega) (by omega) hr hend
  have hmaps : OnMaps N x.server.state (afterKeyGen cc r N D resultCT).init.server :=
    onMaps_dealt (by omega) hshares hctext hflag haborts
  have hrel : Party.Rel (afterKeyGen cc r N D resultCT)
      ⟨x.server.state, (atAborts x).client⟩ (afterKeyGen cc r N D resultCT).init :=
    ⟨hmaps, fun _ => rfl⟩
  obtain ⟨s, hsafe, hrel'⟩ := hrel.runs Setting.safe_init hF h3 hN hrt
  exact ⟨hinv'.runs hy, t, s, hsim, hsafe, hrel'⟩

/-- **The fusions over the server**, in every run from the key generations on, whatever the clients
give up on: a client that has fused has one partial decryption for the key of each party, no client
fails, and no request makes the server throw. -/
theorem fuses (hF : F.Recovers cc) (h3 : 3 ≤ N) (hN : N + 1 < 2 ^ 32) (D : Finset ℕ)
    (resultCT : F.Ciphertext)
    {x : System Method (Fin N) (ServerImpl F) (Session F (KeyPair F.PublicKey F.SecretKey)) Reply}
    (hr : ServerImpl.Runs ser (Session.next ser N) (keyGenServer cc r N op) x)
    (hend : ∀ i, ∃ keyPair inserted, x.client i = .run (.ret keyPair) inserted)
    {y : System Method (Fin N) (ServerImpl F) (Party F) Reply}
    (hy : ServerImpl.Runs ser (Party.next ser (afterKeyGen cc r N D resultCT)) (atAborts x) y) :
    (∀ i pt, (y.client i).pc = .done pt → (afterKeyGen cc r N D resultCT).Complete pt) ∧
      (∀ i, (y.client i).pc ≠ .failed) ∧
      ∀ tag ok fresh e, (tag, .done ok) ∈ y.server.ops →
        y.server.turn (ServerImpl.service ser) tag ok fresh = .error e →
        e = .notOk ∧ (y.server.down = true ∨ ∃ i, y.gone i = true) := by
  obtain ⟨hinv, t, s, hsim, hsafe, hrel⟩ := atAborts_sim hF h3 hN D resultCT hr hend hy
  -- A client that has ended has no call on its way.
  have hpc : ∀ i, (y.client i).pc = s.pc (i.val + 1) ∨
      (∀ pt, (y.client i).pc ≠ .done pt) ∧ (y.client i).pc ≠ .failed := by
    intro i
    rcases hsim.client_or hinv i with hc | ⟨-, req, k, rep, hnext, -⟩
    · exact .inl (by rw [← hc, hrel.client])
    · exact .inr (Party.pc_of_call hnext)
  refine ⟨fun i pt hpt => ?_, fun i hfail => ?_, fun tag ok fresh e hop he => ?_⟩
  · have hs := (hpc i).resolve_right fun h => h.1 pt hpt
    exact hsafe.at (hs.symm.trans hpt)
  · have hs := (hpc i).resolve_right fun h => h.2 hfail
    exact hsafe.at (hs.symm.trans hfail)
  · rcases hinv.turn_error hop he with ⟨i, req, m, hhold, hm, -⟩ | ⟨-, he, hor⟩
    · obtain ⟨-, k, hk⟩ := hinv.held tag _ hhold
      have hk : (y.client i).next ser (afterKeyGen cc r N D resultCT) = .call req k := hk
      rw [← hsim.called tag i req hhold] at hk
      obtain ⟨hn, -⟩ | ⟨p, hn, -⟩ | ⟨req', K, rep, sv', hn, hh, -⟩ :=
        hrel.acts ser hsafe hF h3 hN i
      · rw [hn] at hk
        cases hk
      · rw [hn] at hk
        cases hk
      · rw [hn] at hk
        cases hk
        rw [hsim.state] at hh
        cases hm.symm.trans hh
    · exact ⟨he, hor⟩

end

/-- Three clients, all of which exit after their key generations but client 1. -/
theorem fuses_three : ∃ x : System Method (Fin 3) (ServerImpl OpenFHE.ideal)
    (Session OpenFHE.ideal (KeyPair ℤ ℤ)) Reply,
    (∀ i, ∃ keyPair inserted, x.client i = .run (.ret keyPair) inserted) ∧
    ∀ y, ServerImpl.Runs Serials.ideal (Party.next Serials.ideal
        (afterKeyGen (F := OpenFHE.ideal) (.ckksrns 1 50) (fun i => (i : ℤ)) 3 {2, 3} [1]))
        (atAborts x) y →
      ∀ i pt, (y.client i).pc = .done pt →
        (afterKeyGen (F := OpenFHE.ideal) (.ckksrns 1 50) (fun i => (i : ℤ)) 3 {2, 3} [1]).Complete
          pt := by
  have hrefl : ServerImpl.Runs Serials.ideal (Session.next Serials.ideal 3)
      (keyGenServer (F := OpenFHE.ideal) (.ckksrns 1 50) (fun i => (i : ℤ)) 3 .add)
      (keyGenServer (F := OpenFHE.ideal) (.ckksrns 1 50) (fun i => (i : ℤ)) 3 .add) := .refl
  obtain ⟨x, hr, -, hend⟩ := completes (by decide) (by decide) hrefl (System.init_up _ _ _)
  have hend' : ∀ i, ∃ keyPair inserted, x.client i = .run (.ret keyPair) inserted :=
    fun i => ⟨_, hend i⟩
  exact ⟨x, hend', fun y hy =>
    (fuses (OpenFHE.ideal_recovers _) le_rfl (by decide) {2, 3} [1] hr hend' hy).1⟩

end ThreshNet

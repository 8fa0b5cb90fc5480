import NetworkExamples.Pre.Served

/-!
# Conditions under which served requests throw nothing

The handlers of served requests store ciphertexts, routes and the keys of receivers. `Keeps` says that a
condition on the states allows this. The brokers keep such a condition then (`policy`), and no handler
throws an exception (`policy_total`).

* `safe_text`, `safe_consumer`, `safe_upload`: the handlers of the brokers.
-/

namespace Pre.Survival

open Rpc BrokerServer

/-- **What the condition has to allow**, for handlers that are about the names `N`. -/
structure Keeps (N : Text → Prop) (G : Rely World) : Prop where
  alive : ∀ t, G.inv t → Alive t
  holds : ∀ s t b P, G.rel s t → s.Holds b P → t.Holds b P
  recd : ∀ s t k owner, G.rel s t → (s.keyServers k).RecdPublicKeys owner ≠ none →
    (t.keyServers k).RecdPublicKeys owner ≠ none
  setCipherText : ∀ t p up P ct, G.inv t → N P → (∃ u, G.inv u ∧ Has u (p :: up) P) →
    let t' := t.setCipherText (p :: up) P (some ct)
    G.inv t' ∧ G.rel t t'
  setRoutingTable : ∀ t b ch up down flag, G.inv t → N (producerName ch) →
    Route.Ok ⟨ch, up, down, source_sink flag⟩ → t.Holds b (producerName ch) →
    let t' := t.setRoutingTable b fun routingTable => UpdateRoutingTable routingTable ch up down flag
    G.inv t' ∧ G.rel t t'
  setRecdPublicKey : ∀ t u type name key, G.inv t → N name →
    let t' := t.setRecdPublicKey u (type, name) key
    G.inv t' ∧ G.rel t t'
  record : ∀ t e, G.inv t → G.inv (t.record e) ∧ G.rel t (t.record e)

variable {N : Text → Prop} {G : Rely World}

/-! ## The keys -/

section

variable {cfg : Config} {s : World} {k : ℕ} {m : MessageRequest} {x : Bytes}
  {type name upstream_name upstream_type : Text}

theorem Keeps.quiet (hG : Keeps N G) (hm : N m.client_name) : KeyServer.Quiet cfg G False m where
  ksDown hE := hE.elim
  ksUp t k ht hdown := by
    rw [(hG.alive t ht).keyServers k] at hdown
    cases hdown
  recd _ t _ u key _ _ ht _ _ := hG.setRecdPublicKey t u _ _ key ht hm

/-- The answer is a key if there is one. -/
theorem publicKey_of_reply {reply : MessageReturn}
    (hfound : PkFound cfg G.inv k (m.client_type, m.client_name))
    (h : KeyServer.PublicKeyReply cfg G s k m reply) :
    reply.keyAvailable = true ∧ reply.pkey.toPublicKey ≠ none := by
  have hother : (∃ t, G.inv t ∧ G.rel s t ∧
      (t.keyServers k).PublicKeys (m.client_type, m.client_name) = none) →
      m.client_type ≠ producer ∧ ∃ u, cfg.upstream_key_server k = some u ∧
        ∀ t, G.inv t → (t.keyServers u).PublicKeys (m.client_type, m.client_name) ≠ none := by
    rintro ⟨t, ht, -, hnone⟩
    exact hfound.resolve_left fun h => h t ht hnone
  cases h with
  | missing hp hnone => exact absurd hp (hother hnone).1
  | here t key => exact ⟨rfl, Option.some_ne_none _⟩
  | upstream u t hu hnone ht =>
    obtain ⟨-, u', hu', hkey⟩ := hother hnone
    obtain rfl := Option.some.inj (hu'.symm.trans hu)
    obtain ⟨key, hkey⟩ := Option.ne_none_iff_exists'.mp (hkey t ht)
    rw [hkey]
    exact ⟨rfl, Option.some_ne_none _⟩

theorem safe_PublicKeyToBroker (hG : Keeps N G) (hname : N name)
    (hserved : PkServed cfg G.inv k (type, name)) :
    (BrokerServer.PublicKeyToBroker cfg k x type name).Safe G False
      (fun _ y => PkFound cfg G.inv k (type, name) → y.toPublicKey ≠ none) s := by
  refine Handler.Safe.bind (KeyServer.safe_PublicKeyToBroker (hG.quiet hname)
    fun t ht _ hnone hne hu => ?_) fun t reply _ hreply hfound => ?_
  · rcases hserved t ht with h | h | h
    · exact h hnone
    · exact hne h
    · exact h hu
  · obtain ⟨havailable, hkey⟩ := publicKey_of_reply hfound hreply
    rwa [if_pos havailable]

/-- The private key is at the upstream key server, if it is not at this one. -/
theorem reKey_of_reply (hG : Keeps N G) {reply : MessageReturn}
    (hfound : RkFound cfg G.inv k (m.upstream_client_type, m.upstream_client_name))
    (h : KeyServer.ReKeyReply cfg G s k m reply) :
    reply.keyAvailable = true ∧ reply.reKey.toEvalKey ≠ none := by
  have hother : (∃ t, G.inv t ∧ G.rel s t ∧ (t.keyServers k).PrivateKeys
      (m.upstream_client_type, m.upstream_client_name) = none) →
      m.upstream_client_type ≠ producer ∧ ∃ u, cfg.upstream_key_server k = some u ∧ ∀ t, G.inv t →
        (t.keyServers u).PrivateKeys (m.upstream_client_type, m.upstream_client_name) ≠ none := by
    rintro ⟨t, ht, -, hnone⟩
    exact hfound.resolve_left fun h => h t ht hnone
  cases h with
  | missing hp hnone => exact absurd hp (hother hnone).1
  | here t key rk => exact ⟨rfl, Option.some_ne_none rk⟩
  | upstream u t₁ t key reKey _ hu hnone ht₁ ht _ hempty hrk =>
    obtain ⟨-, u', hu', hkey⟩ := hother hnone
    obtain rfl := Option.some.inj (hu'.symm.trans hu)
    have hne : reKey ≠ .empty := by
      intro h
      rcases hempty h with hnone | hnone
      · exact hkey t ht hnone
      · refine hG.recd _ _ u' _ ht₁ ?_ hnone
        simp [World.setRecdPublicKey]
    obtain ⟨rk, rfl, -⟩ := hrk hne
    exact ⟨rfl, Option.some_ne_none rk⟩

/-- With the private key here there is a re-encryption key exactly if the client is authorized. -/
theorem reKeyC_of_reply {reply : MessageReturn}
    (hpriv : ∀ t, G.inv t →
      (t.keyServers k).PrivateKeys (m.upstream_client_type, m.upstream_client_name) ≠ none)
    (h : KeyServer.ReKeyReply cfg G s k m reply) :
    reply.reKey.toEvalKey.join ≠ none ↔ m.client_name ∈ cfg.authorizedConsumers k := by
  have hother : ¬ ∃ t, G.inv t ∧ G.rel s t ∧ (t.keyServers k).PrivateKeys
      (m.upstream_client_type, m.upstream_client_name) = none := by
    rintro ⟨t, ht, -, hnone⟩
    exact hpriv t ht hnone
  cases h with
  | missing _ hnone => exact absurd hnone hother
  | here t key rk _ _ _ hrk =>
    refine ⟨fun h => ?_, fun hauth => ?_⟩
    · obtain ⟨r, hr⟩ := Option.ne_none_iff_exists'.mp h
      obtain rfl : rk = some r := hr
      exact (KeyServer.reencryptionKey_eq_some hrk).1
    · obtain ⟨_, _, rfl, -⟩ := KeyServer.reencryptionKey_authorized hauth hrk
      exact Option.some_ne_none _
  | upstream _ _ _ _ _ _ _ hnone => exact absurd hnone hother

theorem safe_ReEncryptionKeyToBroker (hG : Keeps N G) (hname : N name)
    (hserved : RkServed cfg G.inv k (type, name) (upstream_type, upstream_name)) :
    (BrokerServer.ReEncryptionKeyToBroker cfg k x type name upstream_name upstream_type).Safe
      G False (fun _ y =>
        (RkFound cfg G.inv k (upstream_type, upstream_name) → y.toEvalKey ≠ none) ∧
        ((∀ t, G.inv t → (t.keyServers k).PrivateKeys (upstream_type, upstream_name) ≠ none) →
          (y.toEvalKey.join ≠ none ↔ name ∈ cfg.authorizedConsumers k))) s := by
  refine Handler.Safe.bind (KeyServer.safe_ReEncryptionKeyToBroker
    (m := reKeyRequest type name upstream_name upstream_type) (hG.quiet hname)
    fun t ht _ hfails => hserved t ht hfails) fun t reply _ hreply => ⟨fun hfound => ?_, fun hpriv => ?_⟩
  · obtain ⟨havailable, hkey⟩ := reKey_of_reply hG hfound hreply
    rwa [if_pos havailable]
  · rw [if_pos (reKey_of_reply hG (.inl hpriv) hreply).1]
    exact reKeyC_of_reply hpriv hreply

end

/-! ## The handlers of the brokers -/

/-- The names of the brokers and of the producer. -/
def Names (N : Text → Prop) (b : Broker) (channel : Text) : Prop :=
  (∀ p ∈ b, N p.process_name) ∧ N (producerName channel)

theorem Names.sender {p : Params} {up : Broker} {channel : Text} (h : Names N (p :: up) channel) :
    N (sender (p :: up) (producerName channel)).2 := by
  unfold BrokerServer.sender
  split
  · exact h.2
  · next hne =>
    cases up with
    | nil => exact absurd rfl hne
    | cons q up => exact h.1 q (by simp)

/-- The handlers of served requests throw no exception. -/
def policy (cfg : Config) (hG : Keeps N G) : Policy cfg False where
  G := G
  Asks p up m :=
    Names N (p :: up) m.channel_name ∧ N m.client_name ∧ TextServed cfg G.inv (p :: up) m
  Consumes p up m :=
    Names N (p :: up) m.channel_name ∧ N m.client_name ∧ ConsumerServed cfg G.inv p up m
  Fetches p up channel := Names N (p :: up) channel ∧ FetchServed cfg G.inv p up channel
  Serves b channel := b ≠ [] ∧ N (producerName channel)
  stored b P e := e ≠ none ∧ ∃ t, G.inv t ∧ Has t b P
  kept := World.Holds
  sent _ _ _ := True
  operands _ _ := True
  publicKey p up P x :=
    PkFound cfg G.inv p.key_server (sender (p :: up) P) → x.toPublicKey ≠ none
  rekey p up P x := RkFound cfg G.inv p.key_server (sender (p :: up) P) → x.toEvalKey ≠ none
  publicKeyC _ _ x := x.toPublicKey ≠ none
  rekeyC p m x := x.toEvalKey ≠ none ∧
    (x.toEvalKey.join ≠ none → m.client_name ∈ cfg.authorizedConsumers p.key_server)
  kept_rel _ _ b P h := hG.holds _ _ b P h
  brokerDown h := h.elim
  asks _ _ _ h := ⟨List.cons_ne_nil _ _, h.1.2⟩
  consumes _ _ _ h := ⟨List.cons_ne_nil _ _, h.1.2⟩
  routed t b dest channel routes ht _ hparse hany := ((hG.alive t ht).routes b).holds hparse hany
  entry t b channel ht hc hh := by
    obtain ⟨p, up, rfl⟩ := List.exists_cons_of_ne_nil hc.1
    have hhas : ∃ u, G.inv u ∧ Has u (p :: up) (producerName channel) := ⟨t, ht, .inl hh⟩
    obtain ⟨ct, hct⟩ := hh
    rw [hct]
    exact ⟨⟨Option.some_ne_none ct, hhas⟩, hG.setCipherText t p up _ ct ht hc.2 hhas⟩
  found t b channel e ht hc he := by
    obtain ⟨p, up, rfl⟩ := List.exists_cons_of_ne_nil hc.1
    have hne : e ≠ none := fun h => (hG.alive t ht).cipherTexts _ _ (h ▸ he)
    obtain ⟨ct, rfl⟩ := Option.ne_none_iff_exists'.mp hne
    exact ⟨⟨hne, t, ht, .inl ⟨ct, he⟩⟩, ct, he⟩
  store t p q up channel e ht hc _ he := by
    obtain ⟨ct, rfl⟩ := Option.ne_none_iff_exists'.mp he.1
    obtain ⟨hinv, hrel⟩ := hG.setCipherText t p (q :: up) _ ct ht hc.2 he.2
    exact ⟨hinv, hrel, World.holds_setCipherText.mpr (.inl ⟨rfl, rfl⟩)⟩
  route t p up m ht hm hh := by
    have hhas : ∃ u, G.inv u ∧ Has u (p :: up) (producerName m.channel_name) := ⟨t, ht, .inl hh⟩
    obtain ⟨⟨hch, hsender, hname⟩, hN⟩ : Writes (p :: up) m ∧ N (producerName m.channel_name) := by
      rcases hm with hm | hm
      · exact ⟨hm.2.2.2.1 hhas, hm.1.2⟩
      · exact ⟨hm.2.2.writes hhas, hm.1.2⟩
    exact hG.setRoutingTable t _ _ _ _ _ ht hN ⟨hch, hsender, hname, word_source_sink _⟩ hh
  record t ct rk ht _ := hG.record t _ ht
  send t b m ct ht _ := hG.record t _ ht
  sent_stored _ _ _ _ _ _ := trivial
  miss t p up m ht hm hnone := by
    have hmiss : ∃ u, G.inv u ∧ ¬ u.Holds (p :: up) (producerName m.channel_name) :=
      ⟨t, ht, fun ⟨ct, hct⟩ => by cases hnone.symm.trans hct⟩
    obtain ⟨hpk, hrk, hask, husable⟩ := hm.2.2.2.2 hmiss
    exact ⟨⟨hm.1, hask, husable⟩, fun _ => safe_PublicKeyToBroker hG hm.1.sender hpk, fun _ =>
      (safe_ReEncryptionKeyToBroker hG (hm.1.1 p List.mem_cons_self) hrk).mono
        (fun _ _ _ h => h.1) id⟩
  missC t p up m ht hm hnone :=
    ⟨hm.1, hm.2.2.fetch ⟨t, ht, fun ⟨ct, hct⟩ => by cases hnone.symm.trans hct⟩⟩
  keysC p up m hm := ⟨fun _ => safe_PublicKeyToBroker hG hm.1.sender hm.2.2.publicKey, fun _ =>
    (safe_ReEncryptionKeyToBroker hG (hm.1.1 p List.mem_cons_self) hm.2.2.reKey).mono
      (fun _ _ _ h => h.1) id⟩
  keysForC p up m pk rk hm _ := by
    have hpub : ∀ t, G.inv t → (t.keyServers p.key_server).PublicKeys (broker, p.process_name) ≠ none :=
      fun t ht => (hG.alive t ht).PublicKeys p up (hm.2.2.isUp t ht)
    have hpriv : ∀ t, G.inv t →
        (t.keyServers p.key_server).PrivateKeys (broker, p.process_name) ≠ none :=
      fun t ht => (hG.alive t ht).PrivateKeys p up (hm.2.2.isUp t ht)
    exact ⟨fun _ => (safe_PublicKeyToBroker hG (hm.1.1 p List.mem_cons_self)
        fun t ht => .inl (hpub t ht)).mono (fun _ _ _ h => h (.inl hpub)) id,
      fun _ => (safe_ReEncryptionKeyToBroker hG hm.2.1 hm.2.2.reKeyC).mono
        (fun _ _ _ h => ⟨h.1 (.inl hpriv), (h.2 hpriv).mp⟩) id⟩
  fetches p q up channel hf hne :=
    ⟨⟨fun p' hp' => hf.1.1 p' (List.mem_cons_of_mem p hp'), hf.1.2⟩, hf.1.1 p List.mem_cons_self,
      hf.2.1 hne⟩
  reEncrypted p q up channel ct rk _ hct _ := by
    obtain ⟨-, t, ht, hhas⟩ := hct
    cases rk with
    | none => exact ⟨Option.some_ne_none _, t, ht, .inr hhas⟩
    | some r => exact ⟨trivial, Option.some_ne_none _, t, ht, .inr hhas⟩
  reEncryptedC _ _ _ _ rk _ _ _ := by
    cases rk with
    | none => trivial
    | some r => exact ⟨trivial, fun _ _ => trivial⟩

theorem policy_total {cfg : Config} (hG : Keeps N G) : (policy cfg hG).Total where
  up t p up m ht hm := by
    rcases hm with hm | hm
    · exact hm.2.2.1 t ht
    · exact hm.2.2.isUp t ht
  parse t b dest ht := ((hG.alive t ht).routes b).parse dest
  nonnull _ _ _ h := h.1
  publicKey _ _ _ _ _ hf hx hct := hx (hf.2.2 hct.2).1
  rekey _ _ _ _ _ hf hx hct := ⟨hx (hf.2.2 hct.2).2.1, fun _ _ => (hf.2.2 hct.2).2.2⟩
  publicKeyC _ _ _ _ _ _ hx _ := hx
  rekeyC p up m x ct hm hx hct := by
    refine ⟨hx.1, fun r hr => hm.2.2.security_model hct.2 (hx.2 ?_)⟩
    rw [hr]
    exact Option.some_ne_none r

/-! ## The calls -/

section

variable {cfg : Config} {s : World} {m : MessageRequest} {p : Params} {up : Broker}

theorem safe_text (hG : Keeps N G) (hnames : Names N (p :: up) m.channel_name)
    (hname : N m.client_name) (hc : TextServed cfg G.inv (p :: up) m) :
    (ReEncryptedCipherTextToBroker cfg (p :: up) m).Safe G False (fun _ _ => True) s :=
  (Policy.safe_ReEncryptedCipherTextToBroker (R := policy cfg hG) (.inr (policy_total hG))
    ⟨hnames, hname, hc⟩).mono (fun _ _ _ _ => trivial) id

theorem safe_consumer (hG : Keeps N G) (hnames : Names N (p :: up) m.channel_name)
    (hname : N m.client_name) (hc : ConsumerServed cfg G.inv p up m) :
    (BrokerServer.Proceed cfg (p :: up) .CipherTextToConsumer m).Safe G False (fun _ _ => True) s :=
  (Policy.safe_CipherTextToConsumer (R := policy cfg hG) (.inr (policy_total hG))
    ⟨hnames, hname, hc⟩ fun h => h hc.name).mono (fun _ _ _ _ => trivial) id

/-- The re-encryption of an upload. -/
theorem safe_upload (hG : Keeps N G) (hnames : ∀ q ∈ p :: up, N q.process_name)
    (hname : N m.client_name) (hc : UploadServed cfg G.inv p up m) :
    (reEncryptUpload cfg p m).Safe G False (fun _ _ => True) s := by
  have hpub : ∀ t, G.inv t → (t.keyServers p.key_server).PublicKeys (broker, p.process_name) ≠ none :=
    fun t ht => (hG.alive t ht).PublicKeys p up (hc.isUp t ht)
  refine (Policy.safe_reEncryptUpload (R := policy cfg hG) (s := s) (p := p) (m := m)
    (A := fun x => x.toPublicKey ≠ none) (B := fun x => x.toEvalKey.join ≠ none)
    (fun _ => (safe_PublicKeyToBroker hG hname fun t ht => .inl (hc.publicKey t ht)).mono
      (fun _ _ _ h => h (.inl hc.publicKey)) id)
    (fun _ => (safe_ReEncryptionKeyToBroker hG (hnames p List.mem_cons_self)
      (.of_keys hpub hc.privateKey)).mono (fun _ _ _ h => (h.2 hc.privateKey).mpr hc.authorized) id)
    hc.ctext (fun _ h => h) (fun _ h => h) (fun _ _ _ _ => trivial) fun h => h hc.security_model).mono
    (fun _ _ _ _ => trivial) id

end

end Pre.Survival

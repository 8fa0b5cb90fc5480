import NetworkExamples.Pre.Broker

/-!
# Conditions that the brokers keep

A `Policy` is a condition on the states of the network, with what it says about the ciphertexts: which
ones a broker may store for a producer, and which ones it may send. Its fields are what one action
of a handler needs; the handlers keep it then, whatever other handlers do that keep it too.

* `Policy.safe_ReEncryptedCipherTextToBroker`: by induction along the brokers upstream.
* `Policy.safe_CipherTextToConsumer`.
* `Policy.safe_Proceed`, `Policy.safe_Run`: the calls of a broker, and its start.
-/

namespace Pre

open Rpc BrokerServer

/-- **A condition that the brokers keep.** The handlers throw only if `E`. -/
structure Policy (cfg : Config) (E : Prop) where
  G : Rely World
  /-- The requests of downstream brokers. -/
  Asks : Params → Broker → MessageRequest → Prop
  /-- The requests of consumers. -/
  Consumes : Params → Broker → MessageRequest → Prop
  /-- The channels for which the broker asks its upstream broker. -/
  Fetches : Params → Broker → Text → Prop
  /-- The channels of the broker. -/
  Serves : Broker → Text → Prop
  /-- What the broker may store for a producer. -/
  stored : Broker → Text → Option Ciphertext → Prop
  /-- The broker has the ciphertext of the producer. -/
  kept : World → Broker → Text → Prop
  /-- What the broker may send. -/
  sent : Broker → MessageRequest → Option Ciphertext → Prop
  operands : Option Ciphertext → Option EvalKey → Prop
  /-- The keys for the broker and its sender, and those for a consumer. -/
  publicKey : Params → Broker → Text → Bytes → Prop
  rekey : Params → Broker → Text → Bytes → Prop
  publicKeyC : Params → MessageRequest → Bytes → Prop
  rekeyC : Params → MessageRequest → Bytes → Prop
  kept_rel : ∀ s t b P, G.rel s t → kept s b P → kept t b P
  brokerDown : E → ∀ t b, G.inv t → G.inv (t.brokerDown b) ∧ G.rel t (t.brokerDown b)
  asks : ∀ p up m, Asks p up m → Serves (p :: up) m.channel_name
  consumes : ∀ p up m, Consumes p up m → Serves (p :: up) m.channel_name
  /-- A channel in the routing table. -/
  routed : ∀ t b dest channel routes, G.inv t → Serves b channel →
    ParseRoutingTable (t.brokers b).routingTable dest = some routes →
    routes.any (·.channelName = channel) = true → kept t b (producerName channel)
  entry : ∀ t b channel, G.inv t → Serves b channel → kept t b (producerName channel) →
    let ct := ((t.brokers b).brokerCipherTexts (producerName channel)).join
    stored b (producerName channel) ct ∧ G.inv (t.setCipherText b (producerName channel) ct) ∧
      G.rel t (t.setCipherText b (producerName channel) ct)
  found : ∀ t b channel ct, G.inv t → Serves b channel →
    (t.brokers b).brokerCipherTexts (producerName channel) = some ct →
    stored b (producerName channel) ct ∧ kept t b (producerName channel)
  /-- What the broker stores it has from its upstream broker. -/
  store : ∀ t p q up channel ct, G.inv t → Serves (p :: q :: up) channel →
    kept t (q :: up) (producerName channel) → stored (p :: q :: up) (producerName channel) ct →
    let t' := t.setCipherText (p :: q :: up) (producerName channel) ct
    G.inv t' ∧ G.rel t t' ∧ kept t' (p :: q :: up) (producerName channel)
  route : ∀ t p up m, G.inv t → Asks p up m ∨ Consumes p up m →
    kept t (p :: up) (producerName m.channel_name) →
    let t' := t.setRoutingTable (p :: up) fun routingTable =>
      UpdateRoutingTable routingTable m.channel_name
        (sender (p :: up) (producerName m.channel_name)).2 m.client_name
        (upstream_broker_name (p :: up) = [])
    G.inv t' ∧ G.rel t t'
  record : ∀ t ct rk, G.inv t → operands ct rk →
    G.inv (t.record (.reEncrypt ct rk)) ∧ G.rel t (t.record (.reEncrypt ct rk))
  send : ∀ t b m ct, G.inv t → sent b m ct →
    G.inv (t.record (.sent b m ct)) ∧ G.rel t (t.record (.sent b m ct))
  /-- What a broker sends to a broker is what it has stored. -/
  sent_stored : ∀ p up m ct, Asks p up m → stored (p :: up) (producerName m.channel_name) ct →
    sent (p :: up) m ct
  /-- The keys that the broker asks for if it does not have the ciphertext. -/
  miss : ∀ t p up m, G.inv t → Asks p up m →
    (t.brokers (p :: up)).brokerCipherTexts (producerName m.channel_name) = none →
    let P := producerName m.channel_name
    let snd := sender (p :: up) P
    Fetches p up m.channel_name ∧
      (∀ s, (BrokerServer.PublicKeyToBroker cfg p.key_server .empty snd.1 snd.2).Safe G E
        (fun _ x => publicKey p up P x) s) ∧
      ∀ s, (BrokerServer.ReEncryptionKeyToBroker cfg p.key_server .empty m.client_type
        p.process_name snd.2 snd.1).Safe G E (fun _ x => rekey p up P x) s
  missC : ∀ t p up m, G.inv t → Consumes p up m →
    (t.brokers (p :: up)).brokerCipherTexts (producerName m.channel_name) = none →
    Fetches p up m.channel_name
  keysC : ∀ p up m, Consumes p up m →
    let P := producerName m.channel_name
    let snd := sender (p :: up) P
    (∀ s, (BrokerServer.PublicKeyToBroker cfg p.key_server .empty snd.1 snd.2).Safe G E
        (fun _ x => publicKey p up P x) s) ∧
      ∀ s, (BrokerServer.ReEncryptionKeyToBroker cfg p.key_server .empty broker
        p.process_name snd.2 snd.1).Safe G E (fun _ x => rekey p up P x) s
  keysForC : ∀ p up m pk rk, Consumes p up m → rekey p up (producerName m.channel_name) rk →
    (∀ s, (BrokerServer.PublicKeyToBroker cfg p.key_server pk broker p.process_name).Safe G E
        (fun _ x => publicKeyC p m x) s) ∧
      ∀ s, (BrokerServer.ReEncryptionKeyToBroker cfg p.key_server rk m.client_type m.client_name
        p.process_name broker).Safe G E (fun _ x => rekeyC p m x) s
  fetches : ∀ p q up channel, Fetches p (q :: up) channel → q.process_name ≠ [] →
    Asks q up { client_type := broker, client_name := p.process_name, channel_name := channel }
  /-- The ciphertext from upstream. -/
  reEncrypted : ∀ p q up channel ct rk, Fetches p (q :: up) channel →
    stored (q :: up) (producerName channel) (some ct) →
    rekey p (q :: up) (producerName channel) (.evalKey rk) →
    match rk with
    | some r => operands (some ct) rk ∧
        stored (p :: q :: up) (producerName channel) (some (ct.reEncrypt r))
    | none => stored (p :: q :: up) (producerName channel) (some ct)
  reEncryptedC : ∀ p up m ct rk, Consumes p up m →
    stored (p :: up) (producerName m.channel_name) ct → rekeyC p m (.evalKey rk) →
    match rk with
    | some r => operands ct rk ∧ ∀ c, ct = some c → sent (p :: up) m (some (c.reEncrypt r))
    | none => sent (p :: up) m ct

namespace Policy

variable {cfg : Config} {E : Prop}

/-- What excludes exceptions in the handlers of the brokers. -/
structure Total (R : Policy cfg E) : Prop where
  up : ∀ t p up m, R.G.inv t → R.Asks p up m ∨ R.Consumes p up m → (t.brokers (p :: up)).up = true
  parse : ∀ t b dest, R.G.inv t → ParseRoutingTable (t.brokers b).routingTable dest ≠ none
  nonnull : ∀ b P ct, R.stored b P ct → ct ≠ none
  publicKey : ∀ p up channel x ct, R.Fetches p up channel →
    R.publicKey p up (producerName channel) x → R.stored up (producerName channel) ct →
    x.toPublicKey ≠ none
  rekey : ∀ p up channel x ct, R.Fetches p up channel → R.rekey p up (producerName channel) x →
    R.stored up (producerName channel) ct →
    x.toEvalKey ≠ none ∧ ∀ r, x.toEvalKey = some (some r) → p.security_model ∈ securityModels
  publicKeyC : ∀ p up m x ct, R.Consumes p up m → R.publicKeyC p m x →
    R.stored (p :: up) (producerName m.channel_name) ct → x.toPublicKey ≠ none
  rekeyC : ∀ p up m x ct, R.Consumes p up m → R.rekeyC p m x →
    R.stored (p :: up) (producerName m.channel_name) ct →
    x.toEvalKey ≠ none ∧ ∀ r, x.toEvalKey = some (some r) → p.security_model ∈ securityModels

variable {R : Policy cfg E} {s : World} {p : Params} {up : Broker} {m : MessageRequest}

/-- What `Total` excludes may happen only if `E`. -/
theorem throws {P : Prop} (hE : E ∨ R.Total) (h : R.Total → ¬ P) (hP : P) : E :=
  hE.elim id fun ht => absurd hP (h ht)

theorem safe_findChannel (hE : E ∨ R.Total) (b : Broker) (dest : Text) {channel : Text}
    (hc : R.Serves b channel) :
    (findChannel b dest channel).Safe R.G E
      (fun t found => found = true → R.kept t b (producerName channel)) s := by
  refine Handler.Safe.bind (Q := fun t w => t = w ∧ R.G.inv w)
    (.get fun t _ ht => ⟨rfl, ht⟩) fun t w _ hw => ?_
  obtain ⟨rfl, ht⟩ := hw
  refine Handler.Safe.bind (Q := fun u routes => R.G.rel t u ∧
      ParseRoutingTable (t.brokers b).routingTable dest = some routes)
    (.ofOption (throws hE fun hT => hT.parse t b dest ht) fun routes hr => ⟨R.G.refl t, hr⟩)
    fun u routes _ hr => fun hfound => ?_
  exact R.kept_rel t u b _ hr.1 (R.routed t b dest channel routes ht hc hr.2 hfound)

theorem safe_storedText {b : Broker} {channel : Text} {channelFound : Bool}
    {fetch : Handler World (Option (Option Ciphertext))} (hc : R.Serves b channel)
    (hfound : channelFound = true → R.kept s b (producerName channel))
    (hfetch : ∀ t, R.G.inv t → (t.brokers b).brokerCipherTexts (producerName channel) = none →
      ∀ u, R.G.rel t u → fetch.Safe R.G E (fun t o => ∀ ct, o = some ct →
        R.stored b (producerName channel) ct ∧ R.kept t b (producerName channel)) u) :
    (storedText b channelFound (producerName channel) fetch).Safe R.G E (fun t o => ∀ ct,
      o = some ct → R.stored b (producerName channel) ct ∧ R.kept t b (producerName channel)) s := by
  unfold storedText
  cases channelFound with
  | true =>
    refine Handler.Safe.map fun t hst ht => ?_
    have hkept := R.kept_rel s t b _ hst (hfound rfl)
    obtain ⟨hstored, hinv, hrel⟩ := R.entry t b channel ht hc hkept
    exact ⟨hinv, hrel, fun ct hct => Option.some.inj hct ▸ ⟨hstored, R.kept_rel _ _ _ _ hrel hkept⟩⟩
  | false =>
    refine Handler.Safe.bind (Q := fun t o => ∃ w, R.G.inv w ∧ R.G.rel w t ∧
        (w.brokers b).brokerCipherTexts (producerName channel) = o)
      (fun t _ ht => ⟨ht, R.G.refl t, t, ht, R.G.refl t, rfl⟩) fun t o _ ho => ?_
    obtain ⟨w, hw, hwt, rfl⟩ := ho
    cases hcache : (w.brokers b).brokerCipherTexts (producerName channel) with
    | some ct =>
      obtain ⟨hstored, hkept⟩ := R.found w b channel ct hw hc hcache
      exact fun ct' hct => Option.some.inj hct ▸ ⟨hstored, R.kept_rel _ _ _ _ hwt hkept⟩
    | none => exact hfetch w hw hcache t hwt

theorem safe_reEncrypt {security_model : Text} {ct : Option Ciphertext}
    {rk : Option EvalKey} (hop : R.operands ct rk) (hct : ct = none → E) (hrk : rk = none → E)
    (hsec : security_model ∉ securityModels → E) :
    (reEncrypt security_model ct rk).Safe R.G E
      (fun _ c' => ∃ c r, ct = some c ∧ rk = some r ∧ c' = c.reEncrypt r) s := by
  unfold reEncrypt
  split
  · refine Handler.Safe.bind (Q := fun _ _ => True) (.modify fun t _ ht => ?_) fun t _ _ _ => ?_
    · obtain ⟨hinv, hrel⟩ := R.record t ct rk ht hop
      exact ⟨hinv, hrel, trivial⟩
    · cases ct with
      | none => exact hct rfl
      | some c =>
        cases rk with
        | none => exact hrk rfl
        | some r => exact ⟨c, r, rfl, rfl, rfl⟩
  · next h => exact hsec h

theorem evalKey_of_toEvalKey {x : Bytes} {rk : Option EvalKey} (h : x.toEvalKey = some rk) :
    x = .evalKey rk := by
  unfold Bytes.toEvalKey at h
  split at h
  · exact congrArg Bytes.evalKey (Option.some.inj h)
  · cases h

theorem safe_storeReEncrypted (hE : E ∨ R.Total) {q : Params} {channel : Text} {pk rk : Bytes}
    {ct : Option Ciphertext} (hc : R.Serves (p :: q :: up) channel)
    (hf : R.Fetches p (q :: up) channel) (hct : R.stored (q :: up) (producerName channel) ct)
    (hkept : R.kept s (q :: up) (producerName channel))
    (hpk : R.publicKey p (q :: up) (producerName channel) pk)
    (hrk : R.rekey p (q :: up) (producerName channel) rk) :
    (storeReEncrypted p (q :: up) (producerName channel) (.ciphertext ct) pk rk).Safe R.G E
      (fun t c => R.stored (p :: q :: up) (producerName channel) c ∧
        R.kept t (p :: q :: up) (producerName channel)) s := by
  refine Handler.Safe.bind (Q := fun _ c => ct = some c)
    (.ofOption (throws hE fun hT hn => hT.nonnull _ _ _ hct hn) fun c h => h) fun t₁ c h₁ h => ?_
  obtain rfl := h
  refine Handler.Safe.bind (Q := fun _ _ => True)
    (.ofOption (throws hE fun hT => hT.publicKey p _ _ pk _ hf hpk hct) fun _ _ => trivial)
    fun t₂ _ h₂ _ => ?_
  refine Handler.Safe.bind (Q := fun _ r => rk = .evalKey r)
    (.ofOption (throws hE fun hT => (hT.rekey p _ _ rk _ hf hrk hct).1)
      fun _ => evalKey_of_toEvalKey) fun t₃ r h₃ hr => ?_
  subst hr
  have hre := R.reEncrypted p q up channel c r hf hct hrk
  refine Handler.Safe.bind (Q := fun _ c' => R.stored (p :: q :: up) (producerName channel) c')
    ?_ fun t₄ c' h₄ hc' => ?_
  · cases r with
    | none => exact hre
    | some r =>
      refine Handler.Safe.map (Handler.Safe.mono (safe_reEncrypt hre.1 (fun h => by cases h)
        (fun h => by cases h) (throws hE fun hT hn => hn ((hT.rekey p _ _ _ _ hf hrk hct).2 r rfl)))
        (fun _ c' _ h => ?_) id)
      obtain ⟨c₀, r₀, h₀, hr₀, rfl⟩ := h
      obtain rfl := Option.some.inj h₀
      obtain rfl := Option.some.inj hr₀
      exact hre.2
  · refine Handler.Safe.bind (Q := fun t _ => R.kept t (p :: q :: up) (producerName channel))
      (.modify fun t h₅ ht => ?_) fun _ _ _ hkept => ⟨hc', hkept⟩
    have hrel := R.G.trans _ _ _ h₁ (R.G.trans _ _ _ h₂ (R.G.trans _ _ _ h₃ h₄))
    have hkept' := R.kept_rel _ _ _ _ (R.G.trans _ _ _ hrel h₅) hkept
    exact R.store t p q up channel c' ht hc hkept' hc'

/-- What a broker answers to a downstream broker. -/
def TextReply (R : Policy cfg E) (b : Broker) (m : MessageRequest) (t : World)
    (reply : MessageReturn) : Prop :=
  reply.producerRegistered = true → reply.textAvailable = true ∧
    ∃ ct, reply.ciphertext = .ciphertext ct ∧ R.stored b (producerName m.channel_name) ct ∧
      R.kept t b (producerName m.channel_name)

theorem safe_fromUpstream (hE : E ∨ R.Total) {upstreamText : MessageRequest → Handler World MessageReturn}
    {channel : Text} {pk rk : Bytes} (hc : R.Serves (p :: up) channel) (hf : R.Fetches p up channel)
    (hpk : R.publicKey p up (producerName channel) pk) (hrk : R.rekey p up (producerName channel) rk)
    (hup : ∀ q up', up = q :: up' → ∀ m s, R.Asks q up' m →
      (upstreamText m).Safe R.G E (R.TextReply up m) s) :
    (fromUpstream p up upstreamText channel pk rk).Safe R.G E (fun t o => ∀ ct, o = some ct →
      R.stored (p :: up) (producerName channel) ct ∧
        R.kept t (p :: up) (producerName channel)) s := by
  unfold fromUpstream
  split
  · exact fun ct h => by cases h
  · next hne =>
    obtain ⟨q, up', rfl⟩ : ∃ q up', up = q :: up' := by
      cases up with
      | nil => exact absurd rfl hne
      | cons q up' => exact ⟨q, up', rfl⟩
    refine Handler.Safe.bind (hup q up' rfl _ _ (R.fetches p q up' channel hf hne))
      fun t reply _ hreply => ?_
    by_cases hreg : reply.producerRegistered = true
    · obtain ⟨htext, ct, hct, hstored, hkept⟩ := hreply hreg
      simp only [hreg, htext, if_true, hct]
      refine Handler.Safe.map (Handler.Safe.mono
        (safe_storeReEncrypted hE hc hf hstored hkept hpk hrk) (fun u c _ h => ?_) id)
      exact fun ct' h' => Option.some.inj h' ▸ h
    · simp only [hreg]
      exact fun ct h => by cases h

theorem safe_addRoute (hm : R.Asks p up m ∨ R.Consumes p up m)
    (hkept : R.kept s (p :: up) (producerName m.channel_name)) :
    (addRoute (p :: up) m).Safe R.G E (fun _ _ => True) s := by
  refine .modify fun t hst ht => ?_
  obtain ⟨hinv, hrel⟩ := R.route t p up m ht hm (R.kept_rel _ _ _ _ hst hkept)
  exact ⟨hinv, hrel, trivial⟩

theorem safe_sendText {b : Broker} {ct : Option Ciphertext} {Q : World → MessageReturn → Prop}
    (hsent : R.sent b m ct)
    (hQ : ∀ t, R.G.rel s t →
      Q t { textAvailable := true, producerRegistered := true, ciphertext := .ciphertext ct }) :
    (sendText b m ct).Safe R.G E Q s := by
  refine Handler.Safe.bind (Q := fun _ _ => True) (.modify fun t _ ht => ?_) fun t _ hst _ => hQ t hst
  obtain ⟨hinv, hrel⟩ := R.send t b m ct ht hsent
  exact ⟨hinv, hrel, trivial⟩

theorem safe_textToBroker (hE : E ∨ R.Total) {upstreamText : MessageRequest → Handler World MessageReturn}
    (hm : R.Asks p up m)
    (hup : ∀ q up', up = q :: up' → ∀ m s, R.Asks q up' m →
      (upstreamText m).Safe R.G E (R.TextReply up m) s) :
    (textToBroker cfg p up upstreamText m).Safe R.G E (R.TextReply (p :: up) m) s := by
  have hc := R.asks p up m hm
  refine Handler.Safe.bind (safe_findChannel hE (p :: up) m.client_name hc) fun t found _ hfound => ?_
  refine Handler.Safe.bind (safe_storedText hc hfound fun t ht hnone u _ => ?_) fun u o _ ho => ?_
  · -- The broker does not have the ciphertext.
    obtain ⟨hf, hpk, hrk⟩ := R.miss t p up m ht hm hnone
    refine Handler.Safe.bind (hpk u) fun _ pk _ hpk => ?_
    refine Handler.Safe.bind (hrk _) fun _ rk _ hrk => ?_
    exact safe_fromUpstream hE hc hf hpk hrk hup
  · cases o with
    | none => exact fun h => by cases h
    | some ct =>
      obtain ⟨hstored, hkept⟩ := ho ct rfl
      refine Handler.Safe.bind (safe_addRoute (.inl hm) hkept) fun _ _ h₁ _ => ?_
      exact safe_sendText (R.sent_stored p up m ct hm hstored) fun _ h₂ _ =>
        ⟨rfl, ct, rfl, hstored, R.kept_rel _ _ _ _ (R.G.trans _ _ _ h₁ h₂) hkept⟩

/-- **A broker answers a downstream broker** with what it has stored. -/
theorem safe_ReEncryptedCipherTextToBroker (hE : E ∨ R.Total) (hm : R.Asks p up m) :
    (ReEncryptedCipherTextToBroker cfg (p :: up) m).Safe R.G E (R.TextReply (p :: up) m) s := by
  induction up generalizing p m s with
  | nil =>
    refine safe_serve (fun h t ht => R.brokerDown h t _ ht)
      (fun t _ ht hdown => throws hE (fun hT h => ?_) hdown) fun t _ _ =>
        safe_textToBroker hE hm fun q up' h => by cases h
    rw [hT.up t _ _ m ht (.inl hm)] at h
    cases h
  | cons q up ih =>
    refine safe_serve (fun h t ht => R.brokerDown h t _ ht)
      (fun t _ ht hdown => throws hE (fun hT h => ?_) hdown) fun t _ _ =>
        safe_textToBroker hE hm fun q' up' h m s hm' => ?_
    · rw [hT.up t _ _ m ht (.inl hm)] at h
      cases h
    · cases h
      exact ih hm'

theorem safe_reEncryptForConsumer (hE : E ∨ R.Total) {ct : Option Ciphertext} {pk rk : Bytes}
    (hm : R.Consumes p up m) (hct : R.stored (p :: up) (producerName m.channel_name) ct)
    (hpk : R.publicKeyC p m pk) (hrk : R.rekeyC p m rk) :
    (reEncryptForConsumer p ct pk rk).Safe R.G E (fun _ c => R.sent (p :: up) m c) s := by
  refine Handler.Safe.bind (Q := fun _ _ => True)
    (.ofOption (throws hE fun hT => hT.publicKeyC p up m pk _ hm hpk hct) fun _ _ => trivial)
    fun _ _ _ _ => ?_
  refine Handler.Safe.bind (Q := fun _ r => rk = .evalKey r)
    (.ofOption (throws hE fun hT => (hT.rekeyC p up m rk _ hm hrk hct).1)
      fun _ => evalKey_of_toEvalKey) fun _ r _ hr => ?_
  subst hr
  have hre := R.reEncryptedC p up m ct r hm hct hrk
  cases r with
  | none => exact hre
  | some r =>
    refine Handler.Safe.map (Handler.Safe.mono (safe_reEncrypt hre.1
      (throws hE fun hT hn => hT.nonnull _ _ _ hct hn) (fun h => by cases h)
      (throws hE fun hT hn => hn ((hT.rekeyC p up m _ _ hm hrk hct).2 r rfl))) (fun _ c' _ h => ?_) id)
    obtain ⟨c, r₀, hc, hr₀, rfl⟩ := h
    obtain rfl := Option.some.inj hr₀
    exact hre.2 c hc

theorem safe_textToConsumer (hE : E ∨ R.Total) (hm : R.Consumes p up m) :
    (textToConsumer cfg p up m).Safe R.G E
      (fun _ reply => ∀ ct, reply.ciphertext = .ciphertext ct → R.sent (p :: up) m ct) s := by
  have hc := R.consumes p up m hm
  obtain ⟨hpk, hrk⟩ := R.keysC p up m hm
  refine Handler.Safe.bind (safe_findChannel hE (p :: up) m.client_name hc) fun t found _ hfound => ?_
  refine Handler.Safe.bind (hpk t) fun t₁ pk h₁ hpk => ?_
  refine Handler.Safe.bind (hrk t₁) fun t₂ rk h₂ hrk => ?_
  refine Handler.Safe.bind (safe_storedText hc
    (fun h => R.kept_rel _ _ _ _ (R.G.trans _ _ _ h₁ h₂) (hfound h))
    fun t ht hnone u _ => ?_) fun t₃ o h₃ ho => ?_
  · refine safe_fromUpstream hE hc (R.missC t p up m ht hm hnone) hpk hrk fun q up' h m s hm' => ?_
    subst h
    exact safe_ReEncryptedCipherTextToBroker hE hm'
  · obtain ⟨hpk', hrk'⟩ := R.keysForC p up m pk rk hm hrk
    refine Handler.Safe.bind (hpk' t₃) fun t₄ pk' h₄ hpk' => ?_
    refine Handler.Safe.bind (hrk' t₄) fun t₅ rk' h₅ hrk' => ?_
    cases o with
    | none => exact fun ct h => by cases h
    | some ct =>
      obtain ⟨hstored, hkept⟩ := ho ct rfl
      have hkept' := R.kept_rel _ _ _ _ (R.G.trans _ _ _ h₄ h₅) hkept
      refine Handler.Safe.bind (safe_addRoute (.inr hm) hkept') fun _ _ _ _ => ?_
      refine Handler.Safe.bind (safe_reEncryptForConsumer hE hm hstored hpk' hrk') fun _ c _ hsent => ?_
      exact safe_sendText hsent fun _ _ _ h => Bytes.ciphertext.inj h ▸ hsent

/-- **A broker answers a consumer** whose name is in the channel. -/
theorem safe_CipherTextToConsumer (hE : E ∨ R.Total) (hm : R.Consumes p up m)
    (hname : (SplitString m.channel_name '-')[1]? ≠ some m.client_name → E) :
    (serve (p :: up) (CipherTextToConsumer cfg p up m)).Safe R.G E
      (fun _ reply => ∀ ct, reply.ciphertext = .ciphertext ct → R.sent (p :: up) m ct) s := by
  refine safe_serve (fun h t ht => R.brokerDown h t _ ht)
    (fun t _ ht hdown => throws hE (fun hT h => ?_) hdown) fun t _ _ => ?_
  · rw [hT.up t _ _ m ht (.inr hm)] at h
    cases h
  · refine Handler.Safe.bind (Q := fun _ c => (SplitString m.channel_name '-')[1]? = some c)
      (.ofOption (fun h => hname (by rw [h]; simp)) fun _ h => h) fun t c _ hc => ?_
    change Handler.Safe _ _ _ _ (if _ then _ else _)
    split
    · next hne => exact hname fun h => hne (Option.some.inj (h.symm.trans hc))
    · exact safe_textToConsumer hE hm

/-- The keys that the broker of a producer asks for. -/
theorem safe_reEncryptUpload {A B : Bytes → Prop}
    (hpk : ∀ s, (BrokerServer.PublicKeyToBroker cfg p.key_server .empty producer
      m.client_name).Safe R.G E (fun _ x => A x) s)
    (hrk : ∀ s, (BrokerServer.ReEncryptionKeyToBroker cfg p.key_server .empty broker p.process_name
      m.client_name producer).Safe R.G E (fun _ x => B x) s)
    (hct : m.ctext.toCiphertext.join = none → E)
    (hA : ∀ x, A x → x.toPublicKey = none → E)
    (hB : ∀ x, B x → x.toEvalKey.join = none → E)
    (hop : ∀ ct rk, m.ctext.toCiphertext.join = some ct → B (.evalKey rk) →
      R.operands (some ct) rk)
    (hsec : p.security_model ∉ securityModels → E) :
    (reEncryptUpload cfg p m).Safe R.G E (fun _ c => ∃ ct r, m.ctext.toCiphertext.join = some ct ∧
      B (.evalKey (some r)) ∧ c = ct.reEncrypt r) s := by
  refine Handler.Safe.bind (Q := fun _ ct => m.ctext.toCiphertext.join = some ct)
    (.ofOption hct fun _ h => h) fun _ ct _ hct' => ?_
  refine Handler.Safe.bind (hpk _) fun _ pk _ hpk' => ?_
  refine Handler.Safe.bind (hrk _) fun _ rk _ hrk' => ?_
  refine Handler.Safe.bind (Q := fun _ _ => True)
    (.ofOption (hA pk hpk') fun _ _ => trivial) fun _ _ _ _ => ?_
  refine Handler.Safe.bind (Q := fun _ r => rk = .evalKey r)
    (.ofOption (fun h => hB rk hrk' (by rw [h]; rfl)) fun _ => evalKey_of_toEvalKey)
    fun _ r _ hr => ?_
  subst hr
  refine Handler.Safe.mono (safe_reEncrypt (hop ct r hct' hrk') (fun h => by cases h)
    (fun h => hB _ hrk' (by rw [h]; rfl)) hsec) (fun _ c _ h => ?_) id
  obtain ⟨ct₀, r₀, h₀, rfl, rfl⟩ := h
  obtain rfl := Option.some.inj h₀
  exact ⟨ct, r₀, hct', hrk', rfl⟩

/-- An upload, if the broker may store what it is re-encrypted to. -/
theorem safe_CipherTextFromProducer
    (hup : ∀ t, R.G.inv t → (t.brokers (p :: up)).up = false → E)
    (hct : ∀ s, (reEncryptUpload cfg p m).Safe R.G E (fun _ ct => ∀ t, R.G.inv t →
      R.G.inv (t.setCipherText (p :: up) m.client_name (some ct)) ∧
        R.G.rel t (t.setCipherText (p :: up) m.client_name (some ct))) s) :
    (serve (p :: up) (CipherTextFromProducer cfg p up m)).Safe R.G E (fun _ _ => True) s := by
  refine safe_serve (fun h t ht => R.brokerDown h t _ ht) (fun t _ ht => hup t ht) fun t _ _ => ?_
  refine Handler.Safe.bind (hct t) fun t ct _ hct => ?_
  refine Handler.Safe.bind (Q := fun _ _ => True) (.modify fun t _ ht => ?_) fun _ _ _ _ => trivial
  obtain ⟨hinv, hrel⟩ := hct t ht
  exact ⟨hinv, hrel, trivial⟩

/-! ## All calls -/

variable {R : Policy cfg True}

/-- **Every call of a broker keeps the condition**, if what is uploaded keeps it. -/
theorem safe_Proceed {b : Broker} {rpc : BrokerServer.Rpc}
    (hasks : ∀ p up, b = p :: up → rpc = .ReEncryptedCipherTextToBroker → R.Asks p up m)
    (hconsumes : ∀ p up, b = p :: up → rpc = .CipherTextToConsumer → R.Consumes p up m)
    (hupload : ∀ p up, b = p :: up → rpc = .CipherTextFromProducer → ∀ s,
      (reEncryptUpload cfg p m).Safe R.G True (fun _ ct => ∀ t, R.G.inv t →
        R.G.inv (t.setCipherText b m.client_name (some ct)) ∧
          R.G.rel t (t.setCipherText b m.client_name (some ct))) s) :
    (BrokerServer.Proceed cfg b rpc m).Safe R.G True (fun _ _ => True) s := by
  have hE : True ∨ R.Total := .inl trivial
  cases b with
  | nil => cases rpc <;> exact trivial
  | cons p up =>
    cases rpc with
    | ReEncryptedCipherTextToBroker =>
      exact (safe_ReEncryptedCipherTextToBroker hE (hasks p up rfl rfl)).mono
        (fun _ _ _ _ => trivial) id
    | CipherTextToConsumer =>
      exact (safe_CipherTextToConsumer hE (hconsumes p up rfl rfl) fun _ => trivial).mono
        (fun _ _ _ _ => trivial) id
    | CipherTextFromProducer =>
      exact safe_CipherTextFromProducer (fun _ _ _ => trivial) (hupload p up rfl rfl)

/-- **A start keeps the condition.** -/
theorem safe_Run {b : Broker}
    (hrestart : ∀ t, R.G.inv t → R.G.inv (t.restart b) ∧ R.G.rel t (t.restart b))
    (hks : ∀ k m t, (KeyServer.Proceed cfg k .CryptoContextRequestFromServer_Broker m).Safe R.G True
      (fun _ _ => True) t) :
    (BrokerServer.Run b).Safe R.G True (fun _ _ => True) s := by
  cases b with
  | nil => exact trivial
  | cons p up =>
    refine Handler.Safe.bind (Q := fun _ _ => True) (.modify fun t _ ht => ?_) fun t _ _ _ => ?_
    · obtain ⟨hinv, hrel⟩ := hrestart t ht
      exact ⟨hinv, hrel, trivial⟩
    · have hstart := hks p.key_server { client_name := p.process_name } t
      exact Handler.Safe.onThrow hstart fun h t ht => R.brokerDown h t _ ht

end Policy

end Pre

import NetworkExamples.Pre.World

/-!
# The key server

The handlers of `pre_ks.h`. A key server without a key asks its upstream key server, if it has one:
`PublicKeyToBroker` for the key of a broker, `ReEncryptionKeyToBroker` for a re-encryption key, after
it has sent the public key of the receiver.

* `safe_PublicKeyToBroker`, `safe_ReEncryptionKeyToBroker`: what these calls answer, whatever other
  calls come in between (`PublicKeyReply`, `ReKeyReply`).
* `safe_Proceed`: a condition that the stored keys keep is kept by every call, and `Fails` says which of
  them throw.
-/

namespace Pre

open Rpc

namespace KeyServer

/-! ## The handlers -/

def received : Text := "Received PKEY. Thank you, Your Server".toList

section

variable (cfg : Config) (k : ℕ) (m : MessageRequest) (ks : KeyServer)

/-- Also for downstream key servers. -/
def CryptoContextFromServer : Handler World MessageReturn :=
  pure { cryptocontext := .cryptoContext }

/-- A broker starts: the key server makes its key pair. -/
def CryptoContextRequestFromServer_Broker : Handler World MessageReturn := do
  Handler.modify (·.setKeyPair k (broker, m.client_name))
  pure { cryptocontext := .cryptoContext }

def PrivateKeyFromProducer : Handler World MessageReturn := do
  let pkey ← Handler.ofOption m.pkey.toPrivateKey.join
  Handler.modify (·.setPrivateKey k (producer, m.client_name) pkey)
  pure { acknowledgement := received }

def PublicKeyFromClient : Handler World MessageReturn := do
  let pkey ← Handler.ofOption m.pkey.toPublicKey.join
  Handler.modify (·.setPublicKey k (m.client_type, m.client_name) pkey)
  pure { acknowledgement := received }

/-! ### For downstream key servers -/

def PublicKeyfromServer : Handler World MessageReturn := do
  let pkey ← Handler.ofOption m.pkey.toPublicKey.join
  Handler.modify (·.setRecdPublicKey k (m.client_type, m.client_name) pkey)
  pure { acknowledgement := received }

def PublicKeyToServer : Handler World MessageReturn :=
  match ks.PublicKeys (m.client_type, m.client_name) with
  | none => pure { keyAvailable := false }
  | some pkey => pure { keyAvailable := true, pkey := .publicKey (some pkey) }

/-- The re-encryption key for an authorized client, else a null pointer. -/
def reencryptionKey (senderPrivateKey receiverPublicKey : Option Key) : Option (Option EvalKey) :=
  if m.client_name ∈ cfg.authorizedConsumers k then
    (ReKeyGen senderPrivateKey receiverPublicKey).map some
  else some none

def ReEncryptionKeyToServer : Handler World MessageReturn :=
  let receiverPublicKey := ks.RecdPublicKeys (m.client_type, m.client_name)
  let senderPrivateKey := ks.PrivateKeys (m.upstream_client_type, m.upstream_client_name)
  if senderPrivateKey = none ∨ receiverPublicKey = none then pure { keyAvailable := false }
  else do
    let reencryptionKey ←
      Handler.ofOption (reencryptionKey cfg k m senderPrivateKey receiverPublicKey)
    pure { keyAvailable := true, reKey := .evalKey reencryptionKey }

/-! ### For brokers -/

/-- Without an upstream key server the internal client has no address. -/
def upstream : Handler World ℕ := Handler.ofOption (cfg.upstream_key_server k)

def PublicKeyToBroker : Handler World MessageReturn :=
  match ks.PublicKeys (m.client_type, m.client_name) with
  | none =>
    if m.client_type = producer then pure { producerRegistered := false }
    else do
      let u ← upstream cfg k
      let reply ← serveKs u (PublicKeyToServer m)
      let reply_publickeyclient := if reply.keyAvailable then reply.pkey else .empty
      if reply_publickeyclient = .empty then pure { keyAvailable := false }
      else pure { keyAvailable := true, pkey := reply_publickeyclient }
  | some pkey =>
    pure { producerRegistered := m.client_type = producer
           keyAvailable := true
           pkey := .publicKey (some pkey) }

/-- That the receiver has no key does not stop the handler. -/
def ReEncryptionKeyToBroker : Handler World MessageReturn :=
  let receiverPublicKey := ks.PublicKeys (m.client_type, m.client_name)
  let senderPrivateKey := ks.PrivateKeys (m.upstream_client_type, m.upstream_client_name)
  match senderPrivateKey with
  | none =>
    if m.upstream_client_type = producer then pure { producerRegistered := false }
    else do
      let u ← upstream cfg k
      let _ ← serveKs u fun _ => PublicKeyfromServer u { m with pkey := .publicKey receiverPublicKey }
      let reply ← serveKs u (ReEncryptionKeyToServer cfg u m)
      let reply_reencryptionkey := if reply.keyAvailable then reply.reKey else .empty
      pure { keyAvailable := true, reKey := reply_reencryptionkey }
  | some _ => do
    let reencryptionKey ←
      Handler.ofOption (reencryptionKey cfg k m senderPrivateKey receiverPublicKey)
    pure { producerRegistered := m.upstream_client_type = producer
           keyAvailable := true
           reKey := .evalKey reencryptionKey }

end

/-- The calls of a key server. -/
inductive Rpc where
  | CryptoContextFromServer
  | CryptoContextRequestFromServer_Server
  | CryptoContextRequestFromServer_Broker
  | PrivateKeyFromProducer
  | PublicKeyFromClient
  | PublicKeyToBroker
  | ReEncryptionKeyToBroker
  | PublicKeyToServer
  | ReEncryptionKeyToServer
  | PublicKeyfromServer
  deriving DecidableEq

def Proceed (cfg : Config) (k : ℕ) (rpc : Rpc) (m : MessageRequest) : Handler World MessageReturn :=
  serveKs k fun ks =>
    match rpc with
    | .CryptoContextFromServer | .CryptoContextRequestFromServer_Server => CryptoContextFromServer
    | .CryptoContextRequestFromServer_Broker => CryptoContextRequestFromServer_Broker k m
    | .PrivateKeyFromProducer => PrivateKeyFromProducer k m
    | .PublicKeyFromClient => PublicKeyFromClient k m
    | .PublicKeyToBroker => PublicKeyToBroker cfg k m ks
    | .ReEncryptionKeyToBroker => ReEncryptionKeyToBroker cfg k m ks
    | .PublicKeyToServer => PublicKeyToServer m ks
    | .ReEncryptionKeyToServer => ReEncryptionKeyToServer cfg k m ks
    | .PublicKeyfromServer => PublicKeyfromServer k m

/-! ## What the calls of the brokers answer -/

/-- A re-encryption key is for an authorized client. -/
theorem reencryptionKey_eq_some {cfg : Config} {k : ℕ} {m : MessageRequest} {sk pk : Option Key}
    {rk : EvalKey} (h : reencryptionKey cfg k m sk pk = some (some rk)) :
    m.client_name ∈ cfg.authorizedConsumers k ∧ sk = some rk.src ∧ pk = some rk.dst := by
  unfold reencryptionKey at h
  split at h
  · next hauth =>
    cases sk with
    | none => cases h
    | some sk =>
      cases pk with
      | none => cases h
      | some pk =>
        cases h
        exact ⟨hauth, rfl, rfl⟩
  · cases h

/-- `ReKeyGen` throws for an authorized client without a key. -/
theorem reencryptionKey_eq_none {cfg : Config} {k : ℕ} {m : MessageRequest} {sk : Key}
    {pk : Option Key} (h : reencryptionKey cfg k m (some sk) pk = none) :
    m.client_name ∈ cfg.authorizedConsumers k ∧ pk = none := by
  unfold reencryptionKey at h
  split at h
  · next hauth =>
    cases pk with
    | none => exact ⟨hauth, rfl⟩
    | some pk => cases h
  · cases h

/-- For an authorized client there is no null pointer. -/
theorem reencryptionKey_authorized {cfg : Config} {k : ℕ} {m : MessageRequest} {sk pk : Option Key}
    {rk : Option EvalKey} (hauth : m.client_name ∈ cfg.authorizedConsumers k)
    (h : reencryptionKey cfg k m sk pk = some rk) :
    ∃ key key', rk = some ⟨key, key'⟩ ∧ sk = some key ∧ pk = some key' := by
  cases rk with
  | none =>
    unfold reencryptionKey at h
    rw [if_pos hauth, Option.map_eq_some_iff] at h
    obtain ⟨_, -, h⟩ := h
    cases h
  | some rk =>
    obtain ⟨-, hsk, hpk⟩ := reencryptionKey_eq_some h
    exact ⟨rk.src, rk.dst, rfl, hsk, hpk⟩

/-- What a condition has to allow for the calls of the brokers. -/
structure Quiet (cfg : Config) (G : Rely World) (E : Prop) (m : MessageRequest) : Prop where
  ksDown : E → ∀ t k, G.inv t → G.inv (t.ksDown k) ∧ G.rel t (t.ksDown k)
  ksUp : ∀ t k, G.inv t → (t.keyServers k).up = false → E
  /-- The public key of the receiver goes to the upstream key server. -/
  recd : ∀ s t k u key, G.inv s → G.rel s t → G.inv t → cfg.upstream_key_server k = some u →
    (s.keyServers k).PublicKeys (m.client_type, m.client_name) = some key →
    G.inv (t.setRecdPublicKey u (m.client_type, m.client_name) key) ∧
      G.rel t (t.setRecdPublicKey u (m.client_type, m.client_name) key)

section

variable {cfg : Config} {G : Rely World} {E : Prop} {k : ℕ} {m : MessageRequest} {s : World}

/-- The public key, or nothing. -/
def keyReply (key : Option Key) : MessageReturn :=
  match key with
  | none => {}
  | some pkey => { keyAvailable := true, pkey := .publicKey (some pkey) }

/-- **The answers of `PublicKeyToBroker`**: the key server's own key, or that of the upstream one. -/
inductive PublicKeyReply (cfg : Config) (G : Rely World) (s : World) (k : ℕ) (m : MessageRequest) :
    MessageReturn → Prop
  | missing (hp : m.client_type = producer)
      (hnone : ∃ t, G.inv t ∧ G.rel s t ∧
        (t.keyServers k).PublicKeys (m.client_type, m.client_name) = none) :
      PublicKeyReply cfg G s k m {}
  | here (t : World) (key : Key) (ht : G.inv t) (hst : G.rel s t)
      (hkey : (t.keyServers k).PublicKeys (m.client_type, m.client_name) = some key) :
      PublicKeyReply cfg G s k m { keyReply (some key) with
        producerRegistered := m.client_type = producer }
  | upstream (u : ℕ) (t : World) (hu : cfg.upstream_key_server k = some u)
      (hnone : ∃ t, G.inv t ∧ G.rel s t ∧
        (t.keyServers k).PublicKeys (m.client_type, m.client_name) = none)
      (ht : G.inv t) (hst : G.rel s t) :
      PublicKeyReply cfg G s k m
        (keyReply ((t.keyServers u).PublicKeys (m.client_type, m.client_name)))

theorem safe_PublicKeyToServer {u : ℕ} (hq : Quiet cfg G E m) :
    (serveKs u (PublicKeyToServer m)).Safe G E (fun _ reply => ∃ t, G.inv t ∧ G.rel s t ∧
      reply = keyReply ((t.keyServers u).PublicKeys (m.client_type, m.client_name))) s := by
  refine safe_serveKs (fun hE t ht => hq.ksDown hE t u ht) (fun t _ ht => hq.ksUp t u ht)
    fun t hst ht _ => ?_
  unfold PublicKeyToServer
  split
  · next h => exact ⟨t, ht, hst, by rw [h]; rfl⟩
  · next h => exact ⟨t, ht, hst, by rw [h]; rfl⟩

theorem safe_PublicKeyToBroker (hq : Quiet cfg G E m)
    (hE : ∀ t, G.inv t → G.rel s t →
      (t.keyServers k).PublicKeys (m.client_type, m.client_name) = none →
      m.client_type ≠ producer → cfg.upstream_key_server k = none → E) :
    (serveKs k (PublicKeyToBroker cfg k m)).Safe G E
      (fun _ reply => PublicKeyReply cfg G s k m reply) s := by
  refine safe_serveKs (fun hE t ht => hq.ksDown hE t k ht) (fun t _ ht => hq.ksUp t k ht)
    fun t hst ht _ => ?_
  unfold PublicKeyToBroker
  split
  · next hnone =>
    by_cases hp : m.client_type = producer
    · rw [if_pos hp]
      exact .missing hp ⟨t, ht, hst, hnone⟩
    · rw [if_neg hp]
      refine Handler.Safe.bind (Q := fun _ u => cfg.upstream_key_server k = some u)
        (.ofOption (hE t ht hst hnone hp) fun u hu => hu) fun t₁ u h₁ hu => ?_
      refine Handler.Safe.bind (safe_PublicKeyToServer hq) fun t₂ reply h₂ hreply => ?_
      obtain ⟨t₃, ht₃, h₃, rfl⟩ := hreply
      have hrel : G.rel s t₃ := G.trans _ _ _ hst (G.trans _ _ _ h₁ h₃)
      have hreply := PublicKeyReply.upstream (m := m) u t₃ hu ⟨t, ht, hst, hnone⟩ ht₃ hrel
      cases hkey : (t₃.keyServers u).PublicKeys (m.client_type, m.client_name) with
      | none => rwa [hkey] at hreply
      | some key => rwa [hkey] at hreply
  · next key hkey => exact .here t key ht hst hkey

/-- **The answers of `ReEncryptionKeyToBroker`.** -/
inductive ReKeyReply (cfg : Config) (G : Rely World) (s : World) (k : ℕ) (m : MessageRequest) :
    MessageReturn → Prop
  | missing (hp : m.upstream_client_type = producer)
      (hnone : ∃ t, G.inv t ∧ G.rel s t ∧ (t.keyServers k).PrivateKeys
        (m.upstream_client_type, m.upstream_client_name) = none) :
      ReKeyReply cfg G s k m {}
  | here (t : World) (key : Key) (rk : Option EvalKey) (ht : G.inv t) (hst : G.rel s t)
      (hkey : (t.keyServers k).PrivateKeys (m.upstream_client_type, m.upstream_client_name) =
        some key)
      (hrk : reencryptionKey cfg k m (some key)
        ((t.keyServers k).PublicKeys (m.client_type, m.client_name)) = some rk) :
      ReKeyReply cfg G s k m { keyAvailable := true, reKey := .evalKey rk
                               producerRegistered := m.upstream_client_type = producer }
  | upstream (u : ℕ) (t₁ t : World) (key : Key) (reKey : Bytes)
      (hp : m.upstream_client_type ≠ producer) (hu : cfg.upstream_key_server k = some u)
      (hnone : ∃ t, G.inv t ∧ G.rel s t ∧ (t.keyServers k).PrivateKeys
        (m.upstream_client_type, m.upstream_client_name) = none)
      (ht₁ : G.rel (t₁.setRecdPublicKey u (m.client_type, m.client_name) key) t) (ht : G.inv t)
      (hst : G.rel s t)
      (hempty : reKey = .empty →
        (t.keyServers u).PrivateKeys (m.upstream_client_type, m.upstream_client_name) = none ∨
          (t.keyServers u).RecdPublicKeys (m.client_type, m.client_name) = none)
      (hrk : reKey ≠ .empty → ∃ rk, reKey = .evalKey rk ∧ reencryptionKey cfg u m
        ((t.keyServers u).PrivateKeys (m.upstream_client_type, m.upstream_client_name))
        ((t.keyServers u).RecdPublicKeys (m.client_type, m.client_name)) = some rk) :
      ReKeyReply cfg G s k m { keyAvailable := true, reKey := reKey }

/-- For an upstream broker there is always an answer. -/
theorem ReKeyReply.keyAvailable {reply : MessageReturn} (h : ReKeyReply cfg G s k m reply)
    (hne : m.upstream_client_type ≠ producer) : reply.keyAvailable = true := by
  cases h with
  | missing hp => exact absurd hp hne
  | here | upstream => rfl

theorem safe_PublicKeyfromServer {u : ℕ} {key : Option Key} (hq : Quiet cfg G E m)
    (hu : cfg.upstream_key_server k = some u) {s₀ : World} (hs₀ : G.inv s₀) (hrel : G.rel s₀ s)
    (hkey : (s₀.keyServers k).PublicKeys (m.client_type, m.client_name) = key)
    (hE : key = none → E) :
    (serveKs u fun _ => PublicKeyfromServer u { m with pkey := .publicKey key }).Safe G E
      (fun t _ => ∃ (t₁ : World) (key : Key), G.rel (t₁.setRecdPublicKey u (m.client_type, m.client_name) key) t) s := by
  refine safe_serveKs (fun hE t ht => hq.ksDown hE t u ht) (fun t _ ht => hq.ksUp t u ht)
    fun t hst ht _ => ?_
  unfold PublicKeyfromServer
  cases key with
  | none => exact hE rfl
  | some key =>
    intro t' htt' ht'
    have hrel' : G.rel s₀ t' := G.trans _ _ _ hrel (G.trans _ _ _ hst htt')
    obtain ⟨hinv, hr⟩ := hq.recd s₀ t' k u key hs₀ hrel' ht' hu hkey
    exact ⟨hinv, hr, t', key, G.refl _⟩

theorem safe_ReEncryptionKeyToServer {u : ℕ} (hq : Quiet cfg G E m) :
    (serveKs u (ReEncryptionKeyToServer cfg u m)).Safe G E (fun _ reply => ∃ t, G.inv t ∧ G.rel s t ∧
      (reply = {} ∧
          ((t.keyServers u).PrivateKeys (m.upstream_client_type, m.upstream_client_name) = none ∨
          (t.keyServers u).RecdPublicKeys (m.client_type, m.client_name) = none) ∨
        ∃ rk, reply = { keyAvailable := true, reKey := .evalKey rk } ∧ reencryptionKey cfg u m
          ((t.keyServers u).PrivateKeys (m.upstream_client_type, m.upstream_client_name))
          ((t.keyServers u).RecdPublicKeys (m.client_type, m.client_name)) = some rk)) s := by
  refine safe_serveKs (fun hE t ht => hq.ksDown hE t u ht) (fun t _ ht => hq.ksUp t u ht)
    fun t hst ht _ => ?_
  unfold ReEncryptionKeyToServer
  simp only
  split
  · next h => exact ⟨t, ht, hst, .inl ⟨rfl, h⟩⟩
  · next h =>
    refine Handler.Safe.bind (.ofOption (fun hnone => ?_) fun rk hrk => ?_)
      (fun _ rk _ hreply => (show Handler.Safe _ _ _ _ (Handler.ret _) from hreply))
    · -- Both keys are there.
      push Not at h
      obtain ⟨sk, hsk⟩ := Option.ne_none_iff_exists'.mp h.1
      rw [hsk] at hnone
      exact absurd (reencryptionKey_eq_none hnone).2 h.2
    · exact ⟨t, ht, hst, .inr ⟨rk, rfl, hrk⟩⟩

/-- When `ReEncryptionKeyToBroker` throws. -/
def ReKeyFails (cfg : Config) (k : ℕ) (m : MessageRequest) (ks : KeyServer) : Prop :=
  match ks.PrivateKeys (m.upstream_client_type, m.upstream_client_name) with
  | none => m.upstream_client_type ≠ producer ∧ (cfg.upstream_key_server k = none ∨
      ks.PublicKeys (m.client_type, m.client_name) = none)
  | some _ => m.client_name ∈ cfg.authorizedConsumers k ∧
      ks.PublicKeys (m.client_type, m.client_name) = none

theorem safe_ReEncryptionKeyToBroker (hq : Quiet cfg G E m)
    (hE : ∀ t, G.inv t → G.rel s t → ReKeyFails cfg k m (t.keyServers k) → E) :
    (serveKs k (ReEncryptionKeyToBroker cfg k m)).Safe G E
      (fun _ reply => ReKeyReply cfg G s k m reply) s := by
  refine safe_serveKs (fun hE t ht => hq.ksDown hE t k ht) (fun t _ ht => hq.ksUp t k ht)
    fun t hst ht _ => ?_
  have hfails := hE t ht hst
  unfold ReKeyFails at hfails
  unfold ReEncryptionKeyToBroker
  simp only
  split
  · next hnone =>
    rw [hnone] at hfails
    by_cases hp : m.upstream_client_type = producer
    · rw [if_pos hp]
      exact .missing hp ⟨t, ht, hst, hnone⟩
    · rw [if_neg hp]
      refine Handler.Safe.bind (Q := fun _ u => cfg.upstream_key_server k = some u)
        (.ofOption (fun h => hfails ⟨hp, .inl h⟩) fun u hu => hu) fun t₁ u h₁ hu => ?_
      refine Handler.Safe.bind (safe_PublicKeyfromServer hq hu ht h₁ rfl
        fun h => hfails ⟨hp, .inr h⟩) fun t₂ _ h₂ hrecd => ?_
      obtain ⟨t₀, key, hrecd⟩ := hrecd
      refine Handler.Safe.bind (safe_ReEncryptionKeyToServer hq) fun t₃ reply h₃ hreply => ?_
      obtain ⟨t', ht', h', hreply⟩ := hreply
      have hrel : G.rel s t' := G.trans _ _ _ hst (G.trans _ _ _ h₁ (G.trans _ _ _ h₂ h'))
      rcases hreply with ⟨rfl, hempty⟩ | ⟨rk, rfl, hrk⟩
      · exact .upstream u t₀ t' key .empty hp hu ⟨t, ht, hst, hnone⟩
          (G.trans _ _ _ hrecd h') ht' hrel (fun _ => hempty) fun h => absurd rfl h
      · exact .upstream u t₀ t' key (.evalKey rk) hp hu ⟨t, ht, hst, hnone⟩
          (G.trans _ _ _ hrecd h') ht' hrel (fun h => by cases h) fun _ => ⟨rk, rfl, hrk⟩
  · next key hkey =>
    rw [hkey] at hfails
    refine Handler.Safe.bind (.ofOption (fun hnone => ?_) fun rk hrk => ?_)
      (fun _ rk _ hreply => (show Handler.Safe _ _ _ _ (Handler.ret _) from hreply))
    · rw [hkey] at hnone
      exact hfails (reencryptionKey_eq_none hnone)
    · exact .here t key rk ht hst hkey (hkey ▸ hrk)

/-! ## All calls -/

/-- What a condition has to allow for the keys that a call stores. -/
structure Stores (G : Rely World) (k : ℕ) (m : MessageRequest) (rpc : Rpc) : Prop where
  setKeyPair : rpc = .CryptoContextRequestFromServer_Broker → ∀ t, G.inv t →
    let t' := t.setKeyPair k (broker, m.client_name)
    G.inv t' ∧ G.rel t t'
  setPrivateKey : rpc = .PrivateKeyFromProducer → ∀ t key, G.inv t →
    let t' := t.setPrivateKey k (producer, m.client_name) key
    G.inv t' ∧ G.rel t t'
  setPublicKey : rpc = .PublicKeyFromClient → ∀ t key, m.pkey.toPublicKey.join = some key →
    G.inv t →
    let t' := t.setPublicKey k (m.client_type, m.client_name) key
    G.inv t' ∧ G.rel t t'
  setRecdPublicKey : rpc = .PublicKeyfromServer → ∀ t key, m.pkey.toPublicKey.join = some key →
    G.inv t →
    let t' := t.setRecdPublicKey k (m.client_type, m.client_name) key
    G.inv t' ∧ G.rel t t'

/-- When a call throws. -/
def Fails (cfg : Config) (k : ℕ) (m : MessageRequest) (ks : KeyServer) : Rpc → Prop
  | .PrivateKeyFromProducer => m.pkey.toPrivateKey.join = none
  | .PublicKeyFromClient | .PublicKeyfromServer => m.pkey.toPublicKey.join = none
  | .PublicKeyToBroker => ks.PublicKeys (m.client_type, m.client_name) = none ∧
      m.client_type ≠ producer ∧ cfg.upstream_key_server k = none
  | .ReEncryptionKeyToBroker => ReKeyFails cfg k m ks
  | _ => False

/-- A handler that stores a key and answers. -/
theorem safe_store {x : Option Key} {f : Key → World → World} {reply : MessageReturn}
    (hE : x = none → E)
    (hf : ∀ t key, x = some key → G.inv t → G.inv (f key t) ∧ G.rel t (f key t)) :
    (do
      let key ← Handler.ofOption x
      Handler.modify (f key)
      pure reply : Handler World MessageReturn).Safe G E (fun _ _ => True) s := by
  refine Handler.Safe.bind (Q := fun _ key => x = some key)
    (.ofOption hE fun key hkey => hkey) fun t key _ hkey => ?_
  refine Handler.Safe.bind (Q := fun _ _ => True) (.modify fun t _ ht => ?_) fun _ _ _ _ => trivial
  obtain ⟨hinv, hrel⟩ := hf t key hkey ht
  exact ⟨hinv, hrel, trivial⟩

/-- **Every call keeps the condition.** -/
theorem safe_Proceed {rpc : Rpc} (hq : Quiet cfg G E m) (hs : Stores G k m rpc)
    (hE : ∀ t, G.inv t → Fails cfg k m (t.keyServers k) rpc → E) :
    (Proceed cfg k rpc m).Safe G E (fun _ _ => True) s := by
  have hserve : ∀ h : KeyServer → Handler World MessageReturn,
      (∀ t, G.inv t → (h (t.keyServers k)).Safe G E (fun _ _ => True) t) →
        (serveKs k h).Safe G E (fun _ _ => True) s := fun h hh =>
    safe_serveKs (fun hE t ht => hq.ksDown hE t k ht) (fun t _ ht => hq.ksUp t k ht)
      fun t _ ht _ => hh t ht
  cases rpc with
  | CryptoContextFromServer | CryptoContextRequestFromServer_Server =>
    exact hserve _ fun _ _ => trivial
  | CryptoContextRequestFromServer_Broker =>
    refine hserve _ fun _ _ => ?_
    refine Handler.Safe.bind (Q := fun _ _ => True) (.modify fun t _ ht => ?_) fun _ _ _ _ => trivial
    obtain ⟨hinv, hrel⟩ := hs.setKeyPair rfl t ht
    exact ⟨hinv, hrel, trivial⟩
  | PrivateKeyFromProducer =>
    exact hserve _ fun t ht => safe_store (hE t ht) fun t key _ => hs.setPrivateKey rfl t key
  | PublicKeyFromClient => exact hserve _ fun t ht => safe_store (hE t ht) (hs.setPublicKey rfl)
  | PublicKeyfromServer => exact hserve _ fun t ht => safe_store (hE t ht) (hs.setRecdPublicKey rfl)
  | PublicKeyToBroker =>
    exact (safe_PublicKeyToBroker hq fun t ht _ hnone hne hu => hE t ht ⟨hnone, hne, hu⟩).mono
      (fun _ _ _ _ => trivial) id
  | ReEncryptionKeyToBroker =>
    exact (safe_ReEncryptionKeyToBroker hq fun t ht _ hfails => hE t ht hfails).mono
      (fun _ _ _ _ => trivial) id
  | PublicKeyToServer => exact (safe_PublicKeyToServer hq).mono (fun _ _ _ _ => trivial) id
  | ReEncryptionKeyToServer =>
    exact (safe_ReEncryptionKeyToServer hq).mono (fun _ _ _ _ => trivial) id

end

end KeyServer

end Pre

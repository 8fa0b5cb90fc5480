import NetworkExamples.Pre.Policy

/-!
# Access control

A party `e` that is not in an access map may make any call, with any fields, but it knows only key
pairs that it has made (`own`). The access map is about names, and names are not checked: a key that
is registered under the name of an authorized consumer replaces the key of that consumer.

* `no_ciphertext_for_own`: if no own key is registered under an authorized name, then no broker ever
  sends a ciphertext that is encrypted under an own key, in any interleaving of the calls.
-/

namespace Pre

open Rpc BrokerServer

/-- The name is in an access map. -/
def Config.Authorized (cfg : Config) (name : Text) : Prop :=
  ∃ k, name ∈ cfg.authorizedConsumers k

namespace AccessControl

/-- The ciphertext is not for `e`. -/
def Hidden (own : Key → Prop) (ct : Option Ciphertext) : Prop := ∀ c, ct = some c → ¬ own c.key

/-- The own keys are registered under names without access. -/
structure KeysGuarded (cfg : Config) (own : Key → Prop) (ks : KeyServer) : Prop where
  PublicKeys : ∀ owner key, ks.PublicKeys owner = some key → own key → ¬ cfg.Authorized owner.2
  RecdPublicKeys : ∀ owner key, ks.RecdPublicKeys owner = some key → own key →
    ¬ cfg.Authorized owner.2

/-- **The invariant.** -/
structure Guarded (cfg : Config) (own : Key → Prop) (w : World) : Prop where
  keyServers : ∀ k, KeysGuarded cfg own (w.keyServers k)
  brokers : ∀ b P ct, (w.brokers b).brokerCipherTexts P = some ct → Hidden own ct
  log : ∀ b m ct, .sent b m ct ∈ w.log → Hidden own ct

/-- No own key under an authorized name. -/
def Registers (cfg : Config) (own : Key → Prop) (m : MessageRequest) : Prop :=
  ∀ key, m.pkey = .publicKey (some key) → own key → ¬ cfg.Authorized m.client_name

/-- The calls of a run: all but the registration of an own key under an authorized name. -/
def Allowed (cfg : Config) (own : Key → Prop) : Call → Prop
  | .keyServer _ .PublicKeyFromClient m => Registers cfg own m
  | .keyServer _ .PublicKeyfromServer m => Registers cfg own m
  | _ => True

section

variable {cfg : Config} {own : Key → Prop} {w : World}

theorem hidden_none : Hidden own none := fun c h => by cases h

namespace Guarded

theorem updateKs (h : Guarded cfg own w) (k : ℕ) (f : KeyServer → KeyServer)
    (hf : KeysGuarded cfg own (w.keyServers k) → KeysGuarded cfg own (f (w.keyServers k))) :
    Guarded cfg own (w.updateKs k f) where
  keyServers k' := by
    by_cases hk : k' = k
    · subst hk
      simpa using hf (h.keyServers k')
    · rw [World.updateKs_ne hk]
      exact h.keyServers k'
  brokers := h.brokers
  log := h.log

theorem updateBroker (h : Guarded cfg own w) (b : Broker) (g : BrokerServer → BrokerServer)
    (hg : ∀ P ct, (g (w.brokers b)).brokerCipherTexts P = some ct → Hidden own ct) :
    Guarded cfg own (w.updateBroker b g) where
  keyServers := h.keyServers
  brokers b' := by
    by_cases hb : b' = b
    · subst hb
      simpa using hg
    · rw [World.updateBroker_ne hb]
      exact h.brokers b'
  log := h.log

theorem record (h : Guarded cfg own w) (e : Event)
    (he : ∀ b m ct, e = .sent b m ct → Hidden own ct) : Guarded cfg own (w.record e) where
  keyServers := h.keyServers
  brokers := h.brokers
  log b m ct hmem := by
    rcases List.mem_append.mp hmem with hmem | hmem
    · exact h.log b m ct hmem
    · exact he b m ct (List.mem_singleton.mp hmem).symm

theorem ksDown (h : Guarded cfg own w) (k : ℕ) : Guarded cfg own (w.ksDown k) :=
  h.updateKs k _ fun hk => ⟨hk.PublicKeys, hk.RecdPublicKeys⟩

theorem setPublicKey (h : Guarded cfg own w) (k : ℕ) {owner : Text × Text} {key : Key}
    (hkey : own key → ¬ cfg.Authorized owner.2) : Guarded cfg own (w.setPublicKey k owner key) := by
  refine h.updateKs k _ fun hk => ⟨fun owner' key' hkey' => ?_, hk.RecdPublicKeys⟩
  rcases update_eq_some hkey' with ⟨rfl, rfl⟩ | hold
  · exact hkey
  · exact hk.PublicKeys owner' key' hold

theorem setRecdPublicKey (h : Guarded cfg own w) (k : ℕ) {owner : Text × Text} {key : Key}
    (hkey : own key → ¬ cfg.Authorized owner.2) :
    Guarded cfg own (w.setRecdPublicKey k owner key) := by
  refine h.updateKs k _ fun hk => ⟨hk.PublicKeys, fun owner' key' hkey' => ?_⟩
  rcases update_eq_some hkey' with ⟨rfl, rfl⟩ | hold
  · exact hkey
  · exact hk.RecdPublicKeys owner' key' hold

theorem setPrivateKey (h : Guarded cfg own w) (k : ℕ) (owner : Text × Text) (key : Key) :
    Guarded cfg own (w.setPrivateKey k owner key) :=
  h.updateKs k _ fun hk => ⟨hk.PublicKeys, hk.RecdPublicKeys⟩

/-- The keys that a key server makes are not own keys. -/
theorem setKeyPair (h : Guarded cfg own w) (hown : ∀ n, ¬ own (.server n)) (k : ℕ)
    (owner : Text × Text) : Guarded cfg own (w.setKeyPair k owner) := by
  have hpublic : Guarded cfg own (w.setPublicKey k owner (.server w.generated)) :=
    h.setPublicKey k fun ho => absurd ho (hown w.generated)
  have hset := hpublic.setPrivateKey k owner (.server w.generated)
  exact ⟨hset.keyServers, hset.brokers, hset.log⟩

theorem brokerDown (h : Guarded cfg own w) (b : Broker) : Guarded cfg own (w.brokerDown b) :=
  h.updateBroker b _ (h.brokers b)

theorem setRoutingTable (h : Guarded cfg own w) (b : Broker) (f : Text → Text) :
    Guarded cfg own (w.setRoutingTable b f) :=
  h.updateBroker b _ (h.brokers b)

theorem restart (h : Guarded cfg own w) (b : Broker) : Guarded cfg own (w.restart b) :=
  h.updateBroker b _ fun P ct hct => by cases hct

theorem setCipherText (h : Guarded cfg own w) (b : Broker) (P : Text) {ct : Option Ciphertext}
    (hct : Hidden own ct) : Guarded cfg own (w.setCipherText b P ct) := by
  refine h.updateBroker b _ fun P' ct' hct' => ?_
  rcases update_eq_some hct' with ⟨rfl, rfl⟩ | hold
  · exact hct
  · exact h.brokers b P' ct' hold

end Guarded

theorem guarded_initial : Guarded cfg own initial where
  keyServers _ := ⟨fun _ _ h => (by cases h), fun _ _ h => (by cases h)⟩
  brokers _ _ _ h := by cases h
  log _ _ _ h := by cases h

/-! ## The calls of the key servers -/

variable {s : World} {k : ℕ} {m : MessageRequest}

/-- The re-encryption key is not for `e`. -/
def HiddenKey (own : Key → Prop) (x : Bytes) : Prop := ∀ rk, x = .evalKey (some rk) → ¬ own rk.dst

theorem quiet : KeyServer.Quiet cfg (.ofInv (Guarded cfg own)) True m where
  ksDown _ _ k ht := ⟨Guarded.ksDown ht k, trivial⟩
  ksUp _ _ _ _ := trivial
  recd _ _ k u key hs _ ht _ hkey :=
    ⟨Guarded.setRecdPublicKey ht u ((hs.keyServers k).PublicKeys _ key hkey), trivial⟩

/-- **The access check**: a re-encryption key is made for an authorized name, and no own key has
such a name. -/
theorem hiddenKey_of_reply {reply : MessageReturn}
    (h : KeyServer.ReKeyReply cfg (.ofInv (Guarded cfg own)) s k m reply) :
    HiddenKey own reply.reKey := by
  cases h with
  | missing => exact fun rk h => by cases h
  | here t key rk ht _ _ hrk =>
    rintro r h hown
    obtain rfl := Bytes.evalKey.inj h
    obtain ⟨hauth, -, hdst⟩ := KeyServer.reencryptionKey_eq_some hrk
    exact (Guarded.keyServers ht k).PublicKeys _ _ hdst hown ⟨k, hauth⟩
  | upstream u t₁ t key reKey _ _ _ _ ht _ _ hrk =>
    rintro r (rfl : reKey = _) hown
    obtain ⟨rk, h, hrk⟩ := hrk (by simp)
    obtain rfl := Bytes.evalKey.inj h
    obtain ⟨hauth, -, hdst⟩ := KeyServer.reencryptionKey_eq_some hrk
    exact (Guarded.keyServers ht u).RecdPublicKeys _ _ hdst hown ⟨u, hauth⟩

theorem safe_PublicKeyToBroker {x : Bytes} {client_type client_name : Text} :
    (BrokerServer.PublicKeyToBroker cfg k x client_type client_name).Safe
      (.ofInv (Guarded cfg own)) True (fun _ _ => True) s :=
  Handler.Safe.bind (KeyServer.safe_PublicKeyToBroker quiet fun _ _ _ _ _ _ => trivial)
    fun _ _ _ _ => trivial

theorem safe_ReEncryptionKeyToBroker {x : Bytes} (hx : HiddenKey own x)
    {client_type client_name upstream_client_name upstream_client_type : Text} :
    (BrokerServer.ReEncryptionKeyToBroker cfg k x client_type client_name upstream_client_name
      upstream_client_type).Safe (.ofInv (Guarded cfg own)) True (fun _ y => HiddenKey own y) s := by
  refine Handler.Safe.bind (KeyServer.safe_ReEncryptionKeyToBroker quiet fun _ _ _ _ => trivial)
    fun t reply _ hreply => ?_
  change HiddenKey own (if _ then _ else _)
  split
  · exact hiddenKey_of_reply hreply
  · exact hx

theorem hiddenKey_empty : HiddenKey own .empty := fun rk h => by cases h

/-! ## The calls of the brokers -/

/-- What the brokers store and send is not for `e`. -/
def policy (cfg : Config) (own : Key → Prop) : Policy cfg True where
  G := .ofInv (Guarded cfg own)
  Asks _ _ _ := True
  Consumes _ _ _ := True
  Fetches _ _ _ := True
  Serves _ _ := True
  stored _ _ := Hidden own
  kept _ _ _ := True
  sent _ _ := Hidden own
  operands _ _ := True
  publicKey _ _ _ _ := True
  rekey _ _ _ := HiddenKey own
  publicKeyC _ _ _ := True
  rekeyC _ _ := HiddenKey own
  kept_rel _ _ _ _ _ _ := trivial
  brokerDown _ t b ht := ⟨Guarded.brokerDown ht b, trivial⟩
  asks _ _ _ _ := trivial
  consumes _ _ _ _ := trivial
  routed _ _ _ _ _ _ _ _ _ := trivial
  entry t b channel ht _ _ := by
    have hct : Hidden own ((t.brokers b).brokerCipherTexts (producerName channel)).join := by
      cases h : (t.brokers b).brokerCipherTexts (producerName channel) with
      | none => exact hidden_none
      | some ct => exact Guarded.brokers ht b _ ct h
    exact ⟨hct, Guarded.setCipherText ht b _ hct, trivial⟩
  found t b channel ct ht _ h := ⟨Guarded.brokers ht b _ ct h, trivial⟩
  store t p q up channel ct ht _ _ hct := ⟨Guarded.setCipherText ht _ _ hct, trivial, trivial⟩
  route t p up m ht _ _ := ⟨Guarded.setRoutingTable ht _ _, trivial⟩
  record t ct rk ht _ := ⟨Guarded.record ht _ fun _ _ _ h => (by cases h), trivial⟩
  send t b m ct ht hct := by
    refine ⟨Guarded.record ht _ fun _ _ _ h => ?_, trivial⟩
    cases h
    exact hct
  sent_stored _ _ _ _ _ h := h
  miss _ _ _ _ _ _ _ := ⟨trivial, fun _ => safe_PublicKeyToBroker,
    fun _ => safe_ReEncryptionKeyToBroker hiddenKey_empty⟩
  missC _ _ _ _ _ _ _ := trivial
  keysC _ _ _ _ := ⟨fun _ => safe_PublicKeyToBroker,
    fun _ => safe_ReEncryptionKeyToBroker hiddenKey_empty⟩
  keysForC _ _ _ _ _ _ hrk := ⟨fun _ => safe_PublicKeyToBroker,
    fun _ => safe_ReEncryptionKeyToBroker hrk⟩
  fetches _ _ _ _ _ _ := trivial
  reEncrypted p q up channel ct rk _ hct hrk := by
    cases rk with
    | none => exact hct
    | some r => exact ⟨trivial, fun c h => Option.some.inj h ▸ hrk r rfl⟩
  reEncryptedC p up m ct rk _ hct hrk := by
    cases rk with
    | none => exact hct
    | some r => exact ⟨trivial, fun _ _ c h => Option.some.inj h ▸ hrk r rfl⟩

/-! ## The runs -/

theorem eq_of_toPublicKey_join {x : Bytes} {key : Key} (h : x.toPublicKey.join = some key) :
    x = .publicKey (some key) := by
  cases x with
  | publicKey key' =>
    obtain rfl : key' = some key := h
    rfl
  | _ => cases h

theorem safe_keyServer (hown : ∀ n, ¬ own (.server n)) {rpc : KeyServer.Rpc}
    (hm : Allowed cfg own (.keyServer k rpc m)) :
    (KeyServer.Proceed cfg k rpc m).Safe (.ofInv (Guarded cfg own)) True (fun _ _ => True) s := by
  refine KeyServer.safe_Proceed quiet
    { setKeyPair _ t ht := ?_, setPrivateKey _ t key ht := ?_, setPublicKey hrpc t key hkey ht := ?_
      setRecdPublicKey hrpc t key hkey ht := ?_ } fun _ _ _ => trivial
  · exact ⟨Guarded.setKeyPair ht hown k _, trivial⟩
  · exact ⟨Guarded.setPrivateKey ht k _ key, trivial⟩
  · subst hrpc
    exact ⟨Guarded.setPublicKey ht k (hm key (eq_of_toPublicKey_join hkey)), trivial⟩
  · subst hrpc
    exact ⟨Guarded.setRecdPublicKey ht k (hm key (eq_of_toPublicKey_join hkey)), trivial⟩

theorem safe_broker (b : Broker) (rpc : BrokerServer.Rpc) :
    (BrokerServer.Proceed cfg b rpc m).Safe (.ofInv (Guarded cfg own)) True (fun _ _ => True) s := by
  refine (policy cfg own).safe_Proceed (fun _ _ _ _ => trivial) (fun _ _ _ _ => trivial)
    fun p up _ _ s => ?_
  refine ((policy cfg own).safe_reEncryptUpload (A := fun _ => True)
    (fun _ => safe_PublicKeyToBroker) (fun _ => safe_ReEncryptionKeyToBroker hiddenKey_empty)
    (fun _ => trivial) (fun _ _ _ => trivial) (fun _ _ _ => trivial) (fun _ _ _ _ => trivial)
    fun _ => trivial).mono (fun _ _ _ hc t ht => ?_) id
  obtain ⟨ct, r, -, hr, rfl⟩ := hc
  exact ⟨Guarded.setCipherText ht _ _ fun c h => Option.some.inj h ▸ hr r rfl, trivial⟩

theorem safe_handler (hown : ∀ n, ¬ own (.server n)) {c : Call} (hc : Allowed cfg own c) :
    (handler cfg c).Safe (.ofInv (Guarded cfg own)) True (fun _ _ => True) s := by
  cases c with
  | keyServer k rpc m => exact safe_keyServer hown hc
  | broker b rpc m => exact safe_broker b rpc
  | start b =>
    exact (policy cfg own).safe_Run (fun t ht => ⟨Guarded.restart ht b, trivial⟩)
      fun _ _ _ => safe_keyServer hown trivial

/-- **No broker ever sends a ciphertext for `e`**, unless an own key has been registered under an
authorized name. -/
theorem no_ciphertext_for_own (hown : ∀ n, ¬ own (.server n)) {q : Pool World MessageReturn}
    (hr : Schedule.Reach (Pool.step (handler cfg))
      (fun _ a => ∀ c, a = .call c → Allowed cfg own c) ⟨initial, []⟩ q)
    {b : Broker} {ct : Ciphertext} (hsent : .sent b m (some ct) ∈ q.state.log) : ¬ own ct.key := by
  have h0 : Pool.Good (.ofInv (Guarded cfg own)) True (⟨initial, []⟩ : Pool World MessageReturn) :=
    ⟨guarded_initial, fun h hh => by cases hh⟩
  have hgood := h0.reach hr fun p c hc => safe_handler hown (hc c rfl)
  exact hgood.inv.log b m _ hsent ct rfl

end

/-! ## A run in which `e` takes the place of a consumer -/

def B : Params := ⟨"B".toList, "INDCPA".toList, 0⟩
def p : Text := "p".toList
def c : Text := "c".toList
def e : Text := "e".toList

/-- One key server, and a broker and a consumer in its access map. -/
def oneBroker : Config where
  upstream_key_server _ := none
  authorizedConsumers _ := [B.process_name, c]

/-- The own key pair of `e`. -/
def own (key : Key) : Prop := key = .client 9

/-- The request of the consumer. -/
def request (name : Text) : MessageRequest :=
  { client_type := consumer, client_name := name, channel_name := channel p name }

/-- The producer uploads a text; then `name` registers `key` and asks for it. -/
def calls (name : Text) (key : Key) : List Call :=
  [.start [B],
    .keyServer 0 .PrivateKeyFromProducer { client_name := p, pkey := .privateKey (some (.client 0)) },
    .keyServer 0 .PublicKeyFromClient
      { client_type := producer, client_name := p, pkey := .publicKey (some (.client 0)) },
    .broker [B] .CipherTextFromProducer
      { client_name := p, ctext := .ciphertext (some ⟨.client 0, some p, 0⟩) },
    .keyServer 0 .PublicKeyFromClient
      { client_type := consumer, client_name := name, pkey := .publicKey (some key) },
    .broker [B] .CipherTextToConsumer (request name)]

/-- The state after calls one after the other. -/
def after (cfg : Config) (l : List Call) : World :=
  l.foldl (fun w c => ((handler cfg c).exec w).2) initial

theorem allowed_calls : ∀ call ∈ calls e (.client 9), Allowed oneBroker own call := by
  have he : ¬ oneBroker.Authorized e := fun ⟨_, h⟩ => absurd h (show ¬ e ∈ [B.process_name, c] by decide)
  intro call hcall
  simp only [calls, List.mem_cons, List.not_mem_nil, or_false] at hcall
  rcases hcall with rfl | rfl | rfl | rfl | rfl | rfl
  · trivial
  · trivial
  · intro key hkey hown
    cases hkey
    cases hown
  · trivial
  · exact fun _ _ _ => he
  · trivial

/-- Under its own name `e` gets the ciphertext as the broker has it. -/
theorem no_ciphertext_for_own_name : ¬ own (.server 0) := by
  obtain ⟨t, hr⟩ : ∃ t, Schedule.Reach (Pool.step (handler oneBroker))
      (fun _ a => ∀ call, a = .call call → Allowed oneBroker own call) ⟨initial, []⟩
      ⟨after oneBroker (calls e (.client 9)), t⟩ :=
    Pool.reach_allowed _ allowed_calls ⟨initial, []⟩
  have hsent : .sent [B] (request e) (some ⟨.server 0, some p, 1⟩) ∈
      (after oneBroker (calls e (.client 9))).log := by decide +kernel
  exact no_ciphertext_for_own (fun n h => by cases h) hr hsent

/-- **Under the name of the consumer it gets the text**, although no access map has its name. -/
theorem ciphertext_for_own : ¬ oneBroker.Authorized e ∧
    ∃ q ct, Schedule.Reach (Pool.step (handler oneBroker)) (fun _ _ => True) ⟨initial, []⟩ q ∧
      .sent [B] (request c) (some ct) ∈ q.state.log ∧ own ct.key := by
  refine ⟨fun ⟨_, h⟩ => absurd h (show ¬ e ∈ [B.process_name, c] by decide), ?_⟩
  obtain ⟨t, hr⟩ : ∃ t, Schedule.Reach (Pool.step (handler oneBroker)) (fun _ _ => True)
      ⟨initial, []⟩ ⟨after oneBroker (calls c (.client 9)), t⟩ :=
    Pool.reach_calls (fun _ _ => trivial) _ (fun _ _ _ => trivial) ⟨initial, []⟩
  have hsent : .sent [B] (request c) (some ⟨.client 9, some p, 2⟩) ∈
      (after oneBroker (calls c (.client 9))).log := by decide +kernel
  exact ⟨_, _, hr, hsent, rfl⟩

end AccessControl

end Pre

import NetworkExamples.Pre.Broker
import NetworkExamples.Rpc.Serial

/-!
# The event loops

A key server or a broker answers one call at a time (`HandleRpcs`), and its internal clients wait for
the reply: while it asks another server, all other calls of it wait. Here the handlers are tasks, with
their calls of other servers; their handlers are those of the key server and of the broker
(`models_servers`).

* `calls_answered`: all calls are answered, if the key servers have their crypto contexts.
* `serial_refines`: what happens is a run of the handlers side by side.
-/

namespace Pre

open Rpc

/-- The processes that answer calls. -/
inductive Server where
  | keyServer (k : ℕ)
  | broker (b : Broker)
  deriving DecidableEq

/-- What a server does on a call. -/
abbrev Serves (α : Type) : Type := Task Call World MessageReturn α

namespace Serves

/-! ## The handlers with calls -/

section

variable (cfg : Config)

/-- `KeyServer.PublicKeyToBroker`. -/
def PublicKeyToBroker (k : ℕ) (m : MessageRequest) (ks : KeyServer) : Serves MessageReturn :=
  match ks.PublicKeys (m.client_type, m.client_name) with
  | none =>
    if m.client_type = producer then pure { producerRegistered := false }
    else do
      let u ← Task.ofHandler (KeyServer.upstream cfg k)
      let reply ← Task.ask (.keyServer u .PublicKeyToServer m)
      let reply_publickeyclient := if reply.keyAvailable then reply.pkey else .empty
      if reply_publickeyclient = .empty then pure { keyAvailable := false }
      else pure { keyAvailable := true, pkey := reply_publickeyclient }
  | some pkey =>
    pure { producerRegistered := m.client_type = producer
           keyAvailable := true
           pkey := .publicKey (some pkey) }

/-- `KeyServer.ReEncryptionKeyToBroker`. -/
def ReEncryptionKeyToBroker (k : ℕ) (m : MessageRequest) (ks : KeyServer) : Serves MessageReturn :=
  let receiverPublicKey := ks.PublicKeys (m.client_type, m.client_name)
  let senderPrivateKey := ks.PrivateKeys (m.upstream_client_type, m.upstream_client_name)
  match senderPrivateKey with
  | none =>
    if m.upstream_client_type = producer then pure { producerRegistered := false }
    else do
      let u ← Task.ofHandler (KeyServer.upstream cfg k)
      let _ ← Task.ask
        (.keyServer u .PublicKeyfromServer { m with pkey := .publicKey receiverPublicKey })
      let reply ← Task.ask (.keyServer u .ReEncryptionKeyToServer m)
      let reply_reencryptionkey := if reply.keyAvailable then reply.reKey else .empty
      pure { keyAvailable := true, reKey := reply_reencryptionkey }
  | some _ => do
    let reencryptionKey ← Task.ofHandler
      (Handler.ofOption (KeyServer.reencryptionKey cfg k m senderPrivateKey receiverPublicKey))
    pure { producerRegistered := m.upstream_client_type = producer
           keyAvailable := true
           reKey := .evalKey reencryptionKey }

end

/-- `BrokerServer.PublicKeyToBroker`, the internal client. -/
def askPublicKey (k : ℕ) (pkey : Bytes) (client_type client_name : Text) : Serves Bytes := do
  let reply ← Task.ask
    (.keyServer k .PublicKeyToBroker { client_type := client_type, client_name := client_name })
  pure (if reply.keyAvailable then reply.pkey else pkey)

/-- `BrokerServer.ReEncryptionKeyToBroker`, the internal client. -/
def askReEncryptionKey (k : ℕ) (reKey : Bytes)
    (client_type client_name upstream_client_name upstream_client_type : Text) : Serves Bytes := do
  let reply ← Task.ask (.keyServer k .ReEncryptionKeyToBroker (BrokerServer.reKeyRequest client_type
    client_name upstream_client_name upstream_client_type))
  pure (if reply.keyAvailable then reply.reKey else reKey)

/-- `BrokerServer.storedText`. -/
def storedText (b : Broker) (channelFound : Bool) (producer_name : Text)
    (fetch : Serves (Option (Option Ciphertext))) : Serves (Option (Option Ciphertext)) := do
  if channelFound then some <$> Task.ofHandler (BrokerServer.entry b producer_name)
  else
    match ← Task.ofHandler (BrokerServer.find b producer_name) with
    | some ct => pure (some ct)
    | none => fetch

/-- `BrokerServer.fromUpstream`. -/
def fromUpstream (p : Params) (up : Broker) (requested_channel_name : Text)
    (reply_publickeyclient reply_reencryptionkey : Bytes) : Serves (Option (Option Ciphertext)) := do
  if upstream_broker_name (p :: up) = [] then pure none
  else do
    let replyct ← Task.ask (.broker up .ReEncryptedCipherTextToBroker
      { client_type := broker, client_name := p.process_name
        channel_name := requested_channel_name })
    let strct := if replyct.textAvailable then replyct.ciphertext else .empty
    if replyct.producerRegistered then
      some <$> Task.ofHandler (BrokerServer.storeReEncrypted p up
        (BrokerServer.producerName requested_channel_name) strct reply_publickeyclient
        reply_reencryptionkey)
    else pure none

/-- `BrokerServer.reEncryptUpload`. -/
def reEncryptUpload (p : Params) (m : MessageRequest) : Serves Ciphertext := do
  let ct ← Task.ofHandler (Handler.ofOption m.ctext.toCiphertext.join)
  let reply_publickeyclient ← askPublicKey p.key_server .empty producer m.client_name
  let reply_reencryptionkey ←
    askReEncryptionKey p.key_server .empty broker p.process_name m.client_name producer
  let _senderPubKey ← Task.ofHandler (Handler.ofOption reply_publickeyclient.toPublicKey)
  let reencryptionKey ← Task.ofHandler (Handler.ofOption reply_reencryptionkey.toEvalKey)
  Task.ofHandler (BrokerServer.reEncrypt p.security_model (some ct) reencryptionKey)

/-- `BrokerServer.CipherTextFromProducer`. -/
def CipherTextFromProducer (p : Params) (up : Broker) (m : MessageRequest) :
    Serves MessageReturn := do
  let reencryptedCText ← reEncryptUpload p m
  Task.ofHandler (Handler.modify (·.setCipherText (p :: up) m.client_name (some reencryptedCText)))
  pure { acknowledgement := BrokerServer.receivedText }

/-- `BrokerServer.textToBroker`. -/
def textToBroker (p : Params) (up : Broker) (m : MessageRequest) : Serves MessageReturn := do
  let b := p :: up
  let producer_name := BrokerServer.producerName m.channel_name
  let (upstream_client_type, upstream_client_name) := BrokerServer.sender b producer_name
  let channelFound ← Task.ofHandler (BrokerServer.findChannel b m.client_name m.channel_name)
  let reencryptedCText ← storedText b channelFound producer_name do
    let reply_publickeyclient ←
      askPublicKey p.key_server .empty upstream_client_type upstream_client_name
    let reply_reencryptionkey ← askReEncryptionKey p.key_server .empty m.client_type
      p.process_name upstream_client_name upstream_client_type
    fromUpstream p up m.channel_name reply_publickeyclient reply_reencryptionkey
  match reencryptedCText with
  | none => pure { textAvailable := false, producerRegistered := false }
  | some ct => do
    Task.ofHandler (BrokerServer.addRoute b m)
    Task.ofHandler (BrokerServer.sendText b m ct)

/-- `BrokerServer.textToConsumer`. -/
def textToConsumer (p : Params) (up : Broker) (m : MessageRequest) : Serves MessageReturn := do
  let b := p :: up
  let producer_name := BrokerServer.producerName m.channel_name
  let (upstream_client_type, upstream_client_name) := BrokerServer.sender b producer_name
  let channelFound ← Task.ofHandler (BrokerServer.findChannel b m.client_name m.channel_name)
  let reply_publickeyclient ←
    askPublicKey p.key_server .empty upstream_client_type upstream_client_name
  let reply_reencryptionkey ← askReEncryptionKey p.key_server .empty broker p.process_name
    upstream_client_name upstream_client_type
  let reencryptedCText ← storedText b channelFound producer_name
    (fromUpstream p up m.channel_name reply_publickeyclient reply_reencryptionkey)
  let reply_publickeyclient ←
    askPublicKey p.key_server reply_publickeyclient broker p.process_name
  let reply_reencryptionkey ← askReEncryptionKey p.key_server reply_reencryptionkey
    m.client_type m.client_name p.process_name broker
  match reencryptedCText with
  | none => pure { producerRegistered := false, textAvailable := false }
  | some ct => do
    Task.ofHandler (BrokerServer.addRoute b m)
    let reencryptedCTextConsumer ← Task.ofHandler (BrokerServer.reEncryptForConsumer p ct
      reply_publickeyclient reply_reencryptionkey)
    Task.ofHandler (BrokerServer.sendText b m reencryptedCTextConsumer)

/-- `BrokerServer.CipherTextToConsumer`. -/
def CipherTextToConsumer (p : Params) (up : Broker) (m : MessageRequest) :
    Serves MessageReturn := do
  let consumer_in_channel ←
    Task.ofHandler (Handler.ofOption (SplitString m.channel_name '-')[1]?)
  if m.client_name ≠ consumer_in_channel then .throw
  else textToConsumer p up m

/-! ## The processes -/

/-- `KeyServer.Proceed`. -/
def keyServerTask (cfg : Config) (k : ℕ) (rpc : KeyServer.Rpc) (m : MessageRequest) (ks : KeyServer) :
    Serves MessageReturn :=
  match rpc with
  | .CryptoContextFromServer | .CryptoContextRequestFromServer_Server =>
    Task.ofHandler KeyServer.CryptoContextFromServer
  | .CryptoContextRequestFromServer_Broker =>
    Task.ofHandler (KeyServer.CryptoContextRequestFromServer_Broker k m)
  | .PrivateKeyFromProducer => Task.ofHandler (KeyServer.PrivateKeyFromProducer k m)
  | .PublicKeyFromClient => Task.ofHandler (KeyServer.PublicKeyFromClient k m)
  | .PublicKeyToBroker => PublicKeyToBroker cfg k m ks
  | .ReEncryptionKeyToBroker => ReEncryptionKeyToBroker cfg k m ks
  | .PublicKeyToServer => Task.ofHandler (KeyServer.PublicKeyToServer m ks)
  | .ReEncryptionKeyToServer => Task.ofHandler (KeyServer.ReEncryptionKeyToServer cfg k m ks)
  | .PublicKeyfromServer => Task.ofHandler (KeyServer.PublicKeyfromServer k m)

/-- `BrokerServer.Proceed`. -/
def brokerTask (p : Params) (up : Broker) (m : MessageRequest) :
    BrokerServer.Rpc → Serves MessageReturn
  | .CipherTextFromProducer => CipherTextFromProducer p up m
  | .CipherTextToConsumer => CipherTextToConsumer p up m
  | .ReEncryptedCipherTextToBroker => textToBroker p up m

/-- `BrokerServer.Run`. -/
def startTask (p : Params) : Serves MessageReturn :=
  Task.ask (.keyServer p.key_server .CryptoContextRequestFromServer_Broker
    { client_name := p.process_name })

end Serves

/-- The servers of the network. There is no broker `[]`. -/
def servers (cfg : Config) : Servers Call Server World MessageReturn where
  server
    | .keyServer k _ _ => .keyServer k
    | .broker b _ _ | .start b => .broker b
  entry
    | .start (p :: up), w => w.restart (p :: up)
    | _, w => w
  admits
    | .keyServer k _ _, w => (w.keyServers k).up
    | .broker [] _ _, _ | .start [], _ => false
    | .broker (p :: up) _ _, w => (w.brokers (p :: up)).up
    | .start (_ :: _), _ => true
  body
    | .keyServer k rpc m, w => Serves.keyServerTask cfg k rpc m (w.keyServers k)
    | .broker [] _ _, _ | .start [], _ => .throw
    | .broker (p :: up) rpc m, _ => Serves.brokerTask p up m rpc
    | .start (p :: _), _ => Serves.startTask p
  down
    | .keyServer k, w => w.ksDown k
    | .broker b, w => w.brokerDown b

/-! ## Their handlers -/

namespace Serves

section

variable (cfg : Config)

theorem flat_PublicKeyToBroker (k : ℕ) (m : MessageRequest) (ks : KeyServer) :
    (PublicKeyToBroker cfg k m ks).flat (handler cfg) = KeyServer.PublicKeyToBroker cfg k m ks := by
  unfold PublicKeyToBroker KeyServer.PublicKeyToBroker
  cases ks.PublicKeys (m.client_type, m.client_name) with
  | none =>
    simp only [Task.flat_ite, Task.flat_bind, Task.flat_pure, Task.flat_ofHandler, Task.flat_ask]
    rfl
  | some pkey => rfl

theorem flat_ReEncryptionKeyToBroker (k : ℕ) (m : MessageRequest) (ks : KeyServer) :
    (ReEncryptionKeyToBroker cfg k m ks).flat (handler cfg) =
      KeyServer.ReEncryptionKeyToBroker cfg k m ks := by
  unfold ReEncryptionKeyToBroker KeyServer.ReEncryptionKeyToBroker
  dsimp only
  cases ks.PrivateKeys (m.upstream_client_type, m.upstream_client_name) with
  | none =>
    simp only [Task.flat_ite, Task.flat_bind, Task.flat_pure, Task.flat_ofHandler, Task.flat_ask]
    rfl
  | some key => simp only [Task.flat_bind, Task.flat_pure, Task.flat_ofHandler]

theorem flat_askPublicKey (k : ℕ) (pkey : Bytes) (client_type client_name : Text) :
    (askPublicKey k pkey client_type client_name).flat (handler cfg) =
      BrokerServer.PublicKeyToBroker cfg k pkey client_type client_name := by
  simp only [askPublicKey, Task.flat_bind, Task.flat_pure, Task.flat_ask]
  rfl

theorem flat_askReEncryptionKey (k : ℕ) (reKey : Bytes)
    (client_type client_name upstream_client_name upstream_client_type : Text) :
    (askReEncryptionKey k reKey client_type client_name upstream_client_name
        upstream_client_type).flat (handler cfg) =
      BrokerServer.ReEncryptionKeyToBroker cfg k reKey client_type client_name upstream_client_name
        upstream_client_type := by
  simp only [askReEncryptionKey, Task.flat_bind, Task.flat_pure, Task.flat_ask]
  rfl

theorem flat_storedText (b : Broker) (channelFound : Bool) (producer_name : Text)
    (fetch : Serves (Option (Option Ciphertext))) :
    (storedText b channelFound producer_name fetch).flat (handler cfg) =
      BrokerServer.storedText b channelFound producer_name (fetch.flat (handler cfg)) := by
  unfold storedText BrokerServer.storedText
  simp only [Task.flat_ite, Task.flat_bind, Task.flat_map, Task.flat_ofHandler]
  congr 2
  funext ct
  cases ct <;> rfl

theorem handler_upstreamText (up : Broker) (m : MessageRequest) :
    handler cfg (.broker up .ReEncryptedCipherTextToBroker m) =
      BrokerServer.ReEncryptedCipherTextToBroker cfg up m := by
  cases up with
  | nil => rfl
  | cons p up => rfl

theorem flat_fromUpstream (p : Params) (up : Broker) (requested_channel_name : Text)
    (reply_publickeyclient reply_reencryptionkey : Bytes) :
    (fromUpstream p up requested_channel_name reply_publickeyclient
        reply_reencryptionkey).flat (handler cfg) =
      BrokerServer.fromUpstream p up (BrokerServer.ReEncryptedCipherTextToBroker cfg up)
        requested_channel_name reply_publickeyclient reply_reencryptionkey := by
  unfold fromUpstream BrokerServer.fromUpstream
  simp only [Task.flat_ite, Task.flat_bind, Task.flat_pure, Task.flat_map, Task.flat_ofHandler,
    Task.flat_ask, handler_upstreamText]

theorem flat_CipherTextFromProducer (p : Params) (up : Broker) (m : MessageRequest) :
    (CipherTextFromProducer p up m).flat (handler cfg) =
      BrokerServer.CipherTextFromProducer cfg p up m := by
  simp only [CipherTextFromProducer, reEncryptUpload, BrokerServer.CipherTextFromProducer,
    BrokerServer.reEncryptUpload, Task.flat_bind, Task.flat_pure, Task.flat_ofHandler,
    flat_askPublicKey, flat_askReEncryptionKey]

theorem flat_textToBroker (p : Params) (up : Broker) (m : MessageRequest) :
    (textToBroker p up m).flat (handler cfg) = BrokerServer.textToBroker cfg p up
      (BrokerServer.ReEncryptedCipherTextToBroker cfg up) m := by
  simp only [textToBroker, BrokerServer.textToBroker, Task.flat_bind, Task.flat_ofHandler,
    flat_storedText, flat_askPublicKey, flat_askReEncryptionKey, flat_fromUpstream]
  congr 1
  funext channelFound
  congr 1
  funext reencryptedCText
  cases reencryptedCText with
  | none => rfl
  | some ct => simp only [Task.flat_bind, Task.flat_ofHandler]

theorem flat_textToConsumer (p : Params) (up : Broker) (m : MessageRequest) :
    (textToConsumer p up m).flat (handler cfg) = BrokerServer.textToConsumer cfg p up m := by
  simp only [textToConsumer, BrokerServer.textToConsumer, Task.flat_bind, Task.flat_ofHandler,
    flat_storedText, flat_askPublicKey, flat_askReEncryptionKey, flat_fromUpstream]
  congr 1
  funext channelFound
  congr 1
  funext reply_publickeyclient
  congr 1
  funext reply_reencryptionkey
  congr 1
  funext reencryptedCText
  congr 1
  funext reply_publickeyclient
  congr 1
  funext reply_reencryptionkey
  cases reencryptedCText with
  | none => rfl
  | some ct => simp only [Task.flat_bind, Task.flat_ofHandler]

theorem flat_CipherTextToConsumer (p : Params) (up : Broker) (m : MessageRequest) :
    (CipherTextToConsumer p up m).flat (handler cfg) =
      BrokerServer.CipherTextToConsumer cfg p up m := by
  simp only [CipherTextToConsumer, BrokerServer.CipherTextToConsumer, Task.flat_bind,
    Task.flat_ofHandler, Task.flat_ite, flat_textToConsumer]
  rfl

end

end Serves

section

variable {cfg : Config}

theorem serveKs_eq_act {k : ℕ} {t : KeyServer → Serves MessageReturn}
    {h : KeyServer → Handler World MessageReturn} (ht : ∀ ks, (t ks).flat (handler cfg) = h ks) :
    serveKs k h = .act (fun w => w) fun w =>
      if (w.keyServers k).up then ((t (w.keyServers k)).flat (handler cfg)).onThrow (·.ksDown k)
      else .throw := by
  simp only [ht]
  rfl

theorem serve_eq_act {b : Broker} {t : Serves MessageReturn} {h : Handler World MessageReturn}
    (ht : t.flat (handler cfg) = h) :
    serve b h = .act (fun w => w) fun w =>
      if (w.brokers b).up then (t.flat (handler cfg)).onThrow (·.brokerDown b) else .throw := by
  rw [ht]
  rfl

end

/-- The handlers of the servers are those of the key servers and of the brokers. -/
theorem models_servers (cfg : Config) : (servers cfg).Models (handler cfg) := by
  intro c
  cases c with
  | keyServer k rpc m =>
    right
    cases rpc with
    | PublicKeyToBroker => exact serveKs_eq_act (Serves.flat_PublicKeyToBroker cfg k m)
    | ReEncryptionKeyToBroker => exact serveKs_eq_act (Serves.flat_ReEncryptionKeyToBroker cfg k m)
    | PublicKeyToServer =>
      exact serveKs_eq_act fun ks => Task.flat_ofHandler (KeyServer.PublicKeyToServer m ks)
    | ReEncryptionKeyToServer =>
      exact serveKs_eq_act fun ks => Task.flat_ofHandler (KeyServer.ReEncryptionKeyToServer cfg k m ks)
    | _ => exact serveKs_eq_act fun ks => Task.flat_ofHandler _
  | broker b rpc m =>
    cases b with
    | nil => cases rpc <;> exact .inl ⟨rfl, fun w => ⟨rfl, rfl⟩⟩
    | cons p up =>
      right
      cases rpc with
      | CipherTextFromProducer => exact serve_eq_act (Serves.flat_CipherTextFromProducer cfg p up m)
      | CipherTextToConsumer => exact serve_eq_act (Serves.flat_CipherTextToConsumer cfg p up m)
      | ReEncryptedCipherTextToBroker => exact serve_eq_act (Serves.flat_textToBroker cfg p up m)
  | start b =>
    cases b with
    | nil => exact .inl ⟨rfl, fun w => ⟨rfl, rfl⟩⟩
    | cons p up =>
      right
      change BrokerServer.Run (p :: up) = .act (·.restart (p :: up)) fun w =>
        ((Serves.startTask p).flat (handler cfg)).onThrow (·.brokerDown (p :: up))
      rw [Serves.startTask, Task.flat_ask]
      rfl

/-! ## Whom the servers call -/

/-- The one server calls the other. -/
inductive Upstream (cfg : Config) : Server → Server → Prop
  | keyServer {k u : ℕ} (hu : cfg.upstream_key_server k = some u) :
    Upstream cfg (.keyServer u) (.keyServer k)
  | ofBroker (p : Params) (up : Broker) : Upstream cfg (.keyServer p.key_server) (.broker (p :: up))
  | broker (p : Params) (up : Broker) : Upstream cfg (.broker up) (.broker (p :: up))

/-- The key server gets its crypto context (`initializeCC`): it makes one, or asks its upstream key
server, which answers calls once it has its own. -/
inductive HasContext (cfg : Config) : ℕ → Prop
  | generated {k : ℕ} (hu : cfg.upstream_key_server k = none) : HasContext cfg k
  | received {k u : ℕ} (hu : cfg.upstream_key_server k = some u) (h : HasContext cfg u) :
    HasContext cfg k

theorem HasContext.acc {cfg : Config} {k : ℕ} (h : HasContext cfg k) :
    Acc (Upstream cfg) (.keyServer k) := by
  induction h with
  | generated hu =>
    refine ⟨_, ?_⟩
    rintro _ (⟨hu'⟩ | _ | _)
    rw [hu] at hu'
    cases hu'
  | received hu _ ih =>
    refine ⟨_, ?_⟩
    rintro _ (⟨hu'⟩ | _ | _)
    obtain rfl := Option.some.inj (hu.symm.trans hu')
    exact ih

theorem wf_upstream {cfg : Config} (h : ∀ k, HasContext cfg k) : WellFounded (Upstream cfg) := by
  have hks : ∀ k, Acc (Upstream cfg) (.keyServer k) := fun k => (h k).acc
  refine ⟨fun x => ?_⟩
  cases x with
  | keyServer k => exact hks k
  | broker b =>
    induction b with
    | nil => exact ⟨_, fun _ h => by cases h⟩
    | cons p up ih =>
      refine ⟨_, ?_⟩
      rintro _ (_ | _ | _)
      · exact hks _
      · exact ih

namespace Serves

section

variable {cfg : Config} {P : Call → Prop} {α : Type}

open Rpc.Task (Calls)

theorem calls_upstream {k : ℕ} {f : ℕ → Serves α}
    (hf : ∀ u, cfg.upstream_key_server k = some u → (f u).Calls P) :
    (Task.ofHandler (KeyServer.upstream cfg k) >>= f).Calls P := by
  unfold KeyServer.upstream
  cases hu : cfg.upstream_key_server k with
  | none => trivial
  | some u => exact hf u hu

/-- A key server calls its upstream key server. -/
theorem calls_keyServerTask {k : ℕ} {rpc : KeyServer.Rpc} {m : MessageRequest} {ks : KeyServer}
    (hP : ∀ u, cfg.upstream_key_server k = some u → ∀ rpc m, P (.keyServer u rpc m)) :
    (keyServerTask cfg k rpc m ks).Calls P := by
  cases rpc with
  | PublicKeyToBroker =>
    change (PublicKeyToBroker cfg k m ks).Calls P
    unfold PublicKeyToBroker
    cases ks.PublicKeys (m.client_type, m.client_name) with
    | some pkey => exact .pure _
    | none =>
      apply Calls.ite (.pure _)
      apply calls_upstream
      intro u hu
      apply Calls.bind (.ask (hP u hu _ _))
      intro reply
      exact .ite (.pure _) (.pure _)
  | ReEncryptionKeyToBroker =>
    change (ReEncryptionKeyToBroker cfg k m ks).Calls P
    unfold ReEncryptionKeyToBroker
    dsimp only
    cases ks.PrivateKeys (m.upstream_client_type, m.upstream_client_name) with
    | some key => exact .bind (.ofHandler _) fun _ => .pure _
    | none =>
      apply Calls.ite (.pure _)
      apply calls_upstream
      intro u hu
      apply Calls.bind (.ask (hP u hu _ _))
      intro _
      exact .bind (.ask (hP u hu _ _)) fun reply => .pure _
  | _ => exact .ofHandler _

/-! A broker calls its key server and its upstream broker. -/

variable {p : Params} {up : Broker} {m : MessageRequest}

theorem calls_askPublicKey (hP : ∀ rpc m, P (.keyServer p.key_server rpc m)) (pkey : Bytes)
    (client_type client_name : Text) :
    (askPublicKey p.key_server pkey client_type client_name).Calls P :=
  .bind (.ask (hP _ _)) fun _ => .pure _

theorem calls_askReEncryptionKey (hP : ∀ rpc m, P (.keyServer p.key_server rpc m)) (reKey : Bytes)
    (client_type client_name upstream_client_name upstream_client_type : Text) :
    (askReEncryptionKey p.key_server reKey client_type client_name upstream_client_name
      upstream_client_type).Calls P :=
  .bind (.ask (hP _ _)) fun _ => .pure _

theorem calls_storedText {b : Broker} {channelFound : Bool} {producer_name : Text}
    {fetch : Serves (Option (Option Ciphertext))} (hfetch : fetch.Calls P) :
    (storedText b channelFound producer_name fetch).Calls P := by
  apply Calls.ite
  · exact .map (.ofHandler _) _
  · apply Calls.bind (.ofHandler _)
    intro ct
    cases ct with
    | some ct => exact .pure _
    | none => exact hfetch

theorem calls_fromUpstream (hP : ∀ rpc m, P (.broker up rpc m)) {requested_channel_name : Text}
    {reply_publickeyclient reply_reencryptionkey : Bytes} :
    (fromUpstream p up requested_channel_name reply_publickeyclient
      reply_reencryptionkey).Calls P := by
  apply Calls.ite (.pure _)
  apply Calls.bind (.ask (hP _ _))
  intro replyct
  exact .ite (.map (.ofHandler _) _) (.pure _)

theorem calls_brokerTask {rpc : BrokerServer.Rpc}
    (hks : ∀ rpc m, P (.keyServer p.key_server rpc m)) (hup : ∀ rpc m, P (.broker up rpc m)) :
    (brokerTask p up m rpc).Calls P := by
  cases rpc with
  | CipherTextFromProducer =>
    refine .bind (.bind (.ofHandler _) fun ct => ?_) fun _ => .bind (.ofHandler _) fun _ => .pure _
    apply Calls.bind (calls_askPublicKey hks ..)
    intro reply_publickeyclient
    apply Calls.bind (calls_askReEncryptionKey hks ..)
    intro reply_reencryptionkey
    exact .bind (.ofHandler _) fun _ => .bind (.ofHandler _) fun _ => .ofHandler _
  | ReEncryptedCipherTextToBroker =>
    refine .bind (.ofHandler _) fun channelFound => .bind (calls_storedText ?_) fun ct => ?_
    · apply Calls.bind (calls_askPublicKey hks ..)
      intro reply_publickeyclient
      apply Calls.bind (calls_askReEncryptionKey hks ..)
      intro reply_reencryptionkey
      exact calls_fromUpstream hup
    · cases ct with
      | none => exact .pure _
      | some ct => exact .bind (.ofHandler _) fun _ => .ofHandler _
  | CipherTextToConsumer =>
    refine .bind (.ofHandler _) fun consumer_in_channel => .ite trivial ?_
    refine .bind (.ofHandler _) fun channelFound => ?_
    apply Calls.bind (calls_askPublicKey hks ..)
    intro reply_publickeyclient
    apply Calls.bind (calls_askReEncryptionKey hks ..)
    intro reply_reencryptionkey
    apply Calls.bind (calls_storedText (calls_fromUpstream hup))
    intro ct
    apply Calls.bind (calls_askPublicKey hks ..)
    intro reply_publickeyclient
    apply Calls.bind (calls_askReEncryptionKey hks ..)
    intro reply_reencryptionkey
    cases ct with
    | none => exact .pure _
    | some ct =>
      exact .bind (.ofHandler _) fun _ => .bind (.ofHandler _) fun _ => .ofHandler _

end

end Serves

theorem descends_servers (cfg : Config) : (servers cfg).Descends (Upstream cfg) := by
  intro c w
  cases c with
  | keyServer k rpc m => exact Serves.calls_keyServerTask fun u hu _ _ => .keyServer hu
  | broker b rpc m =>
    cases b with
    | nil => trivial
    | cons p up =>
      exact Serves.calls_brokerTask (fun _ _ => .ofBroker p up) fun _ _ => .broker p up
  | start b =>
    cases b with
    | nil => trivial
    | cons p up => exact .ask (.ofBroker p up)

/-! ## The network -/

section

variable {cfg : Config} {ok : Serial Call World MessageReturn → Pool.Action Call → Prop}
  {p : Serial Call World MessageReturn}

open Schedule

/-- **All calls are answered**: from each state of a run on, in whatever order the servers go on, all
calls come to their replies or exceptions, and no servers wait for each other. -/
theorem calls_answered (hcfg : ∀ k, HasContext cfg k)
    (hr : Reach (Serial.step (servers cfg)) ok ⟨initial, []⟩ p) : p.Drains (servers cfg) :=
  Serial.drains (wf_upstream hcfg) (descends_servers cfg) hr

/-- **The event loops are handlers side by side**: what the servers can reach by answering one call at
a time is reached by their handlers in a pool. -/
theorem serial_refines {ok' : Pool World MessageReturn → Pool.Action Call → Prop}
    (hok : ∀ p a, ok p a → ok' (p.pool (servers cfg) (handler cfg)) a)
    (hr : Reach (Serial.step (servers cfg)) ok ⟨initial, []⟩ p) :
    ∃ l, Reach (Pool.step (handler cfg)) ok' ⟨initial, []⟩ ⟨p.state, l⟩ :=
  ⟨_, Serial.refines (models_servers cfg) hok hr⟩

/-- Two key servers, the one upstream of the other. -/
def twoKeyServers : Config where
  upstream_key_server k := if k = 1 then some 0 else none
  authorizedConsumers _ := []

theorem hasContext_twoKeyServers (k : ℕ) : HasContext twoKeyServers k := by
  have hzero : HasContext twoKeyServers 0 := .generated rfl
  by_cases hk : k = 1
  · exact .received (if_pos hk) hzero
  · exact .generated (if_neg hk)

/-- A broker starts at the second key server while a downstream broker asks it. -/
def startAndAsk : List (Pool.Action Call) :=
  let p : Params := ⟨"A".toList, "INDCPA".toList, 1⟩
  [.call (.start [p]), .call (.broker [p] .ReEncryptedCipherTextToBroker {}), .turn 0]

theorem reach_startAndAsk : Reach (Serial.step (servers twoKeyServers)) (fun _ _ => True)
    ⟨initial, []⟩ (startAndAsk.foldl (Serial.step (servers twoKeyServers)) ⟨initial, []⟩) :=
  Reach.foldl (fun _ _ _ => trivial) _

theorem calls_answered_startAndAsk :
    (startAndAsk.foldl (Serial.step (servers twoKeyServers)) ⟨initial, []⟩).Drains
      (servers twoKeyServers) :=
  calls_answered hasContext_twoKeyServers reach_startAndAsk

theorem serial_refines_startAndAsk :
    ∃ l, Reach (Pool.step (handler twoKeyServers)) (fun _ _ => True) ⟨initial, []⟩
      ⟨(startAndAsk.foldl (Serial.step (servers twoKeyServers)) ⟨initial, []⟩).state, l⟩ :=
  serial_refines (fun _ _ _ => trivial) reach_startAndAsk

end

end Pre

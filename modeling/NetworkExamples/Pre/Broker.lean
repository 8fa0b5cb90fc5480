import NetworkExamples.Pre.KeyServer

/-!
# The broker

The handlers of `broker_server.h`. A broker keeps one ciphertext for each producer, encrypted under
its own key. A broker without the ciphertext asks its upstream broker, which asks its own, up to the
broker of the producer; each stores what it gets, re-encrypted (`ReEncryptedCipherTextToBroker`).

* `handler`: what happens on a call of a key server or a broker, and when a broker starts.
-/

namespace Pre

open Rpc

namespace BrokerServer

section

variable (cfg : Config)

/-! ## The internal clients -/

/-- The public key of a client; `pkey` if there is none. -/
def PublicKeyToBroker (k : ℕ) (pkey : Bytes) (client_type client_name : Text) :
    Handler World Bytes := do
  let reply ← serveKs k (KeyServer.PublicKeyToBroker cfg k
    { client_type := client_type, client_name := client_name })
  pure (if reply.keyAvailable then reply.pkey else pkey)

/-- The request for the re-encryption key of a client. -/
def reKeyRequest (client_type client_name upstream_client_name upstream_client_type : Text) :
    MessageRequest where
  client_type := client_type
  client_name := client_name
  upstream_client_name := upstream_client_name
  upstream_client_type := upstream_client_type

def ReEncryptionKeyToBroker (k : ℕ) (reKey : Bytes)
    (client_type client_name upstream_client_name upstream_client_type : Text) :
    Handler World Bytes := do
  let reply ← serveKs k (KeyServer.ReEncryptionKeyToBroker cfg k
    (reKeyRequest client_type client_name upstream_client_name upstream_client_type))
  pure (if reply.keyAvailable then reply.reKey else reKey)

end

/-! ## The parts of the handlers -/

def securityModels : List Text :=
  ["INDCPA".toList, "FIXED_NOISE_HRA".toList, "NOISE_FLOODING_HRA".toList,
    "NOISE_FLOODING_HRA_HYBRID".toList]

def reEncrypt (security_model : Text) (ct : Option Ciphertext) (rk : Option EvalKey) :
    Handler World Ciphertext := do
  if security_model ∈ securityModels then do
    Handler.modify (·.record (.reEncrypt ct rk))
    Handler.ofOption (ReEncrypt ct rk)
  else Handler.throw

/-- Without a re-encryption key the ciphertext is taken as it is. -/
def applyKey (security_model : Text) (ct : Option Ciphertext) (reencryptionKey : Option EvalKey) :
    Handler World (Option Ciphertext) :=
  match reencryptionKey with
  | some rk => some <$> reEncrypt security_model ct (some rk)
  | none => pure ct

/-- The name of the producer: the channel up to the first `-`. -/
def producerName (channel_name : Text) : Text := (SplitString channel_name '-').headD []

/-- Who sends to the broker: its upstream broker, or the producer. -/
def sender (b : Broker) (producer_name : Text) : Text × Text :=
  if upstream_broker_name b = [] then (producer, producer_name)
  else (broker, upstream_broker_name b)

def findChannel (b : Broker) (client_name requested_channel_name : Text) : Handler World Bool := do
  let w ← Handler.get
  let routingTableData ←
    Handler.ofOption (ParseRoutingTable (w.brokers b).routingTable client_name)
  pure (routingTableData.any (·.channelName = requested_channel_name))

/-- `brokerCTs.find(producer_name)`. -/
def find (b : Broker) (producer_name : Text) : Handler World (Option (Option Ciphertext)) :=
  .act id fun w => .ret ((w.brokers b).brokerCipherTexts producer_name)

/-- `brokerCTs[producer_name]`, which enters a null pointer if there is nothing. -/
def entry (b : Broker) (producer_name : Text) : Handler World (Option Ciphertext) :=
  .act (fun w => w.setCipherText b producer_name ((w.brokers b).brokerCipherTexts producer_name).join)
    fun w => .ret ((w.brokers b).brokerCipherTexts producer_name).join

/-- The ciphertext of the producer; the outer `none`: it has not registered. -/
def storedText (b : Broker) (channelFound : Bool) (producer_name : Text)
    (fetch : Handler World (Option (Option Ciphertext))) :
    Handler World (Option (Option Ciphertext)) := do
  if channelFound then some <$> entry b producer_name
  else
    match ← find b producer_name with
    | some ct => pure (some ct)
    | none => fetch

/-- The ciphertext of the upstream broker is re-encrypted, or stored as it is. -/
def storeReEncrypted (p : Params) (up : Broker) (producer_name : Text)
    (strct reply_publickeyclient reply_reencryptionkey : Bytes) :
    Handler World (Option Ciphertext) := do
  let ct ← Handler.ofOption strct.toCiphertext.join
  let _senderPubKey ← Handler.ofOption reply_publickeyclient.toPublicKey
  let reencryptionKey ← Handler.ofOption reply_reencryptionkey.toEvalKey
  let reencryptedCText ← applyKey p.security_model (some ct) reencryptionKey
  Handler.modify (·.setCipherText (p :: up) producer_name reencryptedCText)
  pure reencryptedCText

/-- The ciphertext from upstream, by the call `upstreamText`. -/
def fromUpstream (p : Params) (up : Broker)
    (upstreamText : MessageRequest → Handler World MessageReturn)
    (requested_channel_name : Text) (reply_publickeyclient reply_reencryptionkey : Bytes) :
    Handler World (Option (Option Ciphertext)) := do
  if upstream_broker_name (p :: up) = [] then pure none
  else do
    let replyct ← upstreamText
      { client_type := broker, client_name := p.process_name
        channel_name := requested_channel_name }
    let strct := if replyct.textAvailable then replyct.ciphertext else .empty
    if replyct.producerRegistered then
      some <$> storeReEncrypted p up (producerName requested_channel_name) strct
        reply_publickeyclient reply_reencryptionkey
    else pure none

/-- The channel goes to the routing table. -/
def addRoute (b : Broker) (m : MessageRequest) : Handler World Unit :=
  Handler.modify (·.setRoutingTable b fun routingTable =>
    UpdateRoutingTable routingTable m.channel_name (sender b (producerName m.channel_name)).2
      m.client_name (upstream_broker_name b = []))

/-- The reply with the ciphertext. -/
def sendText (b : Broker) (m : MessageRequest) (ct : Option Ciphertext) :
    Handler World MessageReturn := do
  Handler.modify (·.record (.sent b m ct))
  pure { textAvailable := true, producerRegistered := true, ciphertext := .ciphertext ct }

/-! ## The handlers -/

section

variable (cfg : Config)

def receivedText : Text := "Received CTEXT. Thank you, Your Server".toList

/-- The re-encryption of an upload: the key is used even if it is a null pointer. -/
def reEncryptUpload (p : Params) (m : MessageRequest) : Handler World Ciphertext := do
  let ct ← Handler.ofOption m.ctext.toCiphertext.join
  let reply_publickeyclient ← PublicKeyToBroker cfg p.key_server .empty producer m.client_name
  let reply_reencryptionkey ←
    ReEncryptionKeyToBroker cfg p.key_server .empty broker p.process_name m.client_name producer
  let _senderPubKey ← Handler.ofOption reply_publickeyclient.toPublicKey
  let reencryptionKey ← Handler.ofOption reply_reencryptionkey.toEvalKey
  reEncrypt p.security_model (some ct) reencryptionKey

def CipherTextFromProducer (p : Params) (up : Broker) (m : MessageRequest) :
    Handler World MessageReturn := do
  let reencryptedCText ← reEncryptUpload cfg p m
  Handler.modify (·.setCipherText (p :: up) m.client_name (some reencryptedCText))
  pure { acknowledgement := receivedText }

/-- The keys of the sender are asked for if the broker has to ask upstream. -/
def textToBroker (p : Params) (up : Broker)
    (upstreamText : MessageRequest → Handler World MessageReturn) (m : MessageRequest) :
    Handler World MessageReturn := do
  let b := p :: up
  let producer_name := producerName m.channel_name
  let (upstream_client_type, upstream_client_name) := sender b producer_name
  let channelFound ← findChannel b m.client_name m.channel_name
  let reencryptedCText ← storedText b channelFound producer_name do
    let reply_publickeyclient ←
      PublicKeyToBroker cfg p.key_server .empty upstream_client_type upstream_client_name
    let reply_reencryptionkey ← ReEncryptionKeyToBroker cfg p.key_server .empty m.client_type
      p.process_name upstream_client_name upstream_client_type
    fromUpstream p up upstreamText m.channel_name reply_publickeyclient reply_reencryptionkey
  match reencryptedCText with
  | none => pure { textAvailable := false, producerRegistered := false }
  | some ct => do
    addRoute b m
    sendText b m ct

def ReEncryptedCipherTextToBroker : Broker → MessageRequest → Handler World MessageReturn
  | [], _ => .throw
  | p :: up, m => serve (p :: up) (textToBroker cfg p up (ReEncryptedCipherTextToBroker up) m)

/-- The ciphertext for a consumer is re-encrypted once more; it is not stored. -/
def reEncryptForConsumer (p : Params) (ct : Option Ciphertext)
    (reply_publickeyclient reply_reencryptionkey : Bytes) : Handler World (Option Ciphertext) := do
  let _senderPubKey ← Handler.ofOption reply_publickeyclient.toPublicKey
  let reencryptionKey ← Handler.ofOption reply_reencryptionkey.toEvalKey
  applyKey p.security_model ct reencryptionKey

/-- The keys of the sender and of the consumer are asked for in any case. -/
def textToConsumer (p : Params) (up : Broker) (m : MessageRequest) :
    Handler World MessageReturn := do
  let b := p :: up
  let producer_name := producerName m.channel_name
  let (upstream_client_type, upstream_client_name) := sender b producer_name
  let channelFound ← findChannel b m.client_name m.channel_name
  let reply_publickeyclient ←
    PublicKeyToBroker cfg p.key_server .empty upstream_client_type upstream_client_name
  let reply_reencryptionkey ← ReEncryptionKeyToBroker cfg p.key_server .empty broker
    p.process_name upstream_client_name upstream_client_type
  let reencryptedCText ← storedText b channelFound producer_name
    (fromUpstream p up (ReEncryptedCipherTextToBroker cfg up) m.channel_name reply_publickeyclient
      reply_reencryptionkey)
  let reply_publickeyclient ←
    PublicKeyToBroker cfg p.key_server reply_publickeyclient broker p.process_name
  let reply_reencryptionkey ← ReEncryptionKeyToBroker cfg p.key_server reply_reencryptionkey
    m.client_type m.client_name p.process_name broker
  match reencryptedCText with
  | none => pure { producerRegistered := false, textAvailable := false }
  | some ct => do
    addRoute b m
    let reencryptedCTextConsumer ←
      reEncryptForConsumer p ct reply_publickeyclient reply_reencryptionkey
    sendText b m reencryptedCTextConsumer

/-- A channel without `-` has no consumer: the code reads behind the vector. -/
def CipherTextToConsumer (p : Params) (up : Broker) (m : MessageRequest) :
    Handler World MessageReturn := do
  let consumer_in_channel ← Handler.ofOption (SplitString m.channel_name '-')[1]?
  if m.client_name ≠ consumer_in_channel then Handler.throw
  else textToConsumer cfg p up m

/-- The calls of a broker. -/
inductive Rpc where
  | CipherTextFromProducer
  | CipherTextToConsumer
  | ReEncryptedCipherTextToBroker
  deriving DecidableEq

def Proceed : Broker → Rpc → MessageRequest → Handler World MessageReturn
  | b, .ReEncryptedCipherTextToBroker, m => ReEncryptedCipherTextToBroker cfg b m
  | [], _, _ => .throw
  | p :: up, .CipherTextFromProducer, m => serve (p :: up) (CipherTextFromProducer cfg p up m)
  | p :: up, .CipherTextToConsumer, m => serve (p :: up) (CipherTextToConsumer cfg p up m)

/-- A broker starts: it clears its routing table and gets the crypto context. -/
def Run : Broker → Handler World MessageReturn
  | [] => .throw
  | p :: up => do
    Handler.modify (·.restart (p :: up))
    Handler.onThrow (·.brokerDown (p :: up)) (serveKs p.key_server fun _ =>
      KeyServer.CryptoContextRequestFromServer_Broker p.key_server { client_name := p.process_name })

end

end BrokerServer

/-! ## The system -/

/-- A call of a key server or of a broker, or the start of a broker. -/
inductive Call where
  | keyServer (k : ℕ) (rpc : KeyServer.Rpc) (m : MessageRequest)
  | broker (b : Broker) (rpc : BrokerServer.Rpc) (m : MessageRequest)
  | start (b : Broker)

def handler (cfg : Config) : Call → Handler World MessageReturn
  | .keyServer k rpc m => KeyServer.Proceed cfg k rpc m
  | .broker b rpc m => BrokerServer.Proceed cfg b rpc m
  | .start b => BrokerServer.Run b

end Pre

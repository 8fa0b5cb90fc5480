import NetworkExamples.Pre.Utils
import NetworkExamples.Rpc.Handler

/-!
# The processes of the network for proxy re-encryption

Keys and ciphertexts are symbolic: a ciphertext names the key pair it is encrypted under, the text
it decrypts to, and how often it has been re-encrypted. A null pointer is `none`.

* `World`: what the key servers and the brokers store, and a log of what they did.
* `serveKs`, `serve`: a call of a server. An exception ends its process: the event loops catch none.
-/

namespace Pre

open Rpc

/-! ## Keys and ciphertexts -/

/-- A key pair, made by a key server or by a client. -/
inductive Key where
  | server (n : ℕ)
  | client (n : ℕ)
  deriving DecidableEq

structure Ciphertext where
  key : Key
  /-- What it decrypts to; `none`: no text of a producer. -/
  plaintext : Option Text
  hops : ℕ
  deriving DecidableEq

/-- A re-encryption key, from the one key pair to the other. -/
structure EvalKey where
  src : Key
  dst : Key
  deriving DecidableEq

/-- It decrypts to the same text if it was encrypted under the key that `rk` takes. -/
def Ciphertext.reEncrypt (ct : Ciphertext) (rk : EvalKey) : Ciphertext where
  key := rk.dst
  plaintext := if ct.key = rk.src then ct.plaintext else none
  hops := ct.hops + 1

/-- `ReEncrypt` throws on null pointers. -/
def ReEncrypt (ct : Option Ciphertext) (rk : Option EvalKey) : Option Ciphertext := do
  return (← ct).reEncrypt (← rk)

/-- `ReKeyGen` throws on null pointers. -/
def ReKeyGen (senderPrivateKey receiverPublicKey : Option Key) : Option EvalKey := do
  return ⟨← senderPrivateKey, ← receiverPublicKey⟩

/-! ## Messages -/

/-- The bytes of a message. A serialized null pointer is not empty; `other` are all bytes that
`Deserialize` throws at. -/
inductive Bytes where
  | empty
  | other
  | cryptoContext
  | publicKey (key : Option Key)
  | privateKey (key : Option Key)
  | evalKey (rk : Option EvalKey)
  | ciphertext (ct : Option Ciphertext)
  deriving DecidableEq

namespace Bytes

/-- `Deserialize` of a public key. -/
def toPublicKey : Bytes → Option (Option Key)
  | publicKey key => some key
  | _ => none

def toPrivateKey : Bytes → Option (Option Key)
  | privateKey key => some key
  | _ => none

def toEvalKey : Bytes → Option (Option EvalKey)
  | evalKey rk => some rk
  | _ => none

def toCiphertext : Bytes → Option (Option Ciphertext)
  | ciphertext ct => some ct
  | _ => none

end Bytes

structure MessageRequest where
  client_name : Text := []
  client_type : Text := []
  upstream_client_name : Text := []
  upstream_client_type : Text := []
  channel_name : Text := []
  pkey : Bytes := .empty
  ctext : Bytes := .empty
  deriving DecidableEq

structure MessageReturn where
  acknowledgement : Text := []
  keyAvailable : Bool := false
  textAvailable : Bool := false
  producerRegistered : Bool := false
  cryptocontext : Bytes := .empty
  pkey : Bytes := .empty
  reKey : Bytes := .empty
  ciphertext : Bytes := .empty
  deriving DecidableEq

/-! ## Processes -/

/-- The key servers, by their addresses: the upstream key server, if there is one, and the access
map. -/
structure Config where
  upstream_key_server : ℕ → Option ℕ
  authorizedConsumers : ℕ → List Text

/-- The arguments of a broker. -/
structure Params where
  process_name : Text
  security_model : Text
  key_server : ℕ
  deriving DecidableEq

/-- A broker, its upstream broker, the broker upstream of that, and so on. -/
abbrev Broker : Type := List Params

/-- The name that is empty without an upstream broker. -/
def upstream_broker_name : Broker → Text
  | _ :: up :: _ => up.process_name
  | _ => []

/-- The maps of a key server. A null entry is as no entry: all look-ups are by `operator[]`. -/
structure KeyServer where
  up : Bool := true
  PublicKeys : Text × Text → Option Key
  PrivateKeys : Text × Text → Option Key
  RecdPublicKeys : Text × Text → Option Key

/-- A broker has its map of ciphertexts, some of which may be null, and its routing table. -/
structure BrokerServer where
  up : Bool := true
  brokerCipherTexts : Text → Option (Option Ciphertext)
  routingTable : Text

/-- What a broker did. -/
inductive Event where
  | reEncrypt (ct : Option Ciphertext) (rk : Option EvalKey)
  /-- The broker has sent this ciphertext. -/
  | sent (b : Broker) (m : MessageRequest) (ct : Option Ciphertext)
  deriving DecidableEq

structure World where
  keyServers : ℕ → KeyServer
  brokers : Broker → BrokerServer
  /-- The number of the next key pair of a key server. -/
  generated : ℕ
  log : List Event

/-- A new entry takes none away. -/
theorem update_ne_none {α β : Type} [DecidableEq α] {f : α → Option β} {a x : α} {v : β}
    (h : f x ≠ none) : Function.update f a (some v) x ≠ none := by
  by_cases hx : x = a
  · subst hx
    rw [Function.update_self]
    exact Option.some_ne_none v
  · rwa [Function.update_of_ne hx]

namespace World

variable (w : World)

def updateKs (k : ℕ) (f : KeyServer → KeyServer) : World :=
  { w with keyServers := Function.update w.keyServers k (f (w.keyServers k)) }

def updateBroker (b : Broker) (f : BrokerServer → BrokerServer) : World :=
  { w with brokers := Function.update w.brokers b (f (w.brokers b)) }

def setPublicKey (k : ℕ) (owner : Text × Text) (key : Key) : World :=
  w.updateKs k fun ks => { ks with PublicKeys := Function.update ks.PublicKeys owner key }

def setPrivateKey (k : ℕ) (owner : Text × Text) (key : Key) : World :=
  w.updateKs k fun ks => { ks with PrivateKeys := Function.update ks.PrivateKeys owner key }

def setRecdPublicKey (k : ℕ) (owner : Text × Text) (key : Key) : World :=
  w.updateKs k fun ks => { ks with RecdPublicKeys := Function.update ks.RecdPublicKeys owner key }

/-- The key pair that a key server makes for a broker. -/
def setKeyPair (k : ℕ) (owner : Text × Text) : World :=
  { (w.setPublicKey k owner (.server w.generated)).setPrivateKey k owner (.server w.generated) with
    generated := w.generated + 1 }

/-- The process of the key server has ended. -/
def ksDown (k : ℕ) : World := w.updateKs k fun ks => { ks with up := false }

def brokerDown (b : Broker) : World := w.updateBroker b fun s => { s with up := false }

def setCipherText (b : Broker) (producer_name : Text) (ct : Option Ciphertext) : World :=
  w.updateBroker b fun s =>
    { s with brokerCipherTexts := Function.update s.brokerCipherTexts producer_name (some ct) }

def setRoutingTable (b : Broker) (f : Text → Text) : World :=
  w.updateBroker b fun s => { s with routingTable := f s.routingTable }

/-- A broker starts with an empty map and an empty file. -/
def restart (b : Broker) : World :=
  w.updateBroker b fun _ => { up := true, brokerCipherTexts := fun _ => none, routingTable := [] }

def record (e : Event) : World := { w with log := w.log ++ [e] }

section

variable {w} {k k' : ℕ} {b b' : Broker} {f : KeyServer → KeyServer} {g : BrokerServer → BrokerServer}

@[simp] theorem updateKs_self : (w.updateKs k f).keyServers k = f (w.keyServers k) :=
  Function.update_self ..

theorem updateKs_ne (h : k' ≠ k) : (w.updateKs k f).keyServers k' = w.keyServers k' :=
  Function.update_of_ne h ..

@[simp] theorem updateBroker_self : (w.updateBroker b g).brokers b = g (w.brokers b) :=
  Function.update_self ..

theorem updateBroker_ne (h : b' ≠ b) : (w.updateBroker b g).brokers b' = w.brokers b' :=
  Function.update_of_ne h ..

/-- A part of the brokers that is not changed. -/
theorem updateBroker_congr {α : Type} {v : BrokerServer → α} (hg : ∀ s, v (g s) = v s)
    (b' : Broker) : v ((w.updateBroker b g).brokers b') = v (w.brokers b') := by
  by_cases hb : b' = b
  · subst hb
    rw [updateBroker_self, hg]
  · rw [updateBroker_ne hb]

theorem updateKs_congr {α : Type} {v : KeyServer → α} (hf : ∀ s, v (f s) = v s) (k' : ℕ) :
    v ((w.updateKs k f).keyServers k') = v (w.keyServers k') := by
  by_cases hk : k' = k
  · subst hk
    rw [updateKs_self, hf]
  · rw [updateKs_ne hk]

@[simp] theorem brokers_updateKs : (w.updateKs k f).brokers = w.brokers := rfl
@[simp] theorem log_updateKs : (w.updateKs k f).log = w.log := rfl
@[simp] theorem keyServers_updateBroker : (w.updateBroker b g).keyServers = w.keyServers := rfl
@[simp] theorem log_updateBroker : (w.updateBroker b g).log = w.log := rfl
@[simp] theorem keyServers_record {e : Event} : (w.record e).keyServers = w.keyServers := rfl
@[simp] theorem brokers_record {e : Event} : (w.record e).brokers = w.brokers := rfl
@[simp] theorem log_record {e : Event} : (w.record e).log = w.log ++ [e] := rfl

end

end World

theorem update_eq_some {α β : Type} [DecidableEq α] {f : α → Option β} {a x : α} {v y : β}
    (h : Function.update f a (some v) x = some y) : x = a ∧ v = y ∨ f x = some y := by
  by_cases hx : x = a
  · subst hx
    rw [Function.update_self] at h
    exact .inl ⟨rfl, Option.some.inj h⟩
  · rw [Function.update_of_ne hx] at h
    exact .inr h

/-- Nothing has been registered, and no broker has started. -/
def initial : World where
  keyServers _ :=
    { PublicKeys := fun _ => none, PrivateKeys := fun _ => none, RecdPublicKeys := fun _ => none }
  brokers _ := { up := false, brokerCipherTexts := fun _ => none, routingTable := [] }
  generated := 0
  log := []

/-! ## Calls -/

/-- A call of a key server. -/
def serveKs (k : ℕ) (h : KeyServer → Handler World MessageReturn) : Handler World MessageReturn :=
  .act id fun w =>
    if (w.keyServers k).up then (h (w.keyServers k)).onThrow (·.ksDown k) else .throw

theorem exec_serveKs {h : KeyServer → Handler World MessageReturn} {k : ℕ} {w : World} :
    (serveKs k h).exec w = if (w.keyServers k).up then
      ((h (w.keyServers k)).onThrow (·.ksDown k)).exec w else (none, w) := by
  change Handler.exec (if _ then _ else _) w = _
  split <;> rfl

/-- A call of a broker. -/
def serve (b : Broker) (h : Handler World MessageReturn) : Handler World MessageReturn :=
  .act id fun w => if (w.brokers b).up then h.onThrow (·.brokerDown b) else .throw

section

variable {G : Rely World} {E : Prop} {Q : World → MessageReturn → Prop} {s : World}

theorem safe_serveKs {k : ℕ} {h : KeyServer → Handler World MessageReturn}
    (hdown : E → ∀ t, G.inv t → G.inv (t.ksDown k) ∧ G.rel t (t.ksDown k))
    (hup : ∀ t, G.rel s t → G.inv t → (t.keyServers k).up = false → E)
    (hh : ∀ t, G.rel s t → G.inv t → (t.keyServers k).up → (h (t.keyServers k)).Safe G E Q t) :
    (serveKs k h).Safe G E Q s := by
  intro t hst ht
  refine ⟨ht, G.refl t, ?_⟩
  change Handler.Safe G E Q t (if (t.keyServers k).up then _ else _)
  split
  · next hk => exact (hh t hst ht hk).onThrow hdown
  · next hk => exact hup t hst ht (by simpa using hk)

theorem safe_serve {b : Broker} {h : Handler World MessageReturn}
    (hdown : E → ∀ t, G.inv t → G.inv (t.brokerDown b) ∧ G.rel t (t.brokerDown b))
    (hup : ∀ t, G.rel s t → G.inv t → (t.brokers b).up = false → E)
    (hh : ∀ t, G.rel s t → G.inv t → h.Safe G E Q t) :
    (serve b h).Safe G E Q s := by
  intro t hst ht
  refine ⟨ht, G.refl t, ?_⟩
  change Handler.Safe G E Q t (if (t.brokers b).up then _ else _)
  split
  · exact (hh t hst ht).onThrow hdown
  · next hb => exact hup t hst ht (by simpa using hb)

end

end Pre

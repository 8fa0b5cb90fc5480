import NetworkExamples.Pre.Chain

/-!
# Requests that the servers survive

An exception in a handler ends the process of the server, and many requests throw one. `ServedIn` says
which do not, whichever of the states `W` they find: it looks at the fields of the request, at the keys
that are registered and at the ciphertexts that the brokers have.

* `Alive`: what served requests keep. All routing tables can be read, and name only producers whose
  ciphertexts are there; no ciphertext is null; the brokers that are up are registered.
* `Unchanged`: what belongs to other names is as it was; `Grows`: keys and ciphertexts have been added.
-/

namespace Pre.Survival

open Rpc BrokerServer

/-! ## The condition on the requests -/

/-- The broker or a broker upstream of it has a ciphertext of the producer. -/
def Has (w : World) : Broker → Text → Prop
  | [], _ => False
  | p :: up, P => w.Holds (p :: up) P ∨ Has w up P

/-- The route of the channel can be read. -/
def Writes (b : Broker) (m : MessageRequest) : Prop :=
  (∀ c ∈ m.channel_name, isspace c = false ∧ c ≠ ':') ∧
    Word (sender b (producerName m.channel_name)).2 ∧ Word m.client_name

section

variable (cfg : Config) (W : World → Prop)

/-- `PublicKeyToBroker` does not throw. -/
def PkServed (k : ℕ) (client : Text × Text) : Prop :=
  ∀ w, W w → (w.keyServers k).PublicKeys client ≠ none ∨ client.1 = producer ∨
    cfg.upstream_key_server k ≠ none

/-- `PublicKeyToBroker` answers with a key. -/
def PkFound (k : ℕ) (client : Text × Text) : Prop :=
  (∀ w, W w → (w.keyServers k).PublicKeys client ≠ none) ∨ client.1 ≠ producer ∧
    ∃ u, cfg.upstream_key_server k = some u ∧ ∀ w, W w → (w.keyServers u).PublicKeys client ≠ none

/-- `ReEncryptionKeyToBroker` answers with a key, which may be a null pointer. -/
def RkFound (k : ℕ) (sender : Text × Text) : Prop :=
  (∀ w, W w → (w.keyServers k).PrivateKeys sender ≠ none) ∨ sender.1 ≠ producer ∧
    ∃ u, cfg.upstream_key_server k = some u ∧ ∀ w, W w → (w.keyServers u).PrivateKeys sender ≠ none

/-- A broker can use what it gets from its upstream broker. -/
def Usable (p : Params) (sender : Text × Text) : Prop :=
  PkFound cfg W p.key_server sender ∧ RkFound cfg W p.key_server sender ∧
    p.security_model ∈ securityModels

/-- `ReEncryptionKeyToBroker` does not throw. -/
def RkServed (k : ℕ) (client sender : Text × Text) : Prop :=
  ∀ w, W w → ¬ KeyServer.ReKeyFails cfg k (reKeyRequest client.1 client.2 sender.2 sender.1)
    (w.keyServers k)

theorem RkServed.of_keys {cfg : Config} {W : World → Prop} {k : ℕ} {client sender : Text × Text}
    (hpub : ∀ w, W w → (w.keyServers k).PublicKeys client ≠ none)
    (hpriv : ∀ w, W w → (w.keyServers k).PrivateKeys sender ≠ none) : RkServed cfg W k client sender := by
  intro w hw hfails
  unfold KeyServer.ReKeyFails at hfails
  split at hfails
  · next hnone => exact hpriv w hw hnone
  · exact hpub w hw hfails.2

/-- The request of a downstream broker. -/
def upstreamRequest (p : Params) (channel : Text) : MessageRequest where
  client_type := broker
  client_name := p.process_name
  channel_name := channel

/-- `ReEncryptedCipherTextToBroker` does not throw. -/
def TextServed : Broker → MessageRequest → Prop
  | [], _ => False
  | p :: up, m =>
    (∀ w, W w → (w.brokers (p :: up)).up = true) ∧
    ((∃ w, W w ∧ Has w (p :: up) (producerName m.channel_name)) → Writes (p :: up) m) ∧
    ((∃ w, W w ∧ ¬ w.Holds (p :: up) (producerName m.channel_name)) →
      PkServed cfg W p.key_server (sender (p :: up) (producerName m.channel_name)) ∧
      RkServed cfg W p.key_server (m.client_type, p.process_name)
        (sender (p :: up) (producerName m.channel_name)) ∧
      (upstream_broker_name (p :: up) ≠ [] → TextServed up (upstreamRequest p m.channel_name)) ∧
      ((∃ w, W w ∧ Has w up (producerName m.channel_name)) →
        Usable cfg W p (sender (p :: up) (producerName m.channel_name))))

/-- The broker can ask its upstream broker. -/
def FetchServed (p : Params) (up : Broker) (channel : Text) : Prop :=
  (upstream_broker_name (p :: up) ≠ [] → TextServed cfg W up (upstreamRequest p channel)) ∧
    ((∃ w, W w ∧ Has w up (producerName channel)) →
      Usable cfg W p (sender (p :: up) (producerName channel)))

/-- `CipherTextToConsumer` does not throw. -/
structure ConsumerServed (p : Params) (up : Broker) (m : MessageRequest) : Prop where
  isUp : ∀ w, W w → (w.brokers (p :: up)).up = true
  /-- The channel is one of the consumer. -/
  name : (SplitString m.channel_name '-')[1]? = some m.client_name
  writes : (∃ w, W w ∧ Has w (p :: up) (producerName m.channel_name)) → Writes (p :: up) m
  /-- The keys of the sender, which are asked for in any case. -/
  publicKey : PkServed cfg W p.key_server (sender (p :: up) (producerName m.channel_name))
  reKey : RkServed cfg W p.key_server (broker, p.process_name)
    (sender (p :: up) (producerName m.channel_name))
  reKeyC : RkServed cfg W p.key_server (m.client_type, m.client_name) (broker, p.process_name)
  fetch : (∃ w, W w ∧ ¬ w.Holds (p :: up) (producerName m.channel_name)) →
    FetchServed cfg W p up m.channel_name
  security_model : (∃ w, W w ∧ Has w (p :: up) (producerName m.channel_name)) →
    m.client_name ∈ cfg.authorizedConsumers p.key_server → p.security_model ∈ securityModels

/-- `CipherTextFromProducer` does not throw. -/
structure UploadServed (p : Params) (up : Broker) (m : MessageRequest) : Prop where
  isUp : ∀ w, W w → (w.brokers (p :: up)).up = true
  ctext : m.ctext.toCiphertext.join ≠ none
  publicKey : ∀ w, W w → (w.keyServers p.key_server).PublicKeys (producer, m.client_name) ≠ none
  privateKey : ∀ w, W w → (w.keyServers p.key_server).PrivateKeys (producer, m.client_name) ≠ none
  authorized : p.process_name ∈ cfg.authorizedConsumers p.key_server
  security_model : p.security_model ∈ securityModels

/-- The call of a key server does not throw. -/
def KsServed (k : ℕ) (m : MessageRequest) : KeyServer.Rpc → Prop
  | .PrivateKeyFromProducer => m.pkey.toPrivateKey.join ≠ none
  | .PublicKeyFromClient | .PublicKeyfromServer => m.pkey.toPublicKey.join ≠ none
  | .PublicKeyToBroker => PkServed cfg W k (m.client_type, m.client_name)
  | .ReEncryptionKeyToBroker => ∀ w, W w → ¬ KeyServer.ReKeyFails cfg k m (w.keyServers k)
  | _ => True

/-- **The requests that the servers survive**, whichever of the states `W` they find. -/
def ServedIn : Call → Prop
  | .keyServer k rpc m => KsServed cfg W k m rpc
  | .broker [] _ _ => False
  | .broker b .ReEncryptedCipherTextToBroker m => TextServed cfg W b m
  | .broker (p :: up) .CipherTextFromProducer m => UploadServed cfg W p up m
  | .broker (p :: up) .CipherTextToConsumer m => ConsumerServed cfg W p up m
  | .start b => b ≠ []

end

/-! ### Other states -/

/-- The state `t` is for the requests as the state `w`. -/
structure Like (w t : World) : Prop where
  pub : ∀ k, (t.keyServers k).PublicKeys = (w.keyServers k).PublicKeys
  priv : ∀ k, (t.keyServers k).PrivateKeys = (w.keyServers k).PrivateKeys
  isUp : ∀ b, (t.brokers b).up = (w.brokers b).up
  holds : ∀ b P, w.Holds b P → t.Holds b P
  has : ∀ b P, Has t b P → Has w b P

theorem Like.refl (w : World) : Like w w := ⟨fun _ => rfl, fun _ => rfl, fun _ => rfl, fun _ _ h => h,
  fun _ _ h => h⟩

section

variable {cfg : Config} {W W' : World → Prop} {k : ℕ} {m : MessageRequest}

theorem Like.reKeyFails {w t : World} (h : Like w t) :
    KeyServer.ReKeyFails cfg k m (t.keyServers k) ↔ KeyServer.ReKeyFails cfg k m (w.keyServers k) := by
  unfold KeyServer.ReKeyFails
  rw [h.pub, h.priv]

section

variable (hW : ∀ t, W' t → ∃ w, W w ∧ Like w t)

include hW

theorem exists_has {b : Broker} {P : Text} (h : ∃ t, W' t ∧ Has t b P) : ∃ w, W w ∧ Has w b P := by
  obtain ⟨t, ht, hhas⟩ := h
  obtain ⟨w, hw, hl⟩ := hW t ht
  exact ⟨w, hw, hl.has b P hhas⟩

theorem exists_not_holds {b : Broker} {P : Text}
    (h : ∃ t, W' t ∧ ¬ t.Holds b P) : ∃ w, W w ∧ ¬ w.Holds b P := by
  obtain ⟨t, ht, hnot⟩ := h
  obtain ⟨w, hw, hl⟩ := hW t ht
  exact ⟨w, hw, fun hh => hnot (hl.holds b P hh)⟩

theorem forall_isUp {b : Broker}
    (h : ∀ w, W w → (w.brokers b).up = true) : ∀ t, W' t → (t.brokers b).up = true := by
  intro t ht
  obtain ⟨w, hw, hl⟩ := hW t ht
  exact (hl.isUp b).trans (h w hw)

theorem forall_publicKeys {owner : Text × Text}
    (h : ∀ w, W w → (w.keyServers k).PublicKeys owner ≠ none) :
    ∀ t, W' t → (t.keyServers k).PublicKeys owner ≠ none := by
  intro t ht
  obtain ⟨w, hw, hl⟩ := hW t ht
  rw [hl.pub]
  exact h w hw

theorem forall_privateKeys {owner : Text × Text}
    (h : ∀ w, W w → (w.keyServers k).PrivateKeys owner ≠ none) :
    ∀ t, W' t → (t.keyServers k).PrivateKeys owner ≠ none := by
  intro t ht
  obtain ⟨w, hw, hl⟩ := hW t ht
  rw [hl.priv]
  exact h w hw

theorem PkServed.like {client : Text × Text}
    (h : PkServed cfg W k client) : PkServed cfg W' k client := by
  intro t ht
  obtain ⟨w, hw, hl⟩ := hW t ht
  rw [hl.pub]
  exact h w hw

theorem forall_reKey
    (h : ∀ w, W w → ¬ KeyServer.ReKeyFails cfg k m (w.keyServers k)) :
    ∀ t, W' t → ¬ KeyServer.ReKeyFails cfg k m (t.keyServers k) := by
  intro t ht
  obtain ⟨w, hw, hl⟩ := hW t ht
  rw [hl.reKeyFails]
  exact h w hw

theorem Usable.like {p : Params} {sender : Text × Text}
    (h : Usable cfg W p sender) : Usable cfg W' p sender := by
  obtain ⟨hpub, hpriv, hmodel⟩ := h
  refine ⟨hpub.imp (forall_publicKeys hW) fun ⟨hne, u, hu, hkey⟩ => ?_,
    hpriv.imp (forall_privateKeys hW) fun ⟨hne, u, hu, hkey⟩ => ?_, hmodel⟩
  · exact ⟨hne, u, hu, forall_publicKeys hW hkey⟩
  · exact ⟨hne, u, hu, forall_privateKeys hW hkey⟩

theorem TextServed.like {b : Broker} (h : TextServed cfg W b m) : TextServed cfg W' b m := by
  induction b generalizing m with
  | nil => exact h
  | cons p up ih =>
    obtain ⟨hup, hwrites, hmiss⟩ := h
    refine ⟨forall_isUp hW hup, fun hhas => hwrites (exists_has hW hhas), fun hnot => ?_⟩
    obtain ⟨hpk, hrk, hask, husable⟩ := hmiss (exists_not_holds hW hnot)
    exact ⟨hpk.like hW, forall_reKey hW hrk, fun hne => ih (hask hne),
      fun hhas => (husable (exists_has hW hhas)).like hW⟩

theorem ConsumerServed.like {p : Params} {up : Broker}
    (h : ConsumerServed cfg W p up m) : ConsumerServed cfg W' p up m where
  isUp := forall_isUp hW h.isUp
  name := h.name
  writes hhas := h.writes (exists_has hW hhas)
  publicKey := h.publicKey.like hW
  reKey := forall_reKey hW h.reKey
  reKeyC := forall_reKey hW h.reKeyC
  fetch hnot := by
    obtain ⟨hask, husable⟩ := h.fetch (exists_not_holds hW hnot)
    exact ⟨fun hne => (hask hne).like hW, fun hhas => (husable (exists_has hW hhas)).like hW⟩
  security_model hhas := h.security_model (exists_has hW hhas)

theorem UploadServed.like {p : Params} {up : Broker}
    (h : UploadServed cfg W p up m) : UploadServed cfg W' p up m where
  isUp := forall_isUp hW h.isUp
  ctext := h.ctext
  publicKey := forall_publicKeys hW h.publicKey
  privateKey := forall_privateKeys hW h.privateKey
  authorized := h.authorized
  security_model := h.security_model

theorem KsServed.like {rpc : KeyServer.Rpc}
    (h : KsServed cfg W k m rpc) : KsServed cfg W' k m rpc := by
  cases rpc with
  | PublicKeyToBroker => exact PkServed.like hW h
  | ReEncryptionKeyToBroker => exact forall_reKey hW h
  | _ => exact h

end

/-- The call of a key server does not throw. -/
theorem KsServed.not_fails {rpc : KeyServer.Rpc} (h : KsServed cfg W k m rpc) {w : World}
    (hw : W w) : ¬ KeyServer.Fails cfg k m (w.keyServers k) rpc := by
  intro hfails
  cases rpc with
  | PublicKeyToBroker =>
    obtain ⟨hnone, hne, hu⟩ := hfails
    rcases h w hw with h | h | h
    · exact h hnone
    · exact hne h
    · exact h hu
  | ReEncryptionKeyToBroker => exact h w hw hfails
  | PrivateKeyFromProducer | PublicKeyFromClient | PublicKeyfromServer => exact h hfails
  | _ => exact hfails

end

/-! ## What served requests keep -/

/-- **The servers are alive.** -/
structure Alive (w : World) : Prop where
  keyServers : ∀ k, (w.keyServers k).up = true
  PublicKeys : ∀ p up, (w.brokers (p :: up)).up = true →
    (w.keyServers p.key_server).PublicKeys (broker, p.process_name) ≠ none
  PrivateKeys : ∀ p up, (w.brokers (p :: up)).up = true →
    (w.keyServers p.key_server).PrivateKeys (broker, p.process_name) ≠ none
  cipherTexts : ∀ b P, (w.brokers b).brokerCipherTexts P ≠ some none
  routes : ∀ b, w.Routes b

/-- **What belongs to other names is as it was**: keys, ciphertexts, and the lines of the routing
tables, to which lines of `names` may have been added. -/
structure Unchanged (names : Text → Prop) (w t : World) : Prop where
  PublicKeys : ∀ k type name, ¬ names name →
    (t.keyServers k).PublicKeys (type, name) = (w.keyServers k).PublicKeys (type, name)
  PrivateKeys : ∀ k type name, ¬ names name →
    (t.keyServers k).PrivateKeys (type, name) = (w.keyServers k).PrivateKeys (type, name)
  RecdPublicKeys : ∀ k type name, ¬ names name →
    (t.keyServers k).RecdPublicKeys (type, name) = (w.keyServers k).RecdPublicKeys (type, name)
  cipherTexts : ∀ b P, ¬ names P →
    (t.brokers b).brokerCipherTexts P = (w.brokers b).brokerCipherTexts P
  routes : ∀ b, ∃ l, (t.brokers b).routingTable = (w.brokers b).routingTable ++ render l ∧
    ∀ r ∈ l, names (producerName r.channelName)

/-- The names that a call is about: the client, the producer, and the brokers that are asked. -/
def names : Call → Text → Prop
  | .keyServer _ _ m => fun n => n = m.client_name
  | .broker b _ m => fun n => n = m.client_name ∨ n = producerName m.channel_name ∨
      ∃ p ∈ b, n = p.process_name
  | .start b => fun n => ∃ p ∈ b, n = p.process_name

section

variable {N : Text → Prop} {w t : World} {b : Broker} {P : Text}

theorem Unchanged.refl : Unchanged N w w where
  PublicKeys _ _ _ _ := rfl
  PrivateKeys _ _ _ _ := rfl
  RecdPublicKeys _ _ _ _ := rfl
  cipherTexts _ _ _ := rfl
  routes b := ⟨[], (List.append_nil _).symm, fun r hr => by cases hr⟩

theorem Unchanged.trans {u : World} (h : Unchanged N w t) (h' : Unchanged N t u) :
    Unchanged N w u where
  PublicKeys k type name hn := (h'.PublicKeys k type name hn).trans (h.PublicKeys k type name hn)
  PrivateKeys k type name hn := (h'.PrivateKeys k type name hn).trans (h.PrivateKeys k type name hn)
  RecdPublicKeys k type name hn :=
    (h'.RecdPublicKeys k type name hn).trans (h.RecdPublicKeys k type name hn)
  cipherTexts b P hP := (h'.cipherTexts b P hP).trans (h.cipherTexts b P hP)
  routes b := by
    obtain ⟨l, hl, hr⟩ := h.routes b
    obtain ⟨l', hl', hr'⟩ := h'.routes b
    refine ⟨l ++ l', ?_, fun r hmem => (List.mem_append.mp hmem).elim (hr r) (hr' r)⟩
    rw [hl', hl, List.append_assoc]
    unfold render
    rw [List.flatMap_append]

theorem Alive.record (h : Alive w) (e : Event) : Alive (w.record e) :=
  ⟨h.keyServers, h.PublicKeys, h.PrivateKeys, h.cipherTexts, h.routes⟩

/-- Keys are added. -/
theorem Alive.updateKs (h : Alive w) (k : ℕ) {f : KeyServer → KeyServer}
    (hup : ∀ ks, (f ks).up = ks.up)
    (hpub : ∀ ks owner, ks.PublicKeys owner ≠ none → (f ks).PublicKeys owner ≠ none)
    (hpriv : ∀ ks owner, ks.PrivateKeys owner ≠ none → (f ks).PrivateKeys owner ≠ none) :
    Alive (w.updateKs k f) where
  keyServers k' := (World.updateKs_congr (v := KeyServer.up) hup k').trans (h.keyServers k')
  PublicKeys p up hb := by
    by_cases hk : p.key_server = k
    · subst hk
      rw [World.updateKs_self]
      exact hpub _ _ (h.PublicKeys p up hb)
    · rw [World.updateKs_ne hk]
      exact h.PublicKeys p up hb
  PrivateKeys p up hb := by
    by_cases hk : p.key_server = k
    · subst hk
      rw [World.updateKs_self]
      exact hpriv _ _ (h.PrivateKeys p up hb)
    · rw [World.updateKs_ne hk]
      exact h.PrivateKeys p up hb
  cipherTexts := h.cipherTexts
  routes := h.routes

/-- A broker stores a ciphertext. -/
theorem Alive.setCipherText (h : Alive w) {ct : Ciphertext} : Alive (w.setCipherText b P (some ct)) where
  keyServers := h.keyServers
  PublicKeys p up hb := h.PublicKeys p up (World.up_setCipherText.symm.trans hb)
  PrivateKeys p up hb := h.PrivateKeys p up (World.up_setCipherText.symm.trans hb)
  cipherTexts b' P' := by
    rw [World.cipherTexts_setCipherText]
    split
    · exact fun h => by cases h
    · exact h.cipherTexts b' P'
  routes b' := (h.routes b').setCipherText

theorem Alive.setRoutingTable (h : Alive w) {ch up down : Text} {flag : Bool}
    (hr : Route.Ok ⟨ch, up, down, source_sink flag⟩) (hh : w.Holds b (producerName ch)) :
    Alive (w.setRoutingTable b fun routingTable =>
      UpdateRoutingTable routingTable ch up down flag) where
  keyServers := h.keyServers
  PublicKeys p up hb := h.PublicKeys p up (World.up_setRoutingTable.symm.trans hb)
  PrivateKeys p up hb := h.PrivateKeys p up (World.up_setRoutingTable.symm.trans hb)
  cipherTexts b' P' := World.cipherTexts_setRoutingTable (w := w) ▸ h.cipherTexts b' P'
  routes b' := (h.routes b').setRoutingTable hr hh

theorem Unchanged.setCipherText (h : Unchanged N w t) (hP : N P) {e : Option Ciphertext} :
    Unchanged N w (t.setCipherText b P e) where
  PublicKeys := h.PublicKeys
  PrivateKeys := h.PrivateKeys
  RecdPublicKeys := h.RecdPublicKeys
  cipherTexts b' P' hP' := by
    have hne : P' ≠ P := by
      rintro rfl
      exact hP' hP
    rw [World.cipherTexts_setCipherText_ne (.inr hne)]
    exact h.cipherTexts b' P' hP'
  routes b' := by
    rw [World.routingTable_setCipherText]
    exact h.routes b'

theorem Unchanged.setRoutingTable (h : Unchanged N w t) {ch up down : Text} {flag : Bool}
    (hch : N (producerName ch)) :
    Unchanged N w (t.setRoutingTable b fun routingTable =>
      UpdateRoutingTable routingTable ch up down flag) where
  PublicKeys := h.PublicKeys
  PrivateKeys := h.PrivateKeys
  RecdPublicKeys := h.RecdPublicKeys
  cipherTexts b' P' hP' := by
    rw [World.cipherTexts_setRoutingTable]
    exact h.cipherTexts b' P' hP'
  routes b' := by
    rw [World.routingTable_setRoutingTable]
    obtain ⟨l, hl, hr⟩ := h.routes b'
    split
    · refine ⟨l ++ [⟨ch, up, down, source_sink flag⟩], ?_, fun r hmem => ?_⟩
      · simp only [hl, UpdateRoutingTable, render, List.flatMap_append, List.flatMap_cons,
          List.flatMap_nil, List.append_nil, List.append_assoc]
      · rcases List.mem_append.mp hmem with hmem | hmem
        · exact hr r hmem
        · obtain rfl := List.mem_singleton.mp hmem
          exact hch
    · exact ⟨l, hl, hr⟩

/-- A key server changes keys of `N`. -/
theorem Unchanged.updateKs {k : ℕ} {f : KeyServer → KeyServer}
    (hpub : ∀ ks type name, ¬ N name → (f ks).PublicKeys (type, name) = ks.PublicKeys (type, name))
    (hpriv : ∀ ks type name, ¬ N name →
      (f ks).PrivateKeys (type, name) = ks.PrivateKeys (type, name))
    (hrecd : ∀ ks type name, ¬ N name →
      (f ks).RecdPublicKeys (type, name) = ks.RecdPublicKeys (type, name)) :
    Unchanged N w (w.updateKs k f) where
  PublicKeys k' type name hn :=
    World.updateKs_congr (v := fun ks => ks.PublicKeys (type, name)) (fun ks => hpub ks _ _ hn) k'
  PrivateKeys k' type name hn :=
    World.updateKs_congr (v := fun ks => ks.PrivateKeys (type, name)) (fun ks => hpriv ks _ _ hn) k'
  RecdPublicKeys k' type name hn :=
    World.updateKs_congr (v := fun ks => ks.RecdPublicKeys (type, name)) (fun ks => hrecd ks _ _ hn) k'
  cipherTexts _ _ _ := rfl
  routes b := ⟨[], (List.append_nil _).symm, fun r hr => by cases hr⟩

theorem update_name_ne {β : Type} {f : Text × Text → Option β} {type type' name name' : Text} {v : β}
    (h : name' ≠ name) :
    Function.update f (type, name) (some v) (type', name') = f (type', name') :=
  Function.update_of_ne (fun h' => h (Prod.mk.inj h').2) ..

theorem Unchanged.setPublicKey {k : ℕ} {type name : Text} {key : Key} (hN : N name) :
    Unchanged N w (w.setPublicKey k (type, name) key) :=
  .updateKs (fun _ _ _ hn => update_name_ne fun h => hn (h ▸ hN)) (fun _ _ _ _ => rfl)
    fun _ _ _ _ => rfl

theorem Unchanged.setPrivateKey {k : ℕ} {type name : Text} {key : Key} (hN : N name) :
    Unchanged N w (w.setPrivateKey k (type, name) key) :=
  .updateKs (fun _ _ _ _ => rfl) (fun _ _ _ hn => update_name_ne fun h => hn (h ▸ hN))
    fun _ _ _ _ => rfl

theorem Alive.setPublicKey (h : Alive w) (k : ℕ) (owner : Text × Text) (key : Key) :
    Alive (w.setPublicKey k owner key) :=
  h.updateKs k (fun _ => rfl) (fun _ _ h => update_ne_none h) fun _ _ h => h

theorem Alive.setPrivateKey (h : Alive w) (k : ℕ) (owner : Text × Text) (key : Key) :
    Alive (w.setPrivateKey k owner key) :=
  h.updateKs k (fun _ => rfl) (fun _ _ h => h) fun _ _ h => update_ne_none h

theorem Alive.setKeyPair (h : Alive w) (k : ℕ) (owner : Text × Text) : Alive (w.setKeyPair k owner) :=
  have hkeys := (h.setPublicKey k owner (.server w.generated)).setPrivateKey k owner
    (.server w.generated)
  ⟨hkeys.keyServers, hkeys.PublicKeys, hkeys.PrivateKeys, hkeys.cipherTexts, hkeys.routes⟩

theorem Unchanged.setRecdPublicKey {k : ℕ} {type name : Text} {key : Key} (hN : N name) :
    Unchanged N w (w.setRecdPublicKey k (type, name) key) :=
  .updateKs (fun _ _ _ _ => rfl) (fun _ _ _ _ => rfl) fun _ _ _ hn =>
    update_name_ne fun h => hn (h ▸ hN)

theorem Alive.setRecdPublicKey (h : Alive w) (k : ℕ) (owner : Text × Text) (key : Key) :
    Alive (w.setRecdPublicKey k owner key) :=
  h.updateKs k (fun _ => rfl) (fun _ _ h => h) fun _ _ h => h

theorem Unchanged.record {e : Event} : Unchanged N w (w.record e) where
  PublicKeys _ _ _ _ := rfl
  PrivateKeys _ _ _ _ := rfl
  RecdPublicKeys _ _ _ _ := rfl
  cipherTexts _ _ _ := rfl
  routes b := ⟨[], (List.append_nil _).symm, fun r hr => by cases hr⟩

theorem Unchanged.setKeyPair {k : ℕ} {type name : Text} (hN : N name) :
    Unchanged N w (w.setKeyPair k (type, name)) :=
  have hkeys : Unchanged N w ((w.setPublicKey k (type, name) (.server w.generated)).setPrivateKey k
      (type, name) (.server w.generated)) := (Unchanged.setPublicKey hN).trans (.setPrivateKey hN)
  ⟨hkeys.PublicKeys, hkeys.PrivateKeys, hkeys.RecdPublicKeys, hkeys.cipherTexts, hkeys.routes⟩

/-! ### States with more in them -/

/-- Keys and ciphertexts have been added, and no broker has started or ended. -/
structure Grows (w t : World) : Prop where
  PublicKeys : ∀ k owner, (w.keyServers k).PublicKeys owner ≠ none →
    (t.keyServers k).PublicKeys owner ≠ none
  PrivateKeys : ∀ k owner, (w.keyServers k).PrivateKeys owner ≠ none →
    (t.keyServers k).PrivateKeys owner ≠ none
  RecdPublicKeys : ∀ k owner, (w.keyServers k).RecdPublicKeys owner ≠ none →
    (t.keyServers k).RecdPublicKeys owner ≠ none
  holds : ∀ b P, w.Holds b P → t.Holds b P
  isUp : ∀ b, (t.brokers b).up = (w.brokers b).up

namespace Grows

theorem refl (w : World) : Grows w w :=
  ⟨fun _ _ h => h, fun _ _ h => h, fun _ _ h => h, fun _ _ h => h, fun _ => rfl⟩

theorem trans {u : World} (h : Grows w t) (h' : Grows t u) : Grows w u where
  PublicKeys k owner hk := h'.PublicKeys k owner (h.PublicKeys k owner hk)
  PrivateKeys k owner hk := h'.PrivateKeys k owner (h.PrivateKeys k owner hk)
  RecdPublicKeys k owner hk := h'.RecdPublicKeys k owner (h.RecdPublicKeys k owner hk)
  holds b P hh := h'.holds b P (h.holds b P hh)
  isUp b := (h'.isUp b).trans (h.isUp b)

theorem updateKs {k : ℕ} {f : KeyServer → KeyServer}
    (hpub : ∀ ks owner, ks.PublicKeys owner ≠ none → (f ks).PublicKeys owner ≠ none)
    (hpriv : ∀ ks owner, ks.PrivateKeys owner ≠ none → (f ks).PrivateKeys owner ≠ none)
    (hrecd : ∀ ks owner, ks.RecdPublicKeys owner ≠ none → (f ks).RecdPublicKeys owner ≠ none) :
    Grows w (w.updateKs k f) := by
  have hks : ∀ k', (w.updateKs k f).keyServers k' = w.keyServers k' ∨
      (w.updateKs k f).keyServers k' = f (w.keyServers k') := by
    intro k'
    by_cases hk : k' = k
    · subst hk
      exact .inr World.updateKs_self
    · exact .inl (World.updateKs_ne hk)
  refine ⟨fun k' owner h => ?_, fun k' owner h => ?_, fun k' owner h => ?_, fun _ _ h => h,
    fun _ => rfl⟩
  · rcases hks k' with hk | hk
    · rwa [hk]
    · rw [hk]
      exact hpub _ _ h
  · rcases hks k' with hk | hk
    · rwa [hk]
    · rw [hk]
      exact hpriv _ _ h
  · rcases hks k' with hk | hk
    · rwa [hk]
    · rw [hk]
      exact hrecd _ _ h

variable {k : ℕ} {owner : Text × Text} {key : Key}

theorem setPublicKey : Grows w (w.setPublicKey k owner key) :=
  updateKs (fun _ _ h => update_ne_none h) (fun _ _ h => h) fun _ _ h => h

theorem setPrivateKey : Grows w (w.setPrivateKey k owner key) :=
  updateKs (fun _ _ h => h) (fun _ _ h => update_ne_none h) fun _ _ h => h

theorem setRecdPublicKey : Grows w (w.setRecdPublicKey k owner key) :=
  updateKs (fun _ _ h => h) (fun _ _ h => h) fun _ _ h => update_ne_none h

theorem setKeyPair : Grows w (w.setKeyPair k owner) :=
  have hkeys : Grows w ((w.setPublicKey k owner (.server w.generated)).setPrivateKey k owner
      (.server w.generated)) := setPublicKey.trans setPrivateKey
  ⟨hkeys.PublicKeys, hkeys.PrivateKeys, hkeys.RecdPublicKeys, hkeys.holds, hkeys.isUp⟩

theorem record {e : Event} : Grows w (w.record e) :=
  ⟨fun _ _ h => h, fun _ _ h => h, fun _ _ h => h, fun _ _ h => h, fun _ => rfl⟩

theorem setCipherText {ct : Ciphertext} : Grows w (w.setCipherText b P (some ct)) :=
  ⟨fun _ _ h => h, fun _ _ h => h, fun _ _ h => h,
    fun _ _ hh => World.holds_setCipherText.mpr (.inr hh), fun _ => World.up_setCipherText⟩

theorem setRoutingTable {f : Text → Text} : Grows w (w.setRoutingTable b f) :=
  ⟨fun _ _ h => h, fun _ _ h => h, fun _ _ h => h,
    fun _ _ hh => World.holds_setRoutingTable.mpr hh, fun _ => World.up_setRoutingTable⟩

end Grows

end

end Pre.Survival

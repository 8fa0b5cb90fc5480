import NetworkExamples.Pre.Caches
import NetworkExamples.Pre.Policy

/-!
# A chain of brokers

The brokers `B1`, ..., `Bk`, each upstream of the next, all with keys that are registered. A broker
is written with its upstream brokers, `[Bi, ..., B1]`: its length is its number `i`.

* `Chain.State`: the invariant. A ciphertext at `Bi` is under the key of `Bi` and has been
  re-encrypted `i` times; a broker that has one has it from its upstream broker, which still has one;
  and the routing table names only producers whose ciphertexts the broker has.
* `Chain.policy`: the handlers keep it.
-/

namespace Pre

open Rpc BrokerServer

/-- The operands of a re-encryption fit. -/
def Operands (ct : Option Ciphertext) (rk : Option EvalKey) : Prop :=
  ∃ c r, ct = some c ∧ rk = some r ∧ c.key = r.src

/-- **A chain of brokers**, the last one first, with the key pairs that the key servers have made. -/
structure Chain where
  cfg : Config
  brokers : List Params
  key : Text → Key
  word : ∀ p ∈ brokers, Word p.process_name
  named : ∀ p ∈ brokers, p.process_name ≠ []

namespace Chain

section

variable (C : Chain)

/-- The key server that makes the re-encryption keys for a broker: its own one if its sender is
registered there, else the upstream one. -/
def maker (p : Params) : Broker → Option ℕ
  | [] => some p.key_server
  | q :: _ =>
    if q.key_server = p.key_server then some p.key_server
    else C.cfg.upstream_key_server p.key_server

/-- The broker and its upstream brokers are in the access maps. -/
def Authorized : Broker → Prop
  | [] => True
  | p :: up => (∀ k, C.maker p up = some k → p.process_name ∈ C.cfg.authorizedConsumers k) ∧
      Authorized up

structure IsBroker (b : Broker) : Prop where
  ne_nil : b ≠ []
  suffix : b <:+ C.brokers
  authorized : C.Authorized b

def keyOf (b : Broker) : Key := C.key ((b.head?.map Params.process_name).getD [])

/-- What a broker stores for a producer; `Ok` are the texts. -/
def Stored (Ok : Broker → Text → Text → Prop) (b : Broker) (P : Text) (e : Option Ciphertext) :
    Prop :=
  ∃ ct, e = some ct ∧ ct.key = C.keyOf b ∧ ct.hops = b.length ∧
    ∃ text, ct.plaintext = some text ∧ Ok b P text

/-- The brokers are registered, each at its own key server. -/
structure Registered (w : World) : Prop where
  PublicKey : ∀ p ∈ C.brokers, (w.keyServers p.key_server).PublicKeys (broker, p.process_name) =
    some (C.key p.process_name)
  PrivateKeys : ∀ p ∈ C.brokers, (w.keyServers p.key_server).PrivateKeys (broker, p.process_name) =
    some (C.key p.process_name)
  own : ∀ p ∈ C.brokers, ∀ k, (w.keyServers k).PrivateKeys (broker, p.process_name) ≠ none →
    k = p.key_server
  PublicKeys : ∀ p ∈ C.brokers, ∀ k key,
    (w.keyServers k).PublicKeys (broker, p.process_name) = some key → key = C.key p.process_name
  RecdPublicKeys : ∀ p ∈ C.brokers, ∀ k key,
    (w.keyServers k).RecdPublicKeys (broker, p.process_name) = some key → key = C.key p.process_name

/-- **The invariant.** -/
structure State (Ok : Broker → Text → Text → Prop) (w : World) : Prop
    extends C.Registered w where
  cipherTexts : ∀ b, C.IsBroker b → ∀ P e, (w.brokers b).brokerCipherTexts P = some e →
    C.Stored Ok b P e
  routes : ∀ b, C.IsBroker b → w.Routes b
  upstream : ∀ p q up P, C.IsBroker (p :: q :: up) → w.Holds (p :: q :: up) P → w.Holds (q :: up) P
  operands : ∀ ct rk, .reEncrypt ct rk ∈ w.log → Operands ct rk

/-- The state while a request is served: the keys stay as they are, and a broker that has yet to
fetch a ciphertext may store what its upstream broker has. -/
structure Serving (Ok : Broker → Text → Text → Prop) (pub priv : ℕ → Text × Text → Option Key)
    (w : World) : Prop extends C.State Ok w where
  pub : ∀ k, (w.keyServers k).PublicKeys = pub k
  priv : ∀ k, (w.keyServers k).PrivateKeys = priv k
  fresh : ∀ p q up P, C.IsBroker (p :: q :: up) → w.Holds (p :: q :: up) P ∨
    ∀ text, Ok (q :: up) P text → Ok (p :: q :: up) P text

end

variable {C : Chain} {Ok Ok' : Broker → Text → Text → Prop} {pub priv : ℕ → Text × Text → Option Key}
  {w t : World} {b : Broker} {p q : Params} {up : Broker} {P : Text}

theorem IsBroker.mem (h : C.IsBroker (p :: up)) : p ∈ C.brokers :=
  h.suffix.subset List.mem_cons_self

theorem IsBroker.upstream (h : C.IsBroker (p :: q :: up)) : C.IsBroker (q :: up) :=
  ⟨List.cons_ne_nil _ _, (List.suffix_cons p _).trans h.suffix, h.authorized.2⟩

/-- The upstream broker has a name, so it is the sender. -/
theorem sender_upstream (h : C.IsBroker (p :: q :: up)) (P : Text) :
    sender (p :: q :: up) P = (broker, q.process_name) :=
  if_neg (C.named q h.upstream.mem)

theorem word_sender (h : C.IsBroker (p :: up)) (hP : Word P) : Word (sender (p :: up) P).2 :=
  Pre.word_sender (fun q hq => C.word q (h.suffix.subset hq)) hP

/-! ## The changes of the state -/

/-- What the registration is about. -/
theorem Registered.congr (h : C.Registered w)
    (hpub : ∀ k name, (t.keyServers k).PublicKeys (broker, name) =
      (w.keyServers k).PublicKeys (broker, name))
    (hpriv : ∀ k name, (t.keyServers k).PrivateKeys (broker, name) =
      (w.keyServers k).PrivateKeys (broker, name))
    (hrecd : ∀ k name, (t.keyServers k).RecdPublicKeys (broker, name) =
      (w.keyServers k).RecdPublicKeys (broker, name)) : C.Registered t where
  PublicKey p hp := (hpub _ _).trans (h.PublicKey p hp)
  PrivateKeys p hp := (hpriv _ _).trans (h.PrivateKeys p hp)
  own p hp k hk := h.own p hp k (hpriv k _ ▸ hk)
  PublicKeys p hp k key hk := h.PublicKeys p hp k key ((hpub k _).symm.trans hk)
  RecdPublicKeys p hp k key hk := h.RecdPublicKeys p hp k key ((hrecd k _).symm.trans hk)

theorem Registered.updateKs (h : C.Registered w) (k : ℕ) {f : KeyServer → KeyServer}
    (hpub : ∀ ks name, (f ks).PublicKeys (broker, name) = ks.PublicKeys (broker, name))
    (hpriv : ∀ ks name, (f ks).PrivateKeys (broker, name) = ks.PrivateKeys (broker, name))
    (hrecd : ∀ ks name, (f ks).RecdPublicKeys (broker, name) = ks.RecdPublicKeys (broker, name)) :
    C.Registered (w.updateKs k f) :=
  h.congr
    (fun k' name => World.updateKs_congr (v := fun ks => ks.PublicKeys (broker, name))
      (fun ks => hpub ks name) k')
    (fun k' name => World.updateKs_congr (v := fun ks => ks.PrivateKeys (broker, name))
      (fun ks => hpriv ks name) k')
    fun k' name => World.updateKs_congr (v := fun ks => ks.RecdPublicKeys (broker, name))
      (fun ks => hrecd ks name) k'

theorem Registered.ksDown (h : C.Registered w) (k : ℕ) : C.Registered (w.ksDown k) :=
  h.updateKs k (fun _ _ => rfl) (fun _ _ => rfl) fun _ _ => rfl

/-- A client that is no broker registers a key. -/
theorem Registered.setPublicKey (h : C.Registered w) (k : ℕ) {type : Text} (htype : type ≠ broker)
    (name : Text) (key : Key) : C.Registered (w.setPublicKey k (type, name) key) :=
  h.updateKs k (fun _ _ => Function.update_of_ne (fun h => htype (congrArg Prod.fst h).symm) ..)
    (fun _ _ => rfl) fun _ _ => rfl

theorem Registered.setPrivateKey (h : C.Registered w) (k : ℕ) {type : Text} (htype : type ≠ broker)
    (name : Text) (key : Key) : C.Registered (w.setPrivateKey k (type, name) key) :=
  h.updateKs k (fun _ _ => rfl)
    (fun _ _ => Function.update_of_ne (fun h => htype (congrArg Prod.fst h).symm) ..) fun _ _ => rfl

/-- A broker has one key pair. -/
theorem Registered.privateKey (h : C.Registered w) (hp : p ∈ C.brokers) {k : ℕ} {key : Key}
    (hk : (w.keyServers k).PrivateKeys (broker, p.process_name) = some key) :
    k = p.key_server ∧ key = C.key p.process_name := by
  obtain rfl := h.own p hp k (Option.ne_none_iff_exists'.mpr ⟨key, hk⟩)
  exact ⟨rfl, Option.some.inj (hk.symm.trans (h.PrivateKeys p hp))⟩

section

variable {k : ℕ} {owner : Text × Text} {key : Key}

theorem publicKeys_setRecdPublicKey (k' : ℕ) :
    ((w.setRecdPublicKey k owner key).keyServers k').PublicKeys = (w.keyServers k').PublicKeys :=
  World.updateKs_congr (f := fun ks =>
    { ks with RecdPublicKeys := Function.update ks.RecdPublicKeys owner key })
    (v := KeyServer.PublicKeys) (fun _ => rfl) k'

theorem privateKeys_setRecdPublicKey (k' : ℕ) :
    ((w.setRecdPublicKey k owner key).keyServers k').PrivateKeys = (w.keyServers k').PrivateKeys :=
  World.updateKs_congr (f := fun ks =>
    { ks with RecdPublicKeys := Function.update ks.RecdPublicKeys owner key })
    (v := KeyServer.PrivateKeys) (fun _ => rfl) k'

end

/-- The public key of a receiver goes to the upstream key server. -/
theorem Registered.setRecdPublicKey (h : C.Registered w) (k : ℕ) {owner : Text × Text} {key : Key}
    (hkey : ∀ p ∈ C.brokers, owner = (broker, p.process_name) → key = C.key p.process_name) :
    C.Registered (w.setRecdPublicKey k owner key) where
  PublicKey p hp := (congrFun (publicKeys_setRecdPublicKey _) _).trans (h.PublicKey p hp)
  PrivateKeys p hp := (congrFun (privateKeys_setRecdPublicKey _) _).trans (h.PrivateKeys p hp)
  own p hp k' hk := h.own p hp k' (privateKeys_setRecdPublicKey (w := w) k' ▸ hk)
  PublicKeys p hp k' key' hk := h.PublicKeys p hp k' key'
    ((congrFun (publicKeys_setRecdPublicKey k') _).symm.trans hk)
  RecdPublicKeys p hp k' key' hk := by
    unfold World.setRecdPublicKey at hk
    by_cases hk' : k' = k
    · subst hk'
      rw [World.updateKs_self] at hk
      rcases update_eq_some hk with ⟨howner, rfl⟩ | hk
      · exact hkey p hp howner.symm
      · exact h.RecdPublicKeys p hp k' key' hk
    · rw [World.updateKs_ne hk'] at hk
      exact h.RecdPublicKeys p hp k' key' hk

namespace State

/-- What the invariant is about. -/
theorem congr (h : C.State Ok w) (hkeys : C.Registered t)
    (htexts : ∀ b, (t.brokers b).brokerCipherTexts = (w.brokers b).brokerCipherTexts)
    (hroutes : ∀ b, C.IsBroker b → t.Routes b)
    (hlog : ∀ ct rk, .reEncrypt ct rk ∈ t.log → Operands ct rk) : C.State Ok t where
  toRegistered := hkeys
  cipherTexts b hb P e he := h.cipherTexts b hb P e (htexts b ▸ he)
  routes := hroutes
  upstream p q up P hb hh := (World.holds_congr (htexts _)).mpr
    (h.upstream p q up P hb ((World.holds_congr (htexts _)).mp hh))
  operands := hlog

theorem updateKs (h : C.State Ok w) {k : ℕ} {f : KeyServer → KeyServer}
    (hkeys : C.Registered (w.updateKs k f)) : C.State Ok (w.updateKs k f) :=
  h.congr hkeys (fun _ => rfl) h.routes h.operands

theorem brokerDown (h : C.State Ok w) (b : Broker) : C.State Ok (w.brokerDown b) :=
  h.congr (h.toRegistered.congr (fun _ _ => rfl) (fun _ _ => rfl) fun _ _ => rfl)
    (fun _ => World.cipherTexts_brokerDown)
    (fun b' hb => (h.routes b' hb).mono World.routingTable_brokerDown fun _ hh =>
      World.holds_brokerDown.mpr hh) h.operands

theorem record (h : C.State Ok w) (e : Event)
    (he : ∀ ct rk, e = .reEncrypt ct rk → Operands ct rk) : C.State Ok (w.record e) := by
  refine h.congr (h.toRegistered.congr (fun _ _ => rfl) (fun _ _ => rfl) fun _ _ => rfl)
    (fun _ => rfl) h.routes fun ct rk hmem => ?_
  rcases List.mem_append.mp hmem with hmem | hmem
  · exact h.operands ct rk hmem
  · exact he ct rk (List.mem_singleton.mp hmem).symm

/-- A broker stores a ciphertext, from its upstream broker if it has one. The texts may become
others, if the other ciphertexts still fit. -/
theorem setCipherText (h : C.State Ok w) {e : Option Ciphertext} (he : C.Stored Ok' b P e)
    (hup : ∀ p q up, b = p :: q :: up → w.Holds (q :: up) P)
    (hok : ∀ b' P' e', C.IsBroker b' → b' ≠ b ∨ P' ≠ P →
      (w.brokers b').brokerCipherTexts P' = some e' → C.Stored Ok' b' P' e') :
    C.State Ok' (w.setCipherText b P e) := by
  obtain ⟨ct, rfl, hct⟩ := he
  refine ⟨h.toRegistered.congr (fun _ _ => rfl) (fun _ _ => rfl) fun _ _ => rfl,
    fun b' hb' P' e' he' => ?_, fun b' hb' => (h.routes b' hb').setCipherText,
    fun p' q' up' P' hb' hh => ?_, h.operands⟩
  · by_cases hne : b' = b ∧ P' = P
    · obtain ⟨rfl, rfl⟩ := hne
      rw [World.cipherTexts_setCipherText_self] at he'
      obtain rfl := Option.some.inj he'
      exact ⟨ct, rfl, hct⟩
    · have hne := not_and_or.mp hne
      rw [World.cipherTexts_setCipherText_ne hne] at he'
      exact hok b' P' e' hb' hne he'
  · apply World.holds_setCipherText.mpr
    rcases World.holds_setCipherText.mp hh with ⟨hb, rfl⟩ | hh
    · exact .inr (hup p' q' up' hb.symm)
    · exact .inr (h.upstream p' q' up' P' hb' hh)

theorem setRoutingTable (h : C.State Ok w) {ch up down : Text} {flag : Bool}
    (hr : Route.Ok ⟨ch, up, down, source_sink flag⟩) (hh : w.Holds b (producerName ch)) :
    C.State Ok (w.setRoutingTable b fun routingTable =>
      UpdateRoutingTable routingTable ch up down flag) :=
  h.congr (h.toRegistered.congr (fun _ _ => rfl) (fun _ _ => rfl) fun _ _ => rfl)
    (fun _ => World.cipherTexts_setRoutingTable)
    (fun b' hb => (h.routes b' hb).setRoutingTable hr hh) h.operands

end State

/-! ## The condition -/

/-- What other handlers may do: the brokers keep what they have. -/
def rely (C : Chain) (Ok : Broker → Text → Text → Prop) (pub priv : ℕ → Text × Text → Option Key) :
    Rely World where
  inv := C.Serving Ok pub priv
  rel s t := ∀ b P, s.Holds b P → t.Holds b P
  refl _ _ _ h := h
  trans _ _ _ h h' b P hh := h' b P (h b P hh)

/-- A change that keeps the invariant, the keys and the ciphertexts. -/
theorem Serving.step (h : C.Serving Ok pub priv w) (ht : C.State Ok t)
    (hkeys : ∀ k, (t.keyServers k).PublicKeys = (w.keyServers k).PublicKeys ∧
      (t.keyServers k).PrivateKeys = (w.keyServers k).PrivateKeys)
    (hh : ∀ b P, w.Holds b P → t.Holds b P) :
    (C.rely Ok pub priv).inv t ∧ (C.rely Ok pub priv).rel w t :=
  ⟨⟨ht, fun k => (hkeys k).1.trans (h.pub k), fun k => (hkeys k).2.trans (h.priv k),
    fun p q up P hb => (h.fresh p q up P hb).imp (hh _ P) id⟩, hh⟩

theorem Serving.updateKs (h : C.Serving Ok pub priv w) (k : ℕ) {f : KeyServer → KeyServer}
    (hkeys : C.Registered (w.updateKs k f)) (hpub : ∀ ks, (f ks).PublicKeys = ks.PublicKeys)
    (hpriv : ∀ ks, (f ks).PrivateKeys = ks.PrivateKeys) :
    (C.rely Ok pub priv).inv (w.updateKs k f) ∧ (C.rely Ok pub priv).rel w (w.updateKs k f) :=
  h.step (h.toState.updateKs hkeys) (fun k' =>
    ⟨World.updateKs_congr (v := KeyServer.PublicKeys) hpub k',
      World.updateKs_congr (v := KeyServer.PrivateKeys) hpriv k'⟩) fun _ _ h => h

theorem quiet {m : MessageRequest} : KeyServer.Quiet C.cfg (C.rely Ok pub priv) True m where
  ksDown _ _ k ht := Serving.updateKs ht k (Registered.ksDown (Serving.toState ht).toRegistered k)
    (fun _ => rfl) fun _ => rfl
  ksUp _ _ _ _ := trivial
  recd s _ k u key hs _ ht _ hkey := by
    have hs' : C.Registered s := (Serving.toState hs).toRegistered
    refine Serving.updateKs ht u (Registered.setRecdPublicKey (Serving.toState ht).toRegistered u
      fun p hp howner => ?_) (fun _ => rfl) fun _ => rfl
    rw [howner] at hkey
    exact hs'.PublicKeys p hp k key hkey

/-! ## The keys -/

section

variable {s : World} {x : Bytes} {type name upstream_name upstream_type : Text}

theorem safe_PublicKeyToBroker {k : ℕ} :
    (BrokerServer.PublicKeyToBroker C.cfg k x type name).Safe (C.rely Ok pub priv) True
      (fun _ _ => True) s :=
  Handler.Safe.bind (KeyServer.safe_PublicKeyToBroker quiet fun _ _ _ _ _ _ => trivial)
    fun _ _ _ _ => trivial

theorem safe_ReEncryptionKeyToBroker {k : ℕ} {Q : Bytes → Prop}
    (hQ : ∀ reply, KeyServer.ReKeyReply C.cfg (C.rely Ok pub priv) s k
      (reKeyRequest type name upstream_name upstream_type) reply →
      Q (if reply.keyAvailable then reply.reKey else x)) :
    (BrokerServer.ReEncryptionKeyToBroker C.cfg k x type name upstream_name upstream_type).Safe
      (C.rely Ok pub priv) True (fun _ y => Q y) s :=
  Handler.Safe.bind (KeyServer.safe_ReEncryptionKeyToBroker quiet fun _ _ _ _ => trivial)
    fun _ reply _ hreply => hQ reply hreply

/-- The re-encryption key for a broker, from its sender. -/
def ReKey (C : Chain) (priv : ℕ → Text × Text → Option Key) (p : Params) (P : Text) :
    Broker → Bytes → Prop
  | [], x => ∀ rk, x = .evalKey rk → ∃ key, priv p.key_server (producer, P) = some key ∧
      rk = some ⟨key, C.key p.process_name⟩
  | q :: _, x => ∀ rk, x = .evalKey rk → rk = some ⟨C.key q.process_name, C.key p.process_name⟩

/-- The key server of the first broker has the keys of the producers. -/
theorem reKey_source (hb : C.IsBroker [p]) {reply : MessageReturn}
    (h : KeyServer.ReKeyReply C.cfg (C.rely Ok pub priv) s p.key_server
      (reKeyRequest broker p.process_name P producer) reply) : C.ReKey priv p P [] reply.reKey := by
  intro rk hx
  cases h with
  | missing => cases hx
  | here t key rk' ht _ hkey hrk =>
    obtain rfl := Bytes.evalKey.inj hx
    obtain ⟨key', pk, rfl, hkey', hpk⟩ :=
      KeyServer.reencryptionKey_authorized (hb.authorized.1 p.key_server rfl) hrk
    obtain rfl := Option.some.inj hkey'
    obtain rfl := (Serving.toState ht).PublicKeys p hb.mem _ _ hpk
    exact ⟨key, (congrFun (Serving.priv ht _) _).symm.trans hkey, rfl⟩
  | upstream _ _ _ _ _ hproducer => exact absurd rfl hproducer

/-- The key of the upstream broker is at its own key server, which may be the upstream one. -/
theorem reKey_broker (hb : C.IsBroker (p :: q :: up)) {reply : MessageReturn}
    (h : KeyServer.ReKeyReply C.cfg (C.rely Ok pub priv) s p.key_server
      (reKeyRequest broker p.process_name q.process_name broker) reply) :
    C.ReKey priv p P (q :: up) reply.reKey := by
  intro rk hx
  have hp := hb.mem
  have hq := hb.upstream.mem
  cases h with
  | missing hproducer => exact absurd hproducer producer_ne_broker.symm
  | here t key rk' ht _ hkey hrk =>
    obtain rfl := Bytes.evalKey.inj hx
    obtain ⟨hown, rfl⟩ := (Serving.toState ht).privateKey hq hkey
    have hauth := hb.authorized.1 p.key_server (if_pos hown.symm)
    obtain ⟨key', pk, rfl, hkey', hpk⟩ := KeyServer.reencryptionKey_authorized hauth hrk
    obtain rfl := Option.some.inj hkey'
    obtain rfl := (Serving.toState ht).PublicKeys p hp _ _ hpk
    rfl
  | upstream u t₁ t key reKey _ hu hnone _ ht _ _ hrk =>
    obtain rfl : reKey = .evalKey rk := hx
    obtain ⟨rk', hrk', hrk⟩ := hrk (fun h => by cases h)
    obtain rfl := Bytes.evalKey.inj hrk'
    obtain ⟨t', ht', -, hnone⟩ := hnone
    have hne : q.key_server ≠ p.key_server := by
      intro heq
      have hsome := (Serving.toState ht').PrivateKeys q hq
      rw [heq] at hsome
      exact absurd (hsome.symm.trans hnone) (Option.some_ne_none _)
    have hauth := hb.authorized.1 u ((if_neg hne).trans hu)
    obtain ⟨key', pk, rfl, hkey', hpk⟩ := KeyServer.reencryptionKey_authorized hauth hrk
    obtain ⟨-, rfl⟩ := (Serving.toState ht).privateKey hq hkey'
    obtain rfl := (Serving.toState ht).RecdPublicKeys p hp _ _ hpk
    rfl

theorem safe_reKey (hb : C.IsBroker (p :: up)) :
    (BrokerServer.ReEncryptionKeyToBroker C.cfg p.key_server .empty broker p.process_name
      (sender (p :: up) P).2 (sender (p :: up) P).1).Safe (C.rely Ok pub priv) True
        (fun _ x => C.ReKey priv p P up x) s := by
  refine safe_ReEncryptionKeyToBroker fun reply hreply => ?_
  split
  · cases up with
    | nil => exact reKey_source hb hreply
    | cons q up =>
      rw [sender_upstream hb] at hreply
      exact reKey_broker hb hreply
  · cases up with
    | nil => exact fun rk h => by cases h
    | cons q up => exact fun rk h => by cases h

/-- The re-encryption key for a consumer. -/
def ReKeyC (C : Chain) (pub : ℕ → Text × Text → Option Key) (p : Params) (m : MessageRequest)
    (x : Bytes) : Prop :=
  ∀ rk, x = .evalKey rk → KeyServer.reencryptionKey C.cfg p.key_server m
    (some (C.key p.process_name)) (pub p.key_server (m.client_type, m.client_name)) = some rk

theorem safe_reKeyC {m : MessageRequest} {x : Bytes} (hp : p ∈ C.brokers) :
    (BrokerServer.ReEncryptionKeyToBroker C.cfg p.key_server x m.client_type m.client_name
      p.process_name broker).Safe (C.rely Ok pub priv) True (fun _ y => C.ReKeyC pub p m y) s := by
  refine safe_ReEncryptionKeyToBroker fun reply hreply rk hx => ?_
  rw [hreply.keyAvailable producer_ne_broker.symm, if_pos rfl] at hx
  cases hreply with
  | missing hproducer => exact absurd hproducer producer_ne_broker.symm
  | here t key rk' ht _ hkey hrk =>
    obtain rfl := Bytes.evalKey.inj hx
    obtain ⟨-, rfl⟩ := (Serving.toState ht).privateKey hp hkey
    rw [Serving.pub ht] at hrk
    exact hrk
  | upstream u t₁ t key reKey _ _ hnone =>
    obtain ⟨t', ht', -, hnone⟩ := hnone
    have hsome := (Serving.toState ht').PrivateKeys p hp
    exact absurd (hsome.symm.trans hnone) (Option.some_ne_none _)

end

/-! ## The policy -/

/-- What a consumer gets: a text, and if it is authorized, under its key. -/
def Answer (C : Chain) (Ok : Broker → Text → Text → Prop) (pub : ℕ → Text × Text → Option Key) :
    Broker → MessageRequest → Option Ciphertext → Prop
  | [], _, _ => True
  | p :: up, m, e => ∃ ct, e = some ct ∧
      (∃ text, ct.plaintext = some text ∧ Ok (p :: up) (producerName m.channel_name) text) ∧
      (m.client_name ∈ C.cfg.authorizedConsumers p.key_server →
        pub p.key_server (m.client_type, m.client_name) = some ct.key ∧
          ct.hops = (p :: up).length + 1)

/-- The next broker stores a text that its upstream broker has. -/
theorem stored_reEncrypt {ct : Ciphertext} {up' : Broker}
    (hfresh : ∀ text, Ok (q :: up') P text → Ok (p :: q :: up') P text)
    (hct : C.Stored Ok (q :: up') P (some ct)) :
    C.Stored Ok (p :: q :: up') P
      (some (ct.reEncrypt ⟨C.key q.process_name, C.key p.process_name⟩)) := by
  obtain ⟨ct', h, hkey, hhops, text, htext, hok⟩ := hct
  obtain rfl := Option.some.inj h
  refine ⟨_, rfl, rfl, ?_, text, ?_, hfresh text hok⟩
  · exact congrArg (· + 1) hhops
  · exact (if_pos hkey).trans htext

def policy (C : Chain) (Ok : Broker → Text → Text → Prop) (pub priv : ℕ → Text × Text → Option Key) :
    Policy C.cfg True where
  G := C.rely Ok pub priv
  Asks p up m := C.IsBroker (p :: up) ∧ Word m.channel_name ∧ Word m.client_name ∧
    m.client_type = broker
  Consumes p up m := C.IsBroker (p :: up) ∧ Word m.channel_name ∧ Word m.client_name ∧
    m.client_type = consumer
  Fetches p up channel := C.IsBroker (p :: up) ∧ Word channel ∧ ∀ q up', up = q :: up' →
    ∀ text, Ok up (producerName channel) text → Ok (p :: up) (producerName channel) text
  Serves b channel := C.IsBroker b ∧ Word channel
  stored := C.Stored Ok
  kept := World.Holds
  sent b m e := m.client_type = consumer → C.Answer Ok pub b m e
  operands := Operands
  publicKey _ _ _ _ := True
  rekey p up P := C.ReKey priv p P up
  publicKeyC _ _ _ := True
  rekeyC := C.ReKeyC pub
  kept_rel _ _ b P h := h b P
  brokerDown _ t b ht := Serving.step ht (State.brokerDown (Serving.toState ht) b) (fun _ => ⟨rfl, rfl⟩)
    fun _ _ h => World.holds_brokerDown.mpr h
  asks _ _ _ h := ⟨h.1, h.2.1⟩
  consumes _ _ _ h := ⟨h.1, h.2.1⟩
  routed t b dest channel routes ht hc hparse hany :=
    (State.routes (Serving.toState ht) b hc.1).holds hparse hany
  entry t b channel ht hc hh := by
    obtain ⟨ct, hct⟩ := hh
    have hstored := State.cipherTexts (Serving.toState ht) b hc.1 _ _ hct
    rw [hct]
    refine ⟨hstored, Serving.step ht (State.setCipherText (Serving.toState ht) hstored ?_
      fun b' P' e' hb' _ => State.cipherTexts (Serving.toState ht) b' hb' P' e') (fun _ => ⟨rfl, rfl⟩)
      fun b' P h => World.holds_setCipherText.mpr (.inr h)⟩
    rintro p q up rfl
    exact State.upstream (Serving.toState ht) p q up _ hc.1 ⟨ct, hct⟩
  found t b channel e ht hc he := by
    have hstored := State.cipherTexts (Serving.toState ht) b hc.1 _ _ he
    obtain ⟨ct, rfl, -⟩ := id hstored
    exact ⟨hstored, ct, he⟩
  store t p q up channel e ht hc hup hstored := by
    obtain ⟨ct, rfl, -⟩ := id hstored
    obtain ⟨hinv, hrel⟩ := Serving.step ht (State.setCipherText (Serving.toState ht) hstored
      (fun p' q' up' h => by cases h; exact hup) fun b' P' e' hb' _ =>
        State.cipherTexts (Serving.toState ht) b' hb' P' e') (fun _ => ⟨rfl, rfl⟩) fun b' P h => World.holds_setCipherText.mpr (.inr h)
    exact ⟨hinv, hrel, World.holds_setCipherText.mpr (.inl ⟨rfl, rfl⟩)⟩
  route t p up m ht hm hh := by
    obtain ⟨hb, hch, hname⟩ : C.IsBroker (p :: up) ∧ Word m.channel_name ∧ Word m.client_name :=
      hm.elim (fun h => ⟨h.1, h.2.1, h.2.2.1⟩) fun h => ⟨h.1, h.2.1, h.2.2.1⟩
    exact Serving.step ht (State.setRoutingTable (Serving.toState ht)
      ⟨hch.line, word_sender hb (word_producerName hch), hname, word_source_sink _⟩ hh)
      (fun _ => ⟨rfl, rfl⟩) fun _ _ h => World.holds_setRoutingTable.mpr h
  record t ct rk ht hop := Serving.step ht (State.record (Serving.toState ht) _ fun _ _ h => by
    cases h; exact hop) (fun _ => ⟨rfl, rfl⟩) fun _ _ h => h
  send t b m ct ht _ := Serving.step ht (State.record (Serving.toState ht) _ fun _ _ h => by
    cases h) (fun _ => ⟨rfl, rfl⟩) fun _ _ h => h
  sent_stored p up m ct hm _ h := absurd (h.symm.trans hm.2.2.2) consumer_ne_broker
  miss t p up m ht hm hnone := by
    refine ⟨⟨hm.1, hm.2.1, ?_⟩, fun _ => safe_PublicKeyToBroker, fun _ => ?_⟩
    · rintro q up' rfl
      rcases Serving.fresh ht p q up' _ hm.1 with ⟨ct, hct⟩ | h
      · rw [hnone] at hct
        cases hct
      · exact h
    · rw [hm.2.2.2]
      exact safe_reKey hm.1
  missC t p up m ht hm hnone := by
    refine ⟨hm.1, hm.2.1, ?_⟩
    rintro q up' rfl
    rcases Serving.fresh ht p q up' _ hm.1 with ⟨ct, hct⟩ | h
    · rw [hnone] at hct
      cases hct
    · exact h
  keysC p up m hm := ⟨fun _ => safe_PublicKeyToBroker, fun _ => safe_reKey hm.1⟩
  keysForC p up m pk rk hm _ := ⟨fun _ => safe_PublicKeyToBroker, fun _ => safe_reKeyC hm.1.mem⟩
  fetches p q up channel hf _ := ⟨hf.1.upstream, hf.2.1, C.word p hf.1.mem, rfl⟩
  reEncrypted p q up channel ct rk hf hct hrk := by
    obtain rfl := hrk rk rfl
    obtain ⟨ct', h, hct', -⟩ := id hct
    obtain rfl := Option.some.inj h
    exact ⟨⟨ct, _, rfl, rfl, hct'⟩, stored_reEncrypt (hf.2.2 q up rfl) hct⟩
  reEncryptedC p up m e rk hm he hrk := by
    obtain ⟨ct, rfl, hct, hhops, text, htext, hok⟩ := he
    have hrk := hrk rk rfl
    cases rk with
    | none =>
      intro _
      refine ⟨ct, rfl, ⟨text, htext, hok⟩, fun hauth => ?_⟩
      obtain ⟨_, _, h, -⟩ := KeyServer.reencryptionKey_authorized hauth hrk
      cases h
    | some r =>
      obtain ⟨-, hsrc, hdst⟩ := KeyServer.reencryptionKey_eq_some hrk
      have hkey : ct.key = r.src := hct.trans (Option.some.inj hsrc)
      refine ⟨⟨ct, r, rfl, rfl, hkey⟩, ?_⟩
      rintro _ ⟨rfl⟩ -
      refine ⟨_, rfl, ⟨text, (if_pos hkey).trans htext, hok⟩, fun _ => ⟨hdst, ?_⟩⟩
      exact congrArg (· + 1) hhops

end Chain

end Pre

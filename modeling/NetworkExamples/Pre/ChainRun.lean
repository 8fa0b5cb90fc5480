import NetworkExamples.Pre.Chain

/-!
# Runs of a chain of brokers

Producers upload texts, consumers register their public keys and ask for texts, in any order; a
producer may run again, with a new key pair and a new text. All this begins when the brokers have
started (`Chain.Started`).

* `Chain.inv_reach`: the invariant holds in every run. The text at the first broker is the latest one,
  at the others the one that the second broker has.
* `Chain.operands_fit`, `Chain.key_and_hops`, `Chain.which_text`: what follows for the re-encryptions,
  for the ciphertexts of the brokers, and for the texts of the consumers.
-/

namespace Pre

open Rpc Schedule

/-! ## The clients -/

section

variable (cfg : Config)

/-- A producer registers its key pair. -/
def producerKeys (k : ℕ) (P : Text) (key : Key) : Handler World MessageReturn := do
  let _ ← KeyServer.Proceed cfg k .CryptoContextFromServer {}
  let _ ← KeyServer.Proceed cfg k .PrivateKeyFromProducer
    { client_name := P, pkey := .privateKey (some key) }
  KeyServer.Proceed cfg k .PublicKeyFromClient
    { client_type := producer, client_name := P, pkey := .publicKey (some key) }

/-- The run of a producer, with the broker `[p]`. -/
def producerRun (p : Params) (P : Text) (key : Key) (text : Text) : Handler World MessageReturn := do
  let _ ← producerKeys cfg p.key_server P key
  BrokerServer.Proceed cfg [p] .CipherTextFromProducer
    { client_name := P, ctext := .ciphertext (some ⟨key, some text, 0⟩) }

/-- A consumer registers its public key. -/
def consumerKey (k : ℕ) (c : Text) (key : Key) : Handler World MessageReturn :=
  KeyServer.Proceed cfg k .PublicKeyFromClient
    { client_type := consumer, client_name := c, pkey := .publicKey (some key) }

/-- The request of the consumer `c` for the channel from `p`. -/
def consumerRequest (c p : Text) : MessageRequest where
  client_type := consumer
  client_name := c
  channel_name := channel p c

def consumerRun (b : Broker) (c p : Text) : Handler World MessageReturn :=
  BrokerServer.Proceed cfg b .CipherTextToConsumer (consumerRequest c p)

end

/-- The state of the network, and the completed uploads, the latest one first. -/
structure Net where
  world : World
  uploads : List (Text × Text)

/-- The text of the most recent completed upload. -/
def Net.latest (s : Net) (P : Text) : Option Text := s.uploads.lookup P

inductive Step where
  | upload (p : Params) (P : Text) (key : Key) (text : Text)
  | register (k : ℕ) (c : Text) (key : Key)
  | request (b : Broker) (c p : Text)

/-- The upload is completed if the run of the producer has ended with a reply. -/
def Net.uploaded (s : Net) (P text : Text) (r : Option MessageReturn × World) : Net where
  world := r.2
  uploads := if r.1.isSome then (P, text) :: s.uploads else s.uploads

def Net.step (cfg : Config) (s : Net) : Step → Net
  | .upload p P key text => s.uploaded P text ((producerRun cfg p P key text).exec s.world)
  | .register k c key => { s with world := ((consumerKey cfg k c key).exec s.world).2 }
  | .request b c p => { s with world := ((consumerRun cfg b c p).exec s.world).2 }

/-- The keys that are registered. -/
def World.pub (w : World) (k : ℕ) : Text × Text → Option Key := (w.keyServers k).PublicKeys

def World.priv (w : World) (k : ℕ) : Text × Text → Option Key := (w.keyServers k).PrivateKeys

/-- What the ciphertext of the producer decrypts to. -/
def World.text (w : World) (b : Broker) (P : Text) : Option Text :=
  ((w.brokers b).brokerCipherTexts P).join.bind Ciphertext.plaintext

/-! ## The registrations and the uploads -/

section

variable {cfg : Config} {w : World} {k : ℕ} {P : Text} {key : Key}

theorem exec_PublicKeyFromClient {m : MessageRequest} (h : m.pkey.toPublicKey.join = some key) :
    (KeyServer.Proceed cfg k .PublicKeyFromClient m).exec w =
      if (w.keyServers k).up then (some { acknowledgement := KeyServer.received },
        w.setPublicKey k (m.client_type, m.client_name) key)
      else (none, w) := by
  refine exec_serveKs.trans ?_
  simp only [KeyServer.PublicKeyFromClient, h]
  rfl

theorem exec_PublicKeyfromServer {m : MessageRequest} (h : m.pkey.toPublicKey.join = some key) :
    (KeyServer.Proceed cfg k .PublicKeyfromServer m).exec w =
      if (w.keyServers k).up then (some { acknowledgement := KeyServer.received },
        w.setRecdPublicKey k (m.client_type, m.client_name) key)
      else (none, w) := by
  refine exec_serveKs.trans ?_
  simp only [KeyServer.PublicKeyfromServer, h]
  rfl

theorem exec_PrivateKeyFromProducer {m : MessageRequest} (h : m.pkey.toPrivateKey.join = some key) :
    (KeyServer.Proceed cfg k .PrivateKeyFromProducer m).exec w =
      if (w.keyServers k).up then (some { acknowledgement := KeyServer.received },
        w.setPrivateKey k (producer, m.client_name) key)
      else (none, w) := by
  refine exec_serveKs.trans ?_
  simp only [KeyServer.PrivateKeyFromProducer, h]
  rfl

theorem exec_CryptoContextRequestFromServer_Broker {m : MessageRequest} :
    (KeyServer.Proceed cfg k .CryptoContextRequestFromServer_Broker m).exec w =
      if (w.keyServers k).up then
        (some { cryptocontext := .cryptoContext }, w.setKeyPair k (broker, m.client_name))
      else (none, w) :=
  exec_serveKs

theorem exec_CryptoContextFromServer {m : MessageRequest} :
    (KeyServer.Proceed cfg k .CryptoContextFromServer m).exec w =
      if (w.keyServers k).up then (some { cryptocontext := .cryptoContext }, w) else (none, w) :=
  exec_serveKs

theorem exec_producerKeys :
    (producerKeys cfg k P key).exec w =
      if (w.keyServers k).up then
        (some { acknowledgement := KeyServer.received },
          (w.setPrivateKey k (producer, P) key).setPublicKey k (producer, P) key)
      else (none, w) := by
  have hup : ((w.setPrivateKey k (producer, P) key).keyServers k).up = (w.keyServers k).up :=
    World.updateKs_congr (f := fun ks => { ks with
      PrivateKeys := Function.update ks.PrivateKeys (producer, P) key }) (v := KeyServer.up)
      (fun _ => rfl) k
  unfold producerKeys
  by_cases h : (w.keyServers k).up = true
  · simp only [Handler.bind_eq, Handler.exec_bind, exec_CryptoContextFromServer,
      exec_PrivateKeyFromProducer (m := { client_name := P, pkey := .privateKey (some key) }) rfl,
      exec_PublicKeyFromClient (m := { client_type := producer, client_name := P,
                                       pkey := .publicKey (some key) }) rfl, hup, if_pos h]
  · simp only [Handler.bind_eq, Handler.exec_bind, exec_CryptoContextFromServer, if_neg h]

theorem exec_CipherTextFromProducer {p : Params} {up : Broker} {m : MessageRequest} :
    (BrokerServer.Proceed cfg (p :: up) .CipherTextFromProducer m).exec w =
      if (w.brokers (p :: up)).up then
        match (BrokerServer.reEncryptUpload cfg p m).exec w with
        | (some ct, t) => (some { acknowledgement := BrokerServer.receivedText },
            t.setCipherText (p :: up) m.client_name (some ct))
        | (none, t) => (none, t.brokerDown (p :: up))
      else (none, w) := by
  change Handler.exec (if _ then _ else _) w = _
  split
  · rw [Handler.exec_onThrow]
    unfold BrokerServer.CipherTextFromProducer
    rw [Handler.bind_eq, Handler.exec_bind]
    cases hre : (BrokerServer.reEncryptUpload cfg p m).exec w with
    | mk o t => cases o <;> rfl
  · rfl

end

/-! ## The invariant of the runs -/

namespace Chain

/-- The second broker of a chain. -/
def second (b : Broker) : Broker := b.drop (b.length - 2)

end Chain

/-- **The text that a broker has**: the first one the latest, the others that of the second. -/
def Net.textAt (s : Net) (b : Broker) (P : Text) : Option Text :=
  if b.length = 1 then s.latest P else (s.world.text (Chain.second b) P).or (s.latest P)

def Net.Ok (s : Net) (b : Broker) (P text : Text) : Prop :=
  s.textAt b P = some text ∧ (P, text) ∈ s.uploads

namespace Chain

variable {C : Chain} {s : Net} {w t : World} {b : Broker} {p q : Params} {up : Broker} {P : Text}

theorem second_cons {r : Params} : second (p :: q :: r :: up) = second (q :: r :: up) := rfl

theorem second_second (h : 2 ≤ b.length) : second (second b) = second b := by
  unfold second
  rw [List.length_drop, List.drop_drop]
  congr 1
  omega

theorem length_second (h : 2 ≤ b.length) : (second b).length = 2 := by
  unfold second
  rw [List.length_drop]
  omega

/-- The first broker. -/
theorem IsBroker.eq_first (hb : C.IsBroker b) (hp : C.IsBroker [p]) (h : b.length = 1) : b = [p] :=
  (List.suffix_of_suffix_length_le hb.suffix hp.suffix (Nat.le_of_eq h)).eq_of_length h

/-- What holds upstream holds at the second broker. -/
theorem IsBroker.second (hb : C.IsBroker b) (h : 2 ≤ b.length) {Q : Broker → Prop} (hQ : Q b)
    (hup : ∀ p q up, C.IsBroker (p :: q :: up) → Q (p :: q :: up) → Q (q :: up)) :
    C.IsBroker (second b) ∧ Q (second b) := by
  induction b with
  | nil => cases h
  | cons p b ih =>
    match b with
    | [] => exact absurd h (by simp)
    | [q] => exact ⟨hb, hQ⟩
    | q :: r :: up => exact ih hb.upstream (by simp) (hup p q (r :: up) hb hQ)

theorem text_eq_none (h : ¬ w.Holds b P) : w.text b P = none := by
  unfold World.text
  cases hct : (w.brokers b).brokerCipherTexts P with
  | none => rfl
  | some e =>
    cases e with
    | none => rfl
    | some ct => exact absurd ⟨ct, hct⟩ h

theorem Stored.text {Ok : Broker → Text → Text → Prop} {e : Option Ciphertext}
    (h : C.Stored Ok b P e) (he : (w.brokers b).brokerCipherTexts P = some e) :
    ∃ text, w.text b P = some text ∧ Ok b P text := by
  obtain ⟨ct, rfl, -, -, text, htext, hok⟩ := h
  refine ⟨text, ?_, hok⟩
  unfold World.text
  rw [he]
  exact htext

theorem State.text (h : C.State s.Ok w) (hb : C.IsBroker b) (hh : w.Holds b P) :
    w.text b P = s.textAt b P := by
  obtain ⟨ct, hct⟩ := hh
  obtain ⟨text, htext, hok, -⟩ := (h.cipherTexts b hb P _ hct).text hct
  rw [htext, hok]

/-- The second broker still has what the others have from it. -/
theorem State.text_second (h : C.State s.Ok w) (hb : C.IsBroker b) (h2 : 2 ≤ b.length)
    (hh : w.Holds b P) : w.text (second b) P = s.textAt b P := by
  obtain ⟨hb', hh'⟩ := hb.second h2 (Q := fun b => w.Holds b P) hh fun p q up hb => h.upstream p q up P hb
  rw [h.text hb' hh']
  unfold Net.textAt
  rw [second_second h2, length_second h2, if_neg (by decide), if_neg (by omega)]

/-- The texts become those of another state. -/
theorem State.stored {s' : Net} (h : C.State s.Ok w) (hb : C.IsBroker b) {e : Option Ciphertext}
    (he : (w.brokers b).brokerCipherTexts P = some e) (hup : s.uploads ⊆ s'.uploads)
    (h1 : b.length = 1 → s'.latest P = s.latest P)
    (h2 : 2 ≤ b.length → s'.world.text (second b) P = w.text (second b) P) :
    C.Stored s'.Ok b P e := by
  have hh : w.Holds b P := by
    obtain ⟨ct, rfl, -⟩ := h.cipherTexts b hb P e he
    exact ⟨ct, he⟩
  obtain ⟨ct, rfl, hkey, hhops, text, htext, hok, hmem⟩ := h.cipherTexts b hb P e he
  refine ⟨ct, rfl, hkey, hhops, text, htext, ?_, hup hmem⟩
  rw [← hok]
  by_cases hlen : b.length = 1
  · unfold Net.textAt
    rw [if_pos hlen, if_pos hlen, h1 hlen]
  · have hlen : 2 ≤ b.length := by
      have := List.length_pos_of_ne_nil hb.ne_nil
      omega
    have hsecond := h2 hlen
    rw [h.text_second hb hlen hh, hok] at hsecond
    rw [hok]
    unfold Net.textAt
    rw [if_neg (by omega), hsecond]
    rfl

/-- A request may have changed the state. -/
theorem State.refresh (h : C.State s.Ok w) : C.State (Net.Ok ⟨w, s.uploads⟩) w :=
  { h with
    cipherTexts := fun _ hb _ _ he =>
      h.stored hb he (fun _ h => h) (fun _ => rfl) fun _ => rfl }

def Inv (C : Chain) (s : Net) : Prop := C.State s.Ok s.world

/-- While a request is served the texts are those before it. -/
theorem State.serving (h : C.State s.Ok w) (hw : w.brokers = s.world.brokers) :
    C.Serving s.Ok w.pub w.priv w where
  toState := h
  pub _ := rfl
  priv _ := rfl
  fresh p q up P hb := by
    cases up with
    | nil =>
      by_cases hh : w.Holds [p, q] P
      · exact .inl hh
      · refine .inr fun text hok => ⟨?_, hok.2⟩
        have hnone : s.world.text [p, q] P = none := by
          refine text_eq_none fun h => hh ?_
          unfold World.Holds
          rwa [hw]
        calc s.textAt [p, q] P = (s.world.text [p, q] P).or (s.latest P) := if_neg (by simp)
          _ = s.latest P := by rw [hnone]; rfl
          _ = s.textAt [q] P := (if_pos rfl).symm
          _ = some text := hok.1
    | cons r up =>
      refine .inr fun text hok => ⟨?_, hok.2⟩
      calc s.textAt (p :: q :: r :: up) P = s.textAt (q :: r :: up) P := by
            unfold Net.textAt
            rw [if_neg (by simp), if_neg (by simp), second_cons]
        _ = some text := hok.1

/-! ## The steps -/

/-- What a step does. -/
structure Stepped (C : Chain) (s s' : Net) : Prop where
  inv : C.Inv s'
  holds : ∀ b P, s.world.Holds b P → s'.world.Holds b P
  text : ∀ b P, C.IsBroker b → 2 ≤ b.length → s'.world.Holds b P →
    s'.world.text b P = s.textAt b P

/-- The uploads are the same. -/
theorem Stepped.of_state (h : C.State s.Ok w) (hh : ∀ b P, s.world.Holds b P → w.Holds b P) :
    C.Stepped s ⟨w, s.uploads⟩ where
  inv := h.refresh
  holds := hh
  text _ _ hb _ hh := h.text hb hh

theorem stepped_request (h : C.Inv s) {c P : Text} (hb : C.IsBroker (p :: up)) (hc : Word c)
    (hP : Word P) : C.Stepped s (s.step C.cfg (.request (p :: up) c P)) ∧ ∀ reply,
      ((consumerRun C.cfg (p :: up) c P).exec s.world).1 = some reply →
      ∀ e, reply.ciphertext = .ciphertext e →
        C.Answer s.Ok s.world.pub (p :: up) (consumerRequest c P) e := by
  have hm : (C.policy s.Ok s.world.pub s.world.priv).Consumes p up (consumerRequest c P) :=
    ⟨hb, word_channel hP hc, hc, rfl⟩
  have hsafe : (consumerRun C.cfg (p :: up) c P).Safe (C.rely s.Ok s.world.pub s.world.priv) True
      (fun _ reply => ∀ e, reply.ciphertext = .ciphertext e →
        (C.policy s.Ok s.world.pub s.world.priv).sent (p :: up) (consumerRequest c P) e) s.world :=
    Policy.safe_CipherTextToConsumer (.inl trivial) hm fun _ => trivial
  obtain ⟨hinv, hrel, hreply⟩ := hsafe.exec (h.serving rfl)
  refine ⟨Stepped.of_state (Serving.toState hinv) hrel, fun reply hsome e he => ?_⟩
  rw [hsome] at hreply
  exact hreply e he rfl

theorem stepped_register (h : C.Inv s) (k : ℕ) (c : Text) (key : Key) :
    C.Stepped s (s.step C.cfg (.register k c key)) := by
  have hexec : ((consumerKey C.cfg k c key).exec s.world).2 = s.world.setPublicKey k (consumer, c) key ∨
      ((consumerKey C.cfg k c key).exec s.world).2 = s.world := by
    unfold consumerKey
    rw [exec_PublicKeyFromClient rfl]
    split
    · exact .inl rfl
    · exact .inr rfl
  unfold Net.step
  simp only
  rcases hexec with hexec | hexec
  · rw [hexec]
    refine Stepped.of_state (State.updateKs h ?_) fun _ _ h => h
    exact h.toRegistered.setPublicKey k consumer_ne_broker c key
  · rw [hexec]
    exact Stepped.of_state h fun _ _ h => h

/-- The first broker re-encrypts the text of an upload. -/
theorem safe_upload {Ok : Broker → Text → Text → Prop} {pub priv : ℕ → Text × Text → Option Key}
    (hb : C.IsBroker [p]) {key : Key} {text : Text}
    (hkey : priv p.key_server (producer, P) = some key) :
    (BrokerServer.reEncryptUpload C.cfg p
      { client_name := P, ctext := .ciphertext (some ⟨key, some text, 0⟩) }).Safe
        (C.rely Ok pub priv) True (fun _ c => c = ⟨C.key p.process_name, some text, 1⟩) w := by
  have hsafe := (C.policy Ok pub priv).safe_reEncryptUpload (s := w) (p := p)
    (m := { client_name := P, ctext := .ciphertext (some ⟨key, some text, 0⟩) })
    (A := fun _ => True) (B := C.ReKey priv p P []) (fun _ => safe_PublicKeyToBroker)
    (fun _ => safe_reKey hb) (fun _ => trivial) (fun _ _ _ => trivial) (fun _ _ _ => trivial)
    (fun ct rk hct hrk => ?_) fun _ => trivial
  · refine hsafe.mono (fun _ c _ hc => ?_) id
    obtain ⟨ct, r, hct, hr, rfl⟩ := hc
    obtain rfl := Option.some.inj hct
    obtain ⟨key', hkey', hr⟩ := hr _ rfl
    obtain rfl := Option.some.inj (hkey.symm.trans hkey')
    obtain rfl := Option.some.inj hr
    unfold Ciphertext.reEncrypt
    rw [if_pos rfl]
  · obtain rfl := Option.some.inj hct
    obtain ⟨key', hkey', rfl⟩ := hrk _ rfl
    obtain rfl := Option.some.inj (hkey.symm.trans hkey')
    exact ⟨_, _, rfl, rfl, rfl⟩

theorem text_setCipherText_ne {b' : Broker} {P' : Text} {e : Option Ciphertext} (h : b' ≠ b) :
    (w.setCipherText b P e).text b' P' = w.text b' P' := by
  unfold World.text
  rw [World.cipherTexts_setCipherText_ne (.inl h)]

/-- The first broker has the text of a completed upload. -/
theorem stepped_setCipherText (h : C.State s.Ok w) (hb : C.IsBroker [p]) {text : Text}
    (hh : ∀ b P, s.world.Holds b P → w.Holds b P) :
    C.Stepped s ⟨w.setCipherText [p] P (some ⟨C.key p.process_name, some text, 1⟩),
      (P, text) :: s.uploads⟩ where
  inv := by
    have hfirst : ∀ b, 2 ≤ b.length → second b ≠ [p] := by
      intro b h2 hsecond
      have hlen := length_second h2
      rw [hsecond] at hlen
      cases hlen
    refine State.setCipherText h ⟨_, rfl, rfl, rfl, text, rfl, ?_, List.mem_cons_self⟩
      (fun _ _ _ h => by cases h) fun b' P' e' hb' hne he' => ?_
    · exact (if_pos rfl).trans List.lookup_cons_self
    · refine h.stored hb' he' (fun _ => List.mem_cons_of_mem _) (fun hlen => ?_)
        fun h2 => text_setCipherText_ne (hfirst b' h2)
      have hP : P' ≠ P := hne.elim (fun h => absurd (hb'.eq_first hb hlen) h) id
      unfold Net.latest
      rw [List.lookup_cons, beq_false_of_ne hP]
  holds b P hs := World.holds_setCipherText.mpr (.inr (hh b P hs))
  text b P' hb' h2 hs := by
    have hne : b ≠ [p] := by
      rintro rfl
      exact absurd h2 (by simp)
    rw [text_setCipherText_ne hne]
    exact h.text hb' ((World.holds_setCipherText.mp hs).resolve_left fun h => hne h.1)

theorem priv_producerKeys {k : ℕ} {key : Key} :
    ((w.setPrivateKey k (producer, P) key).setPublicKey k (producer, P) key).priv k (producer, P) =
      some key := by
  simp [World.priv, World.setPublicKey, World.setPrivateKey]

/-- The keys of the producer are registered. -/
theorem State.setProducerKeys (h : C.State s.Ok w) (k : ℕ) (key : Key) : C.State s.Ok
    ((w.setPrivateKey k (producer, P) key).setPublicKey k (producer, P) key) := by
  have hregistered := h.toRegistered.setPrivateKey k producer_ne_broker P key
  exact (State.updateKs h hregistered).updateKs
    (hregistered.setPublicKey k producer_ne_broker P key)

/-- The first broker gets an upload, after the keys have been registered. -/
theorem stepped_received (h : C.State s.Ok w) (hbrokers : w.brokers = s.world.brokers)
    (hb : C.IsBroker [p]) {key : Key} (hpriv : w.priv p.key_server (producer, P) = some key)
    (text : Text) : C.Stepped s (s.uploaded P text
      ((BrokerServer.Proceed C.cfg [p] .CipherTextFromProducer
        { client_name := P, ctext := .ciphertext (some ⟨key, some text, 0⟩) }).exec w)) := by
  have hholds : ∀ b P, s.world.Holds b P → w.Holds b P := by
    intro b P hs
    unfold World.Holds
    rwa [hbrokers]
  rw [exec_CipherTextFromProducer]
  split
  swap
  · exact Stepped.of_state h hholds
  -- The first broker is up.
  obtain ⟨hinv, hrel, hreply⟩ := (safe_upload hb hpriv).exec (h.serving hbrokers)
  have hh : ∀ b P, s.world.Holds b P → World.Holds _ b P := fun b P hs => hrel b P (hholds b P hs)
  cases hre : (BrokerServer.reEncryptUpload C.cfg p
      { client_name := P, ctext := .ciphertext (some ⟨key, some text, 0⟩) }).exec w with
  | mk o t =>
    rw [hre] at hinv hh hreply
    cases o with
    | none =>
      exact Stepped.of_state (State.brokerDown (Serving.toState hinv) [p])
        fun b P hs => World.holds_brokerDown.mpr (hh b P hs)
    | some ct =>
      obtain rfl : ct = _ := hreply
      exact stepped_setCipherText (Serving.toState hinv) hb hh

theorem stepped_upload (h : C.Inv s) (hb : C.IsBroker [p]) (key : Key) (text : Text) :
    C.Stepped s (s.step C.cfg (.upload p P key text)) := by
  change C.Stepped s (s.uploaded P text ((producerRun C.cfg p P key text).exec s.world))
  by_cases hks : (s.world.keyServers p.key_server).up = true
  · have hrun : (producerRun C.cfg p P key text).exec s.world =
        (BrokerServer.Proceed C.cfg [p] .CipherTextFromProducer
          { client_name := P, ctext := .ciphertext (some ⟨key, some text, 0⟩) }).exec
            ((s.world.setPrivateKey p.key_server (producer, P) key).setPublicKey p.key_server
              (producer, P) key) := by
      simp only [producerRun, Handler.bind_eq, Handler.exec_bind, exec_producerKeys, if_pos hks]
    rw [hrun]
    exact stepped_received (State.setProducerKeys h p.key_server key) rfl hb priv_producerKeys text
  · have hrun : (producerRun C.cfg p P key text).exec s.world = (none, s.world) := by
      simp only [producerRun, Handler.bind_eq, Handler.exec_bind, exec_producerKeys, if_neg hks]
    rw [hrun]
    exact Stepped.of_state h fun _ _ hs => hs

/-! ## The runs -/

/-- The brokers have started: they are registered, and have neither ciphertexts nor routes. -/
structure Started (C : Chain) (s : Net) : Prop where
  registered : C.Registered s.world
  cipherTexts : ∀ b, C.IsBroker b → ∀ P, (s.world.brokers b).brokerCipherTexts P = none
  routingTable : ∀ b, C.IsBroker b → (s.world.brokers b).routingTable = []
  log : s.world.log = []
  uploads : s.uploads = []

/-- The uploads go to the first broker; the requests name a channel that a routing table can hold. -/
def Allowed (C : Chain) (_ : Net) : Step → Prop
  | .upload p _ _ _ => C.IsBroker [p]
  | .register _ _ _ => True
  | .request b c p => C.IsBroker b ∧ Word c ∧ Word p

theorem Started.not_holds (h : C.Started s) (hb : C.IsBroker b) : ¬ s.world.Holds b P := by
  rintro ⟨ct, hct⟩
  rw [h.cipherTexts b hb P] at hct
  cases hct

theorem Started.inv (h : C.Started s) : C.Inv s where
  toRegistered := h.registered
  cipherTexts b hb P e he := by
    rw [h.cipherTexts b hb P] at he
    cases he
  routes b hb := ⟨[], h.routingTable b hb, fun r hr => by cases hr⟩
  upstream p q up P hb hh := absurd hh (h.not_holds hb)
  operands ct rk hlog := by
    rw [h.log] at hlog
    cases hlog

theorem stepped (h : C.Inv s) {a : Step} (ha : C.Allowed s a) : C.Stepped s (s.step C.cfg a) := by
  cases a with
  | upload p P key text => exact stepped_upload h ha key text
  | register k c key => exact stepped_register h k c key
  | request b c P =>
    obtain ⟨hb, hc, hP⟩ := ha
    obtain ⟨p, up, rfl⟩ := List.exists_cons_of_ne_nil hb.ne_nil
    exact (stepped_request h hb hc hP).1

variable {s₀ : Net}

/-- **The invariant holds in every run.** -/
theorem inv_reach (h0 : C.Inv s₀) (hr : Reach (Net.step C.cfg) C.Allowed s₀ s) : C.Inv s :=
  hr.invariant h0 fun _ _ h ha => (stepped h ha).inv

/-- The text that the second broker has stays. -/
theorem text_reach (h0 : C.Inv s₀) (hr : Reach (Net.step C.cfg) C.Allowed s₀ s)
    (hb : C.IsBroker b) (h2 : 2 ≤ b.length) (hh : s₀.world.Holds b P) :
    s.world.Holds b P ∧ s.world.text b P = s₀.world.text b P := by
  induction hr with
  | refl => exact ⟨hh, rfl⟩
  | tail hr a ha ih =>
    have hinv := inv_reach h0 hr
    have hstep := stepped hinv ha
    have hh' := hstep.holds b P ih.1
    exact ⟨hh', (hstep.text b P hb h2 hh').trans ((State.text hinv hb ih.1).symm.trans ih.2)⟩

/-! ## Runs of a chain of two brokers -/

def B1 : Params := ⟨"B1".toList, "INDCPA".toList, 0⟩
def B2 : Params := ⟨"B2".toList, "INDCPA".toList, 0⟩

/-- A producer, a consumer, and two texts. -/
def aProducer : Text := "p".toList
def aConsumer : Text := "c".toList
def oldText : Text := "old".toList
def newText : Text := "new".toList

theorem plain_aProducer : Plain aProducer := by decide
theorem plain_aConsumer : Plain aConsumer := by decide

/-- One key server with this access map. -/
def oneServer (authorized : List Text) : Config where
  upstream_key_server _ := none
  authorizedConsumers _ := authorized

def twoBrokers : Chain where
  cfg := oneServer [B1.process_name, B2.process_name, aConsumer]
  brokers := [B2, B1]
  key name := if name = B1.process_name then .server 0 else .server 1
  word := by decide
  named := by decide

/-- The key server has made the key pairs of the brokers. -/
def started : Net where
  world := { ((initial.setKeyPair 0 (broker, B1.process_name)).setKeyPair 0
    (broker, B2.process_name)) with
    brokers := fun _ => { up := true, brokerCipherTexts := fun _ => none, routingTable := [] } }
  uploads := []

theorem keyServers_started {k : ℕ} (hk : k ≠ 0) :
    started.world.keyServers k = initial.keyServers k := by
  simp [started, World.setKeyPair, World.setPrivateKey, World.setPublicKey, World.updateKs, hk]

theorem started_twoBrokers : twoBrokers.Started started where
  registered := by
    have hpub : ∀ p ∈ twoBrokers.brokers, (started.world.keyServers 0).PublicKeys
        (broker, p.process_name) = some (twoBrokers.key p.process_name) := by decide +kernel
    have hrecd : ∀ p ∈ twoBrokers.brokers, (started.world.keyServers 0).RecdPublicKeys
        (broker, p.process_name) = none := by decide +kernel
    refine ⟨by decide +kernel, by decide +kernel, fun p hp k hk => ?_, fun p hp k key hk => ?_,
      fun p hp k key hk => ?_⟩
    · by_cases h : k = 0
      · simp only [twoBrokers, List.mem_cons, List.not_mem_nil, or_false] at hp
        obtain rfl | rfl := hp <;> exact h
      · rw [keyServers_started h] at hk
        exact absurd rfl hk
    · by_cases h : k = 0
      · subst h
        exact Option.some.inj (hk.symm.trans (hpub p hp))
      · rw [keyServers_started h] at hk
        cases hk
    · by_cases h : k = 0
      · subst h
        cases hk.symm.trans (hrecd p hp)
      · rw [keyServers_started h] at hk
        cases hk
  cipherTexts _ _ _ := rfl
  routingTable _ _ := rfl
  log := rfl
  uploads := rfl

theorem isBroker_one : twoBrokers.IsBroker [B1] where
  ne_nil := List.cons_ne_nil _ _
  suffix := ⟨[B2], rfl⟩
  authorized := ⟨fun _ _ => List.mem_cons_self, trivial⟩

theorem isBroker_two : twoBrokers.IsBroker [B2, B1] where
  ne_nil := List.cons_ne_nil _ _
  suffix := ⟨[], rfl⟩
  authorized := ⟨fun _ _ => List.mem_cons_of_mem _ List.mem_cons_self, isBroker_one.authorized⟩

/-- An upload, a request at the second broker, and another upload. -/
def twoUploads : List Step :=
  [.upload B1 aProducer (.client 0) oldText, .register 0 aConsumer (.client 1),
    .request [B2, B1] aConsumer aProducer, .upload B1 aProducer (.client 2) newText]

def after (cfg : Config) (l : List Step) : Net := l.foldl (Net.step cfg) started

theorem reach_twoUploads :
    Reach (Net.step twoBrokers.cfg) twoBrokers.Allowed started (after twoBrokers.cfg twoUploads) := by
  refine Reach.foldl (fun a ha s => ?_) started
  simp only [twoUploads, List.mem_cons, List.not_mem_nil, or_false] at ha
  rcases ha with rfl | rfl | rfl | rfl
  · exact isBroker_one
  · trivial
  · exact ⟨isBroker_two, plain_aConsumer.word, plain_aProducer.word⟩
  · exact isBroker_one

/-- The reply to the consumer. -/
def textReply (text : Text) (hops : ℕ) : MessageReturn where
  textAvailable := true
  producerRegistered := true
  ciphertext := .ciphertext (some ⟨.client 1, some text, hops⟩)

theorem reply_first : ((consumerRun twoBrokers.cfg [B1] aConsumer aProducer).exec
    (after twoBrokers.cfg twoUploads).world).1 = some (textReply newText 2) := by
  decide +kernel

theorem reply_second : ((consumerRun twoBrokers.cfg [B2, B1] aConsumer aProducer).exec
    (after twoBrokers.cfg twoUploads).world).1 = some (textReply oldText 3) := by
  decide +kernel

/-! ## The operands of the re-encryptions -/

/-- **The operands of every re-encryption fit** if the brokers that are used, and those upstream of
them, are in the access maps. -/
theorem operands_fit (h0 : C.Started s₀) (hr : Reach (Net.step C.cfg) C.Allowed s₀ s)
    {ct : Option Ciphertext} {rk : Option EvalKey} (hre : .reEncrypt ct rk ∈ s.world.log) :
    ∃ c r, ct = some c ∧ rk = some r ∧ c.key = r.src :=
  (inv_reach h0.inv hr).operands ct rk hre

theorem operands_fit_second : ∃ c r,
    (some ⟨.server 0, some oldText, 1⟩ : Option Ciphertext) = some c ∧
      (some ⟨.server 0, .server 1⟩ : Option EvalKey) = some r ∧ c.key = r.src :=
  operands_fit started_twoBrokers reach_twoUploads (by decide +kernel)

/-- Without the first broker in the access map the upload is re-encrypted with a null pointer. Without
the second one it stores the ciphertext under the key of the first one, and takes its own key for the
consumer. -/
theorem unfit_operands :
    (¬ ∀ ct rk, .reEncrypt ct rk ∈ (after (oneServer [B2.process_name, aConsumer])
        [.upload B1 aProducer (.client 0) oldText]).world.log →
      ∃ c r, ct = some c ∧ rk = some r ∧ c.key = r.src) ∧
    ¬ ∀ ct rk, .reEncrypt ct rk ∈ (after (oneServer [B1.process_name, aConsumer])
        [.upload B1 aProducer (.client 0) oldText, .register 0 aConsumer (.client 1),
          .request [B2, B1] aConsumer aProducer]).world.log →
      ∃ c r, ct = some c ∧ rk = some r ∧ c.key = r.src := by
  constructor
  · intro h
    obtain ⟨_, _, _, hr, _⟩ := h (some ⟨.client 0, some oldText, 0⟩) none (by decide +kernel)
    cases hr
  · intro h
    obtain ⟨_, _, hc, hr, hkey⟩ := h (some ⟨.server 0, some oldText, 1⟩)
      (some ⟨.server 1, .client 1⟩) (by decide +kernel)
    cases hc
    cases hr
    cases hkey

/-! ## The caches -/

/-- **Every ciphertext that a broker stores or returns**: under which key it is, how often it has been
re-encrypted, and that its text has been uploaded. -/
theorem key_and_hops (h0 : C.Started s₀) (hr : Reach (Net.step C.cfg) C.Allowed s₀ s)
    (hb : C.IsBroker (p :: up)) :
    (∀ P e, (s.world.brokers (p :: up)).brokerCipherTexts P = some e → ∃ ct, e = some ct ∧
      s.world.pub p.key_server (broker, p.process_name) = some ct.key ∧
      ct.hops = (p :: up).length ∧ ∃ text, ct.plaintext = some text ∧ (P, text) ∈ s.uploads) ∧
    ∀ P c, Plain P → Plain c → c ∈ C.cfg.authorizedConsumers p.key_server → ∀ reply,
      ((consumerRun C.cfg (p :: up) c P).exec s.world).1 = some reply →
      ∀ e, reply.ciphertext = .ciphertext e → ∃ ct, e = some ct ∧
        s.world.pub p.key_server (consumer, c) = some ct.key ∧
        ct.hops = (p :: up).length + 1 ∧
        ∃ text, ct.plaintext = some text ∧ (P, text) ∈ s.uploads := by
  have hinv := inv_reach h0.inv hr
  refine ⟨fun P e he => ?_, fun P c hP hc hauth reply hreply e he => ?_⟩
  · obtain ⟨ct, rfl, hkey, hhops, text, htext, -, hmem⟩ := hinv.cipherTexts _ hb P e he
    refine ⟨ct, rfl, ?_, hhops, text, htext, hmem⟩
    rw [hkey]
    exact hinv.PublicKey p hb.mem
  · obtain ⟨ct, rfl, ⟨text, htext, -, hmem⟩, hanswer⟩ :=
      (stepped_request hinv hb hc.word hP.word).2 reply hreply e he
    change (BrokerServer.producerName (channel P c), text) ∈ _ at hmem
    rw [producerName_channel hP hc] at hmem
    obtain ⟨hkey, hhops⟩ := hanswer hauth
    exact ⟨ct, rfl, hkey, hhops, text, htext, hmem⟩

theorem key_and_hops_second : ∃ ct : Ciphertext,
    (after twoBrokers.cfg twoUploads).world.pub 0 (consumer, aConsumer) = some ct.key ∧
      ct.hops = 3 := by
  obtain ⟨ct, -, hkey, hhops, -⟩ := (key_and_hops started_twoBrokers reach_twoUploads
    isBroker_two).2 aProducer aConsumer plain_aProducer plain_aConsumer (by decide +kernel) _
      reply_second _ rfl
  exact ⟨ct, hkey, hhops⟩

/-! ## Which text a consumer gets -/

/-- The text of a reply is the latest one at the first broker, and at the others the one that the
second broker has, if it has one. -/
theorem text_of_reply (h : C.Inv s) (hb : C.IsBroker (p :: up)) {c : Text} (hP : Plain P)
    (hc : Plain c) {reply : MessageReturn} {e : Option Ciphertext}
    (hreply : ((consumerRun C.cfg (p :: up) c P).exec s.world).1 = some reply)
    (he : reply.ciphertext = .ciphertext e) :
    ∃ ct, e = some ct ∧ ct.plaintext = s.textAt (p :: up) P ∧
      (c ∈ C.cfg.authorizedConsumers p.key_server →
        s.world.pub p.key_server (consumer, c) = some ct.key) := by
  obtain ⟨ct, rfl, ⟨text, htext, hok, -⟩, hanswer⟩ :=
    (stepped_request h hb hc.word hP.word).2 reply hreply e he
  change s.textAt _ (BrokerServer.producerName (channel P c)) = _ at hok
  rw [producerName_channel hP hc] at hok
  exact ⟨ct, rfl, htext.trans hok.symm, fun hauth => (hanswer hauth).1⟩

/-- A text that the second broker has got it when it was the latest. -/
theorem text_stored (h0 : C.Started s₀) (hr : Reach (Net.step C.cfg) C.Allowed s₀ s)
    (hb : C.IsBroker b) (h2 : b.length = 2) (hh : s.world.Holds b P) :
    ∃ s₁ a, Reach (Net.step C.cfg) C.Allowed s₀ s₁ ∧ C.Allowed s₁ a ∧ ¬ s₁.world.Holds b P ∧
      (s₁.step C.cfg a).world.Holds b P ∧
      Reach (Net.step C.cfg) C.Allowed (s₁.step C.cfg a) s ∧ s.world.text b P = s₁.latest P := by
  obtain ⟨s₁, a, hr₁, ha, hnot, hstored, hr₂⟩ :=
    hr.crossing (Q := fun s => s.world.Holds b P) (h0.not_holds hb) hh
  have hstep := stepped (inv_reach h0.inv hr₁) ha
  refine ⟨s₁, a, hr₁, ha, hnot, hstored, hr₂, ?_⟩
  calc s.world.text b P = (s₁.step C.cfg a).world.text b P :=
        (text_reach hstep.inv hr₂ hb (Nat.le_of_eq h2.symm) hstored).2
    _ = s₁.textAt b P := hstep.text b P hb (Nat.le_of_eq h2.symm) hstored
    _ = (s₁.world.text b P).or (s₁.latest P) := by
        unfold Net.textAt Chain.second
        rw [if_neg (by omega), h2]
        rfl
    _ = s₁.latest P := by rw [text_eq_none hnot]; rfl

/-- **Which text a consumer gets.** From the first broker the latest one. From the others the one that
was the latest when the second broker stored it, by the step `a`; if it has none, the latest one. -/
theorem which_text (h0 : C.Started s₀) (hr : Reach (Net.step C.cfg) C.Allowed s₀ s)
    (hb : C.IsBroker (p :: up)) {c : Text} (hP : Plain P) (hc : Plain c) {reply : MessageReturn}
    {e : Option Ciphertext}
    (hreply : ((consumerRun C.cfg (p :: up) c P).exec s.world).1 = some reply)
    (he : reply.ciphertext = .ciphertext e) :
    ∃ ct, e = some ct ∧
      (c ∈ C.cfg.authorizedConsumers p.key_server →
        s.world.pub p.key_server (consumer, c) = some ct.key) ∧
      (up = [] → ct.plaintext = s.latest P) ∧
      (up ≠ [] → ¬ s.world.Holds (second (p :: up)) P → ct.plaintext = s.latest P) ∧
      (up ≠ [] → s.world.Holds (second (p :: up)) P →
        ∃ s₁ a, Reach (Net.step C.cfg) C.Allowed s₀ s₁ ∧ C.Allowed s₁ a ∧
          ¬ s₁.world.Holds (second (p :: up)) P ∧
          (s₁.step C.cfg a).world.Holds (second (p :: up)) P ∧
          Reach (Net.step C.cfg) C.Allowed (s₁.step C.cfg a) s ∧ ct.plaintext = s₁.latest P) := by
  have hinv := inv_reach h0.inv hr
  obtain ⟨ct, rfl, htext, hkey⟩ := text_of_reply hinv hb hP hc hreply he
  have hlen : up ≠ [] → 2 ≤ (p :: up).length := fun hup => by
    have := List.length_pos_of_ne_nil hup
    simp only [List.length_cons]
    omega
  have htextAt : up ≠ [] →
      ct.plaintext = (s.world.text (second (p :: up)) P).or (s.latest P) := by
    intro hup
    have := hlen hup
    exact htext.trans (if_neg (by omega))
  refine ⟨ct, rfl, hkey, ?_, fun hup hnot => ?_, fun hup hh => ?_⟩
  · rintro rfl
    exact htext.trans (if_pos rfl)
  · rw [htextAt hup, text_eq_none hnot]
    rfl
  · have hsecond := (hb.second (hlen hup) (Q := fun _ => True) trivial fun _ _ _ _ _ => trivial).1
    obtain ⟨s₁, a, hr₁, ha, hnot, hstored, hr₂, hstored_text⟩ :=
      text_stored h0 hr hsecond (length_second (hlen hup)) hh
    obtain ⟨text, hsome, -⟩ := (hinv.cipherTexts _ hsecond P _ hh.choose_spec).text hh.choose_spec
    refine ⟨s₁, a, hr₁, ha, hnot, hstored, hr₂, ?_⟩
    rw [htextAt hup, ← hstored_text, hsome]
    rfl

/-- After two uploads: the first broker has the second text, and the second broker the text that was
the latest when it stored its copy. -/
theorem which_text_twoUploads :
    (after twoBrokers.cfg twoUploads).latest aProducer = some newText ∧
    ∃ s₁ a, Reach (Net.step twoBrokers.cfg) twoBrokers.Allowed started s₁ ∧
      ¬ s₁.world.Holds [B2, B1] aProducer ∧
      (s₁.step twoBrokers.cfg a).world.Holds [B2, B1] aProducer ∧
      s₁.latest aProducer = some oldText := by
  constructor
  · obtain ⟨ct, hct, -, htext, -⟩ := which_text started_twoBrokers reach_twoUploads isBroker_one
      plain_aProducer plain_aConsumer reply_first rfl
    cases hct
    exact (htext rfl).symm
  · obtain ⟨ct, hct, -, -, -, htext⟩ := which_text started_twoBrokers reach_twoUploads isBroker_two
      plain_aProducer plain_aConsumer reply_second rfl
    cases hct
    obtain ⟨s₁, a, hr, -, hnot, hholds, -, htext⟩ :=
      htext (List.cons_ne_nil _ _) ⟨⟨.server 1, some oldText, 2⟩, by decide +kernel⟩
    exact ⟨s₁, a, hr, hnot, hholds, htext.symm⟩

/-- The second broker does not see the second upload. And a name with `-` is cut: the consumer gets the
text of another producer. -/
theorem stale_text :
    (((consumerRun twoBrokers.cfg [B2, B1] aConsumer aProducer).exec
        (after twoBrokers.cfg twoUploads).world).1 = some (textReply oldText 3) ∧
      (after twoBrokers.cfg twoUploads).latest aProducer = some newText) ∧
    let s := after twoBrokers.cfg [.upload B1 aProducer (.client 0) oldText,
      .upload B1 (channel aProducer aConsumer) (.client 2) newText,
      .register 0 aConsumer (.client 1)]
    ((consumerRun twoBrokers.cfg [B1] aConsumer (channel aProducer aConsumer)).exec s.world).1 =
        some (textReply oldText 2) ∧
      s.latest (channel aProducer aConsumer) = some newText :=
  ⟨⟨reply_second, by decide +kernel⟩, by decide +kernel, by decide +kernel⟩

end Chain

end Pre

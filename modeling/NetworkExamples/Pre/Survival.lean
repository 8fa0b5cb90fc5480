import NetworkExamples.Pre.ChainRun
import NetworkExamples.Pre.ServedPolicy

/-!
# The servers survive

A request that is served in the state that it finds (`Served`) throws no exception, if nothing comes in
between. If others come in between it has to be served in all states that they may bring about
(`Lasting`): keys and ciphertexts are added to those of the state that it finds (`Grows`).

* `answered`: a served request is answered, and leaves what belongs to other names as it was.
* `good_sideBySide`: while lasting requests are handled side by side, no handler throws.
* `survive`: both, from every state that a run of served requests reaches.
-/

namespace Pre.Survival

open Rpc BrokerServer Schedule

/-- **The requests that the servers survive** in the state `w`. -/
def Served (cfg : Config) (w : World) : Call → Prop := ServedIn cfg (· = w)

/-! ## A call alone -/

/-- The state `t` while a call that began in the state `w` is served alone. -/
structure Since (N : Text → Prop) (w t : World) : Prop where
  alive : Alive t
  unchanged : Unchanged N w t
  pub : ∀ k, (t.keyServers k).PublicKeys = (w.keyServers k).PublicKeys
  priv : ∀ k, (t.keyServers k).PrivateKeys = (w.keyServers k).PrivateKeys
  isUp : ∀ b, (t.brokers b).up = (w.brokers b).up
  holds : ∀ b P, w.Holds b P → t.Holds b P
  has : ∀ p up P, t.Holds (p :: up) P → Has w (p :: up) P

/-- No ciphertext and no key goes. -/
def rely (N : Text → Prop) (w : World) : Rely World where
  inv := Since N w
  rel s t := (∀ b P, s.Holds b P → t.Holds b P) ∧ ∀ k owner,
    (s.keyServers k).RecdPublicKeys owner ≠ none → (t.keyServers k).RecdPublicKeys owner ≠ none
  refl _ := ⟨fun _ _ h => h, fun _ _ h => h⟩
  trans _ _ _ h h' :=
    ⟨fun b P hh => h'.1 b P (h.1 b P hh), fun k owner hk => h'.2 k owner (h.2 k owner hk)⟩

variable {N : Text → Prop} {w t : World} {b : Broker} {P : Text}

namespace Since

theorem refl (h : Alive w) : Since N w w where
  alive := h
  unchanged := .refl
  pub _ := rfl
  priv _ := rfl
  isUp _ := rfl
  holds _ _ h := h
  has _ _ _ h := .inl h

theorem record (h : Since N w t) (e : Event) :
    (rely N w).inv (t.record e) ∧ (rely N w).rel t (t.record e) :=
  ⟨⟨h.alive.record e, h.unchanged.trans .record, h.pub, h.priv, h.isUp, h.holds, h.has⟩,
    (rely N w).refl t⟩

theorem setCipherText {p : Params} {up : Broker} (h : Since N w t) (hP : N P)
    (hhas : Has w (p :: up) P) {ct : Ciphertext} :
    (rely N w).inv (t.setCipherText (p :: up) P (some ct)) ∧
      (rely N w).rel t (t.setCipherText (p :: up) P (some ct)) := by
  have hholds : ∀ b' P', t.Holds b' P' → (t.setCipherText (p :: up) P (some ct)).Holds b' P' :=
    fun b' P' hh => World.holds_setCipherText.mpr (.inr hh)
  refine ⟨⟨h.alive.setCipherText, h.unchanged.setCipherText hP, h.pub, h.priv,
    fun b' => World.up_setCipherText.trans (h.isUp b'), fun b' P' hh => hholds b' P' (h.holds b' P' hh),
    fun p' up' P' hh => ?_⟩, hholds, fun _ _ hk => hk⟩
  rcases World.holds_setCipherText.mp hh with ⟨hb, rfl⟩ | hh
  · rw [hb]
    exact hhas
  · exact h.has p' up' P' hh

theorem setRoutingTable (h : Since N w t) {ch up down : Text} {flag : Bool}
    (hch : N (producerName ch)) (hr : Route.Ok ⟨ch, up, down, source_sink flag⟩)
    (hh : t.Holds b (producerName ch)) :
    let t' := t.setRoutingTable b fun routingTable => UpdateRoutingTable routingTable ch up down flag
    (rely N w).inv t' ∧ (rely N w).rel t t' := by
  have hholds : ∀ b' P', World.Holds (t.setRoutingTable b fun routingTable =>
      UpdateRoutingTable routingTable ch up down flag) b' P' ↔ t.Holds b' P' :=
    fun b' P' => World.holds_setRoutingTable
  exact ⟨⟨h.alive.setRoutingTable hr hh, h.unchanged.setRoutingTable hch, h.pub, h.priv,
    fun b' => World.up_setRoutingTable.trans (h.isUp b'),
    fun b' P' hh => (hholds b' P').mpr (h.holds b' P' hh),
    fun p' up' P' hh => h.has p' up' P' ((hholds _ P').mp hh)⟩,
    fun b' P' hh => (hholds b' P').mpr hh, fun _ _ hk => hk⟩

/-- The public key of a receiver goes to the upstream key server. -/
theorem setRecdPublicKey (h : Since N w t) (u : ℕ) {type name : Text} (hname : N name) (key : Key) :
    (rely N w).inv (t.setRecdPublicKey u (type, name) key) ∧
      (rely N w).rel t (t.setRecdPublicKey u (type, name) key) := by
  have hpub : ∀ k, ((t.setRecdPublicKey u (type, name) key).keyServers k).PublicKeys =
      (t.keyServers k).PublicKeys := Chain.publicKeys_setRecdPublicKey
  have hpriv : ∀ k, ((t.setRecdPublicKey u (type, name) key).keyServers k).PrivateKeys =
      (t.keyServers k).PrivateKeys := Chain.privateKeys_setRecdPublicKey
  have hgrows : Grows t (t.setRecdPublicKey u (type, name) key) := .setRecdPublicKey
  exact ⟨⟨h.alive.setRecdPublicKey u _ key, h.unchanged.trans (.setRecdPublicKey hname),
    fun k => (hpub k).trans (h.pub k), fun k => (hpriv k).trans (h.priv k), h.isUp, h.holds, h.has⟩,
    hgrows.holds, hgrows.RecdPublicKeys⟩

/-- For the requests nothing has changed. -/
theorem like (h : Since N w t) : Like w t where
  pub := h.pub
  priv := h.priv
  isUp := h.isUp
  holds := h.holds
  has b P hhas := by
    induction b with
    | nil => exact hhas
    | cons p up ih =>
      rcases hhas with hh | hhas
      · exact h.has p up P hh
      · exact .inr (ih hhas)

end Since

theorem keeps_rely : Keeps N (rely N w) where
  alive _ ht := Since.alive ht
  holds _ _ b P h := h.1 b P
  recd _ _ k owner h := h.2 k owner
  setCipherText t p up P ct ht hP hhas := by
    obtain ⟨u, hu, hhas⟩ := hhas
    exact Since.setCipherText ht hP ((Since.like hu).has _ P hhas)
  setRoutingTable t b ch up down flag ht hch hr hh := Since.setRoutingTable ht hch hr hh
  setRecdPublicKey t u type name key ht hname := Since.setRecdPublicKey ht u hname key
  record _ e ht := Since.record ht e

/-- What is served in `w` is served in all states since. -/
theorem like_rely : ∀ t, (rely N w).inv t → ∃ u, u = w ∧ Like u t := fun _ ht => ⟨w, rfl, Since.like ht⟩

/-- **The call is answered**, what belongs to other names is as it was, and no server has gone. -/
structure Answered (N : Text → Prop) (w : World) (r : Option MessageReturn × World) : Prop where
  reply : ∃ reply, r.1 = some reply
  alive : Alive r.2
  unchanged : Unchanged N w r.2
  isUp : ∀ b, (r.2.brokers b).up = (w.brokers b).up

variable {cfg : Config} {m : MessageRequest}

theorem Answered.of_safe {α : Type} {h : Handler World α} {Q : World → α → Prop} (hw : Alive w)
    (hs : h.Safe (rely N w) False Q w) :
    ∃ a t, h.exec w = (some a, t) ∧ Since N w t ∧ Q t a := by
  obtain ⟨hinv, -, hQ⟩ := hs.exec (Since.refl hw)
  cases hexec : h.exec w with
  | mk o t =>
    rw [hexec] at hinv hQ
    cases o with
    | none => exact hQ.elim
    | some a => exact ⟨a, t, rfl, hinv, hQ⟩

theorem answered_of_safe {h : Handler World MessageReturn} {Q : World → MessageReturn → Prop}
    (hw : Alive w) (hs : h.Safe (rely N w) False Q w) : Answered N w (h.exec w) := by
  obtain ⟨reply, t, hexec, ht, -⟩ := Answered.of_safe hw hs
  rw [hexec]
  exact ⟨⟨reply, rfl⟩, ht.alive, ht.unchanged, ht.isUp⟩

/-- **The calls of a key server.** -/
theorem answered_keyServer {k : ℕ} {rpc : KeyServer.Rpc} (hw : Alive w)
    (hc : KsServed cfg (· = w) k m rpc) :
    Answered (fun n => n = m.client_name) w ((KeyServer.Proceed cfg k rpc m).exec w) := by
  have hk := hw.keyServers k
  cases rpc with
  | CryptoContextFromServer | CryptoContextRequestFromServer_Server =>
    rw [show (KeyServer.Proceed cfg k _ m).exec w = (some { cryptocontext := .cryptoContext }, w) from
      exec_serveKs.trans (if_pos hk)]
    exact ⟨⟨_, rfl⟩, hw, .refl, fun _ => rfl⟩
  | CryptoContextRequestFromServer_Broker =>
    rw [exec_CryptoContextRequestFromServer_Broker, if_pos hk]
    exact ⟨⟨_, rfl⟩, hw.setKeyPair k _, .setKeyPair rfl, fun _ => rfl⟩
  | PrivateKeyFromProducer =>
    obtain ⟨key, hkey⟩ := Option.ne_none_iff_exists'.mp hc
    rw [exec_PrivateKeyFromProducer hkey, if_pos hk]
    exact ⟨⟨_, rfl⟩, hw.setPrivateKey k _ key, .setPrivateKey rfl, fun _ => rfl⟩
  | PublicKeyFromClient =>
    obtain ⟨key, hkey⟩ := Option.ne_none_iff_exists'.mp hc
    rw [exec_PublicKeyFromClient hkey, if_pos hk]
    exact ⟨⟨_, rfl⟩, hw.setPublicKey k _ key, .setPublicKey rfl, fun _ => rfl⟩
  | PublicKeyfromServer =>
    obtain ⟨key, hkey⟩ := Option.ne_none_iff_exists'.mp hc
    rw [exec_PublicKeyfromServer hkey, if_pos hk]
    exact ⟨⟨_, rfl⟩, hw.setRecdPublicKey k _ key, .setRecdPublicKey rfl, fun _ => rfl⟩
  | PublicKeyToBroker | ReEncryptionKeyToBroker | PublicKeyToServer | ReEncryptionKeyToServer =>
    exact answered_of_safe hw (KeyServer.safe_Proceed (keeps_rely.quiet rfl)
      ⟨nofun, nofun, nofun, nofun⟩ fun t ht => (hc.like like_rely).not_fails ht)

section

variable {p : Params} {up : Broker}

theorem answered_text (hw : Alive w) (hnames : Names N (p :: up) m.channel_name)
    (hname : N m.client_name) (hc : TextServed cfg (· = w) (p :: up) m) :
    Answered N w ((ReEncryptedCipherTextToBroker cfg (p :: up) m).exec w) :=
  answered_of_safe hw (safe_text keeps_rely hnames hname (hc.like like_rely))

theorem answered_consumer (hw : Alive w) (hnames : Names N (p :: up) m.channel_name)
    (hname : N m.client_name) (hc : ConsumerServed cfg (· = w) p up m) :
    Answered N w ((BrokerServer.Proceed cfg (p :: up) .CipherTextToConsumer m).exec w) :=
  answered_of_safe hw (safe_consumer keeps_rely hnames hname (hc.like like_rely))

theorem answered_upload (hw : Alive w) (hnames : ∀ q ∈ p :: up, N q.process_name)
    (hname : N m.client_name) (hc : UploadServed cfg (· = w) p up m) :
    Answered N w ((BrokerServer.Proceed cfg (p :: up) .CipherTextFromProducer m).exec w) := by
  obtain ⟨ct, t, hexec, ht, -⟩ :=
    Answered.of_safe hw (safe_upload keeps_rely hnames hname (hc.like like_rely))
  rw [exec_CipherTextFromProducer, if_pos (hc.isUp w rfl), hexec]
  exact ⟨⟨_, rfl⟩, ht.alive.setCipherText, ht.unchanged.setCipherText hname,
    fun b => World.up_setCipherText.trans (ht.isUp b)⟩

end

/-- **Every served request is answered.** -/
theorem answered (hw : Alive w) {c : Call} (hc : Served cfg w c) (hrpc : ∀ b, c ≠ .start b) :
    Answered (names c) w ((handler cfg c).exec w) := by
  cases c with
  | keyServer k rpc m => exact answered_keyServer hw hc
  | start b => exact absurd rfl (hrpc b)
  | broker b rpc m =>
    cases b with
    | nil => cases hc
    | cons p up =>
      have hnames : ∀ p' ∈ p :: up, names (.broker (p :: up) rpc m) p'.process_name :=
        fun p' hp' => .inr (.inr ⟨p', hp', rfl⟩)
      have hname : names (.broker (p :: up) rpc m) m.client_name := .inl rfl
      have hproducer : names (.broker (p :: up) rpc m) (producerName m.channel_name) := .inr (.inl rfl)
      cases rpc with
      | CipherTextFromProducer => exact answered_upload hw hnames hname hc
      | CipherTextToConsumer => exact answered_consumer hw ⟨hnames, hproducer⟩ hname hc
      | ReEncryptedCipherTextToBroker => exact answered_text hw ⟨hnames, hproducer⟩ hname hc

/-! ## Calls side by side -/

/-- **The request is survived if it is handled side by side with others**: it is served in all states
that they may bring about. -/
def Lasting (cfg : Config) (w : World) (c : Call) : Prop :=
  ServedIn cfg (Grows w) c ∧ ∀ b, c ≠ .start b

/-- What handlers of requests about the names `N` rely on, and guarantee. -/
def sideBySide (N : Text → Prop) : Rely World where
  inv := Alive
  rel s t := Grows s t ∧ Unchanged N s t
  refl s := ⟨.refl s, .refl⟩
  trans _ _ _ h h' := ⟨h.1.trans h'.1, h.2.trans h'.2⟩

/-- The same for a request that has found the state `w`. -/
def growing (N : Text → Prop) (w : World) : Rely World :=
  { sideBySide N with inv := fun t => Alive t ∧ Grows w t }

/-- An action about names of `N` that adds keys or ciphertexts. -/
theorem growing_step {t' : World} (ht : (growing N w).inv t) (halive : Alive t') (hgrows : Grows t t')
    (hunchanged : Unchanged N t t') : (growing N w).inv t' ∧ (growing N w).rel t t' :=
  ⟨⟨halive, ht.2.trans hgrows⟩, hgrows, hunchanged⟩

theorem keeps_growing : Keeps N (growing N w) where
  alive _ ht := ht.1
  holds _ _ b P h := h.1.holds b P
  recd _ _ k owner h := h.1.RecdPublicKeys k owner
  setCipherText _ _ _ _ _ ht hP _ :=
    growing_step ht ht.1.setCipherText .setCipherText (Unchanged.refl.setCipherText hP)
  setRoutingTable _ _ _ _ _ _ ht hch hr hh :=
    growing_step ht (ht.1.setRoutingTable hr hh) .setRoutingTable (Unchanged.refl.setRoutingTable hch)
  setRecdPublicKey _ u type name key ht hname :=
    growing_step ht (ht.1.setRecdPublicKey u (type, name) key) .setRecdPublicKey
      (.setRecdPublicKey hname)
  record _ e ht := growing_step ht (ht.1.record e) .record .record

theorem stores_growing {k : ℕ} {rpc : KeyServer.Rpc} (hname : N m.client_name) :
    KeyServer.Stores (growing N w) k m rpc where
  setKeyPair _ _ ht :=
    growing_step ht (ht.1.setKeyPair k _) .setKeyPair (.setKeyPair hname)
  setPrivateKey _ _ key ht :=
    growing_step ht (ht.1.setPrivateKey k _ key) .setPrivateKey (.setPrivateKey hname)
  setPublicKey _ _ key _ ht :=
    growing_step ht (ht.1.setPublicKey k _ key) .setPublicKey (.setPublicKey hname)
  setRecdPublicKey _ _ key _ ht :=
    growing_step ht (ht.1.setRecdPublicKey k _ key) .setRecdPublicKey (.setRecdPublicKey hname)

/-- What is served in all states that grow from `w` is served in those that are alive. -/
theorem like_growing : ∀ t, (growing N w).inv t → ∃ u, Grows w u ∧ Like u t :=
  fun t ht => ⟨t, ht.2, .refl t⟩

/-- **A lasting request is answered**, whatever other lasting requests do in between. -/
theorem safe_lasting {c : Call} (hc : Lasting cfg w c) (hN : ∀ n, names c n → N n) :
    (handler cfg c).Safe (sideBySide N) False (fun _ _ => True) w := by
  have hsafe : (handler cfg c).Safe (growing N w) False (fun _ _ => True) w := by
    obtain ⟨hc, hstart⟩ := hc
    cases c with
    | start b => exact absurd rfl (hstart b)
    | keyServer k rpc m =>
      exact KeyServer.safe_Proceed (keeps_growing.quiet (hN _ rfl)) (stores_growing (hN _ rfl))
        fun t ht => (KsServed.like like_growing hc).not_fails ht
    | broker b rpc m =>
      cases b with
      | nil => exact hc.elim
      | cons p up =>
        have hname : N m.client_name := hN _ (.inl rfl)
        have hbrokers : ∀ q ∈ p :: up, N q.process_name := fun q hq => hN _ (.inr (.inr ⟨q, hq, rfl⟩))
        have hnames : Names N (p :: up) m.channel_name := ⟨hbrokers, hN _ (.inr (.inl rfl))⟩
        cases rpc with
        | ReEncryptedCipherTextToBroker =>
          exact safe_text keeps_growing hnames hname (TextServed.like like_growing hc)
        | CipherTextToConsumer =>
          exact safe_consumer keeps_growing hnames hname (ConsumerServed.like like_growing hc)
        | CipherTextFromProducer =>
          have hc : UploadServed cfg (growing N w).inv p up m := UploadServed.like like_growing hc
          exact Policy.safe_CipherTextFromProducer (R := policy cfg keeps_growing)
            (fun t ht hdown => by cases hdown.symm.trans (hc.isUp t ht)) fun _ =>
            (safe_upload keeps_growing hbrokers hname hc).mono (fun _ _ _ _ t ht =>
              growing_step ht ht.1.setCipherText .setCipherText (Unchanged.refl.setCipherText hname)) id
  exact hsafe.of_start (fun t hst ht => ⟨ht, hst.1⟩) fun t ht => ht.1

/-- The requests of a run, about names of `N`. -/
def Requests (cfg : Config) (N : Text → Prop) (p : Pool World MessageReturn) (a : Pool.Action Call) :
    Prop :=
  ∀ c, a = .call c → Lasting cfg p.state c ∧ ∀ n, names c n → N n

/-- **Lasting requests side by side**: no handler throws, and all are about their names. -/
theorem good_sideBySide (hw : Alive w) {p : Pool World MessageReturn}
    (hr : Reach (Pool.step (handler cfg)) (Requests cfg N) ⟨w, []⟩ p) :
    p.Good (sideBySide N) False ∧ (sideBySide N).rel w p.state := by
  have h0 : Pool.Good (sideBySide N) False (⟨w, []⟩ : Pool World MessageReturn) :=
    ⟨hw, fun h hh => by cases hh⟩
  have hcall : ∀ q c, Requests cfg N q (.call c) →
      (handler cfg c).Safe (sideBySide N) False (fun _ _ => True) q.state :=
    fun q c hc => safe_lasting (hc c rfl).1 (hc c rfl).2
  exact ⟨h0.reach hr hcall, h0.rel_reach hr hcall⟩

/-! ## The runs -/

theorem alive_initial : Alive initial where
  keyServers _ := rfl
  PublicKeys _ _ h := by cases h
  PrivateKeys _ _ h := by cases h
  cipherTexts _ _ h := by cases h
  routes _ := ⟨[], rfl, fun r hr => by cases hr⟩

/-- A registered broker starts, with nothing stored. -/
theorem Alive.restart {p : Params} {up : Broker} (h : Alive w)
    (hpub : (w.keyServers p.key_server).PublicKeys (broker, p.process_name) ≠ none)
    (hpriv : (w.keyServers p.key_server).PrivateKeys (broker, p.process_name) ≠ none) :
    Alive (w.restart (p :: up)) where
  keyServers := h.keyServers
  PublicKeys p' up' hb := by
    by_cases heq : p' :: up' = p :: up
    · obtain ⟨rfl, -⟩ := List.cons.inj heq
      exact hpub
    · exact h.PublicKeys p' up' ((congrArg BrokerServer.up (World.updateBroker_ne heq)).symm.trans hb)
  PrivateKeys p' up' hb := by
    by_cases heq : p' :: up' = p :: up
    · obtain ⟨rfl, -⟩ := List.cons.inj heq
      exact hpriv
    · exact h.PrivateKeys p' up' ((congrArg BrokerServer.up (World.updateBroker_ne heq)).symm.trans hb)
  cipherTexts b' P' := by
    unfold World.restart
    by_cases heq : b' = p :: up
    · rw [heq, World.updateBroker_self]
      exact Option.some_ne_none none ∘ Eq.symm
    · rw [World.updateBroker_ne heq]
      exact h.cipherTexts b' P'
  routes b' := by
    by_cases heq : b' = p :: up
    · refine ⟨[], ?_, fun r hr => by cases hr⟩
      rw [heq]
      exact congrArg BrokerServer.routingTable World.updateBroker_self
    · have hsame : (w.restart (p :: up)).brokers b' = w.brokers b' := World.updateBroker_ne heq
      refine (h.routes b').mono (congrArg BrokerServer.routingTable hsame) fun P hh => ?_
      exact (World.holds_congr (congrArg BrokerServer.brokerCipherTexts hsame)).mpr hh

/-- A broker starts: its key server makes its key pair. -/
theorem alive_start {p : Params} {up : Broker} (hw : Alive w) :
    Alive ((handler cfg (.start (p :: up))).exec w).2 := by
  have hk : ((w.restart (p :: up)).keyServers p.key_server).up = true := hw.keyServers p.key_server
  have hexec : (handler cfg (.start (p :: up))).exec w = (some { cryptocontext := .cryptoContext },
      (w.setKeyPair p.key_server (broker, p.process_name)).restart (p :: up)) := by
    change Handler.exec (Handler.onThrow _ _) (w.restart (p :: up)) = _
    rw [Handler.exec_onThrow, exec_serveKs, if_pos hk]
    rfl
  rw [hexec]
  refine Alive.restart (hw.setKeyPair p.key_server _) ?_ ?_
  · simp [World.setKeyPair, World.setPrivateKey, World.setPublicKey]
  · simp [World.setKeyPair, World.setPrivateKey, World.setPublicKey]

/-- A call that is made. -/
def called (cfg : Config) (w : World) (c : Call) : World := ((handler cfg c).exec w).2

theorem alive_called (hw : Alive w) {c : Call} (hc : Served cfg w c) : Alive (called cfg w c) := by
  cases c with
  | start b =>
    obtain ⟨p, up, rfl⟩ := List.exists_cons_of_ne_nil hc
    exact alive_start hw
  | keyServer k rpc m => exact (answered hw hc fun _ h => by cases h).alive
  | broker b rpc m => exact (answered hw hc fun _ h => by cases h).alive

/-- **The states that the runs reach**: calls are made one after the other, or requests side by side
until all have been answered. -/
inductive Reaches (cfg : Config) : World → Prop where
  | initial : Reaches cfg initial
  | call {w : World} (hw : Reaches cfg w) (c : Call) (hc : Served cfg w c) : Reaches cfg (called cfg w c)
  | requests {w : World} {N : Text → Prop} {p : Pool World MessageReturn} (hw : Reaches cfg w)
      (hp : Reach (Pool.step (handler cfg)) (Requests cfg N) ⟨w, []⟩ p)
      (hanswered : ∀ h ∈ p.threads, ∃ reply, h = .ret reply) : Reaches cfg p.state

theorem Reaches.alive (hr : Reaches cfg w) : Alive w := by
  induction hr with
  | initial => exact alive_initial
  | call _ _ hc hw => exact alive_called hw hc
  | requests _ hp _ hw => exact (good_sideBySide hw hp).1.inv

/-! ## Requests at one broker -/

open Chain

def cfg₁ : Config := oneServer [B1.process_name, aConsumer]

/-- The producer uploads a text, and the consumer registers its key. -/
def prepared : List Call :=
  [.start [B1],
    .keyServer 0 .PrivateKeyFromProducer
      { client_name := aProducer, pkey := .privateKey (some (.client 0)) },
    .keyServer 0 .PublicKeyFromClient
      { client_type := producer, client_name := aProducer, pkey := .publicKey (some (.client 0)) },
    .broker [B1] .CipherTextFromProducer
      { client_name := aProducer, ctext := .ciphertext (some ⟨.client 0, some oldText, 0⟩) },
    .keyServer 0 .PublicKeyFromClient
      { client_type := consumer, client_name := aConsumer, pkey := .publicKey (some (.client 1)) }]

/-- The state after the first calls. -/
def state (n : ℕ) : World := (prepared.take n).foldl (called cfg₁) initial

theorem reaches_state : Reaches cfg₁ (state 5) := by
  have h₁ : Reaches cfg₁ (state 1) := .call .initial (.start [B1]) (List.cons_ne_nil _ _)
  have h₂ : Reaches cfg₁ (state 2) :=
    .call h₁ (.keyServer 0 .PrivateKeyFromProducer
      { client_name := aProducer, pkey := .privateKey (some (.client 0)) }) (Option.some_ne_none _)
  have h₃ : Reaches cfg₁ (state 3) :=
    .call h₂ (.keyServer 0 .PublicKeyFromClient
      { client_type := producer, client_name := aProducer, pkey := .publicKey (some (.client 0)) })
      (Option.some_ne_none _)
  have h₄ : Reaches cfg₁ (state 4) :=
    .call h₃ (.broker [B1] .CipherTextFromProducer
      { client_name := aProducer, ctext := .ciphertext (some ⟨.client 0, some oldText, 0⟩) })
      { isUp := forall_eq.mpr (by decide +kernel)
        ctext := Option.some_ne_none _
        publicKey := forall_eq.mpr (by decide +kernel)
        privateKey := forall_eq.mpr (by decide +kernel)
        authorized := by decide +kernel
        security_model := by decide +kernel }
  exact .call h₄ (.keyServer 0 .PublicKeyFromClient
    { client_type := consumer, client_name := aConsumer, pkey := .publicKey (some (.client 1)) })
    (Option.some_ne_none _)

/-- A request of the consumer. -/
def aRequest : Call := .broker [B1] .CipherTextToConsumer (consumerRequest aConsumer aProducer)

theorem lasting_request : Lasting cfg₁ (state 5) aRequest := by
  have hpub : ∀ owner ∈ [(broker, B1.process_name), (consumer, aConsumer)], ∀ w, Grows (state 5) w →
      (w.keyServers 0).PublicKeys owner ≠ none := by
    intro owner howner w hw
    refine hw.PublicKeys 0 owner ?_
    simp only [List.mem_cons, List.not_mem_nil, or_false] at howner
    rcases howner with rfl | rfl
    · decide +kernel
    · decide +kernel
  have hpriv : ∀ owner ∈ [(broker, B1.process_name), (producer, aProducer)], ∀ w, Grows (state 5) w →
      (w.keyServers 0).PrivateKeys owner ≠ none := by
    intro owner howner w hw
    refine hw.PrivateKeys 0 owner ?_
    simp only [List.mem_cons, List.not_mem_nil, or_false] at howner
    rcases howner with rfl | rfl
    · decide +kernel
    · decide +kernel
  have hc : ConsumerServed cfg₁ (Grows (state 5)) B1 [] (consumerRequest aConsumer aProducer) :=
    { isUp := fun w hw => (hw.isUp [B1]).trans (by decide +kernel)
      name := by decide +kernel
      writes := fun _ => ⟨(word_channel plain_aProducer.word plain_aConsumer.word).line,
        plain_aProducer.word, plain_aConsumer.word⟩
      publicKey := fun _ _ => .inr (.inl rfl)
      reKey := .of_keys (hpub _ (by decide)) (hpriv _ (by decide))
      reKeyC := .of_keys (hpub _ (by decide)) (hpriv _ (by decide))
      fetch := fun _ => ⟨fun h => absurd rfl h, fun ⟨_, _, h⟩ => h.elim⟩
      security_model := fun _ _ => by decide +kernel }
  exact ⟨hc, fun _ h => by cases h⟩

/-- The consumer registers a new key. -/
def aKey : Call := .keyServer 0 .PublicKeyFromClient
  { client_type := consumer, client_name := aConsumer, pkey := .publicKey (some (.client 2)) }

theorem lasting_key : Lasting cfg₁ (state 5) aKey := ⟨Option.some_ne_none _, fun _ h => by cases h⟩

/-- Both side by side: the new key comes while the request is handled. -/
def together : Pool World MessageReturn :=
  [0, 0, 0, 1, 1].foldl Pool.turn
    (((⟨state 5, []⟩ : Pool World MessageReturn).spawn (handler cfg₁ aRequest)).spawn (handler cfg₁ aKey))

/-! ## The servers survive -/

/-- **The servers survive**: in every run of served calls, a served request is answered, leaves what
belongs to other names as it was, and no server has gone. Where lasting requests are handled side by
side, in any order of their actions, every handler comes to its end with a reply, what belongs to other
names is as it was, and no server has gone. -/
theorem survive (hr : Reaches cfg w) :
    (∀ c, Served cfg w c → (∀ b, c ≠ .start b) →
      (∃ reply, ((handler cfg c).exec w).1 = some reply) ∧
        Unchanged (names c) w (called cfg w c) ∧
        (∀ k, ((called cfg w c).keyServers k).up = true) ∧
        ∀ b, ((called cfg w c).brokers b).up = (w.brokers b).up) ∧
    ∀ N p, Reach (Pool.step (handler cfg)) (Requests cfg N) ⟨w, []⟩ p →
      (∀ (n : ℕ) h, p.threads[n]? = some h → ∃ reply, (h.exec p.state).1 = some reply) ∧
        Unchanged N w p.state ∧ (∀ k, (p.state.keyServers k).up = true) ∧
        ∀ b, (p.state.brokers b).up = (w.brokers b).up := by
  refine ⟨fun c hc hrpc => ?_, fun N p hp => ?_⟩
  · obtain ⟨hreply, halive, hunchanged, hup⟩ := answered hr.alive hc hrpc
    exact ⟨hreply, hunchanged, halive.keyServers, hup⟩
  · obtain ⟨hgood, hgrows, hunchanged⟩ := good_sideBySide hr.alive hp
    exact ⟨fun n h hn => hgood.returns hn, hunchanged, hgood.inv.keyServers, hgrows.isUp⟩

theorem survive_request :
    (∃ reply, ((handler cfg₁ aRequest).exec (state 5)).1 = some reply) ∧
      ∀ (n : ℕ) h, together.threads[n]? = some h →
        ∃ reply, (h.exec together.state).1 = some reply := by
  have hc : Served cfg₁ (state 5) aRequest := by
    refine ConsumerServed.like (fun t ht => ⟨state 5, .refl _, ?_⟩) lasting_request.1
    rw [ht]
    exact .refl _
  have hrequest : ∀ p : Pool World MessageReturn, p.state = state 5 →
      Requests cfg₁ (fun _ => True) p (.call aRequest) := by
    rintro ⟨_, l⟩ rfl c h
    cases h
    exact ⟨lasting_request, fun _ _ => trivial⟩
  have hkey : ∀ p : Pool World MessageReturn, p.state = state 5 →
      Requests cfg₁ (fun _ => True) p (.call aKey) := by
    rintro ⟨_, l⟩ rfl c h
    cases h
    exact ⟨lasting_key, fun _ _ => trivial⟩
  have hcalls : Reach (Pool.step (handler cfg₁)) (Requests cfg₁ fun _ => True) ⟨state 5, []⟩
      (((⟨state 5, []⟩ : Pool World MessageReturn).spawn (handler cfg₁ aRequest)).spawn
        (handler cfg₁ aKey)) :=
    (Reach.refl.tail (Pool.Action.call aRequest) (hrequest _ rfl)).tail (Pool.Action.call aKey)
      (hkey _ rfl)
  have hp : Reach (Pool.step (handler cfg₁)) (Requests cfg₁ fun _ => True) ⟨state 5, []⟩ together :=
    hcalls.trans (Pool.reach_turns (fun _ _ _ h => by cases h) _ _)
  exact ⟨((survive reaches_state).1 aRequest hc fun _ h => by cases h).1,
    ((survive reaches_state).2 _ together hp).1⟩

/-- A channel without `-`, and an empty key: the process of the broker ends, and that of the key
server. -/
theorem gone :
    (((handler cfg₁ (.broker [B1] .CipherTextToConsumer
        { client_type := consumer, client_name := aConsumer, channel_name := aProducer })).exec
          (state 5)).1 = none ∧
      ((called cfg₁ (state 5) (.broker [B1] .CipherTextToConsumer
        { client_type := consumer, client_name := aConsumer, channel_name := aProducer })).brokers
          [B1]).up = false) ∧
    (((handler cfg₁ (.keyServer 0 .PublicKeyFromClient
        { client_type := consumer, client_name := aConsumer })).exec (state 5)).1 = none ∧
      ((called cfg₁ (state 5) (.keyServer 0 .PublicKeyFromClient
        { client_type := consumer, client_name := aConsumer })).keyServers 0).up = false) := by
  decide +kernel

end Pre.Survival

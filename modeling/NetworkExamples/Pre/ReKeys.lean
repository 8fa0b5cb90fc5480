import NetworkExamples.Pre.Closed

/-!
# The re-encryption keys of a key server

What `ReEncryptionKeyToBroker` answers, with and without an upstream key server, in any state of any
run, whatever other calls come in between.

* `Grows`: registered keys stay, so what has been looked up remains true.
* `consistent_of_sound`, `sound_of_consistent`: when a key is in the answers, and `ReKeyGen` gets no
  null pointer.
-/

namespace Pre

open Rpc Schedule

/-! ## Registered keys stay -/

/-- `ks'` is a later state of the key server: it has the keys that it had, and does not come up
again. -/
structure KeyServer.Grows (ks ks' : KeyServer) : Prop where
  PublicKeys : ∀ owner, ks.PublicKeys owner ≠ none → ks'.PublicKeys owner ≠ none
  PrivateKeys : ∀ owner, ks.PrivateKeys owner ≠ none → ks'.PrivateKeys owner ≠ none
  RecdPublicKeys : ∀ owner, ks.RecdPublicKeys owner ≠ none → ks'.RecdPublicKeys owner ≠ none
  down : ks.up = false → ks'.up = false

namespace ReKeys

open KeyServer

theorem grows_refl (ks : KeyServer) : ks.Grows ks where
  PublicKeys _ h := h
  PrivateKeys _ h := h
  RecdPublicKeys _ h := h
  down h := h

theorem grows_trans {ks ks' ks'' : KeyServer} (h : ks.Grows ks') (h' : ks'.Grows ks'') :
    ks.Grows ks'' where
  PublicKeys owner hk := h'.PublicKeys owner (h.PublicKeys owner hk)
  PrivateKeys owner hk := h'.PrivateKeys owner (h.PrivateKeys owner hk)
  RecdPublicKeys owner hk := h'.RecdPublicKeys owner (h.RecdPublicKeys owner hk)
  down hk := h'.down (h.down hk)

/-- The later states. -/
def growing : Rely World where
  inv _ := True
  rel s t := ∀ k, (s.keyServers k).Grows (t.keyServers k)
  refl s k := grows_refl (s.keyServers k)
  trans _ _ _ h h' k := grows_trans (h k) (h' k)

variable {w : World} {k : ℕ} {owner : Text × Text} {key : Key}

theorem grows_updateKs {f : KeyServer → KeyServer} (hf : (w.keyServers k).Grows (f (w.keyServers k))) :
    growing.rel w (w.updateKs k f) := by
  intro k'
  by_cases hk : k' = k
  · subst hk
    rwa [World.updateKs_self]
  · rw [World.updateKs_ne hk]
    exact grows_refl _

theorem grows_setPublicKey : growing.rel w (w.setPublicKey k owner key) :=
  grows_updateKs ⟨fun _ h => update_ne_none h, fun _ h => h, fun _ h => h, fun h => h⟩

theorem grows_setPrivateKey : growing.rel w (w.setPrivateKey k owner key) :=
  grows_updateKs ⟨fun _ h => h, fun _ h => update_ne_none h, fun _ h => h, fun h => h⟩

theorem closed_growing : Closed growing where
  ksDown t k _ := by
    refine ⟨trivial, grows_updateKs ⟨fun _ h => h, fun _ h => h, fun _ h => h, fun _ => rfl⟩⟩
  setPublicKey _ _ _ _ _ := ⟨trivial, grows_setPublicKey⟩
  setPrivateKey _ _ _ _ _ := ⟨trivial, grows_setPrivateKey⟩
  setRecdPublicKey t k owner key _ := by
    refine ⟨trivial, grows_updateKs ⟨fun _ h => h, fun _ h => h, ?_, fun h => h⟩⟩
    exact fun _ h => update_ne_none h
  setKeyPair t k owner _ := by
    refine ⟨trivial, fun k' => ?_⟩
    exact grows_trans (grows_setPublicKey k') (grows_setPrivateKey (w := t.setPublicKey k owner _) k')

/-- The condition is about no broker. -/
def policy (cfg : Config) : Policy cfg True where
  G := growing
  Asks _ _ _ := True
  Consumes _ _ _ := True
  Fetches _ _ _ := True
  Serves _ _ := True
  stored _ _ _ := True
  kept _ _ _ := True
  sent _ _ _ := True
  operands _ _ := True
  publicKey _ _ _ _ := True
  rekey _ _ _ _ := True
  publicKeyC _ _ _ := True
  rekeyC _ _ _ := True
  kept_rel _ _ _ _ _ _ := trivial
  brokerDown _ t _ _ := ⟨trivial, growing.refl t⟩
  asks _ _ _ _ := trivial
  consumes _ _ _ _ := trivial
  routed _ _ _ _ _ _ _ _ _ := trivial
  entry t _ _ _ _ _ := ⟨trivial, trivial, growing.refl t⟩
  found _ _ _ _ _ _ _ := ⟨trivial, trivial⟩
  store t _ _ _ _ _ _ _ _ _ := ⟨trivial, growing.refl t, trivial⟩
  route t _ _ _ _ _ _ := ⟨trivial, growing.refl t⟩
  record t _ _ _ _ := ⟨trivial, growing.refl t⟩
  send t _ _ _ _ _ := ⟨trivial, growing.refl t⟩
  sent_stored _ _ _ _ _ _ := trivial
  miss _ _ _ _ _ _ _ := ⟨trivial, fun _ => closed_growing.safe_PublicKeyToBroker,
    fun _ => closed_growing.safe_ReEncryptionKeyToBroker⟩
  missC _ _ _ _ _ _ _ := trivial
  keysC _ _ _ _ := ⟨fun _ => closed_growing.safe_PublicKeyToBroker,
    fun _ => closed_growing.safe_ReEncryptionKeyToBroker⟩
  keysForC _ _ _ _ _ _ _ := ⟨fun _ => closed_growing.safe_PublicKeyToBroker,
    fun _ => closed_growing.safe_ReEncryptionKeyToBroker⟩
  fetches _ _ _ _ _ _ := trivial
  reEncrypted _ _ _ _ _ rk _ _ _ := by
    cases rk with
    | none => exact trivial
    | some r => exact ⟨trivial, trivial⟩
  reEncryptedC _ _ _ _ rk _ _ _ := by
    cases rk with
    | none => exact trivial
    | some r => exact ⟨trivial, fun _ _ => trivial⟩

variable {cfg : Config} {m : MessageRequest} {p q : Pool World MessageReturn}

/-- Every call keeps the condition. -/
theorem safe_call (c : Call) (s : World) :
    (handler cfg c).Safe growing True (fun _ _ => True) s := by
  refine Policy.safe_handler (R := policy cfg) closed_growing ?_
  cases c with
  | keyServer => exact trivial
  | start => exact fun t _ => ⟨trivial, growing.refl t⟩
  | broker b rpc m =>
    cases b with
    | nil => cases rpc <;> exact trivial
    | cons p up =>
      cases rpc with
      | CipherTextFromProducer =>
        exact ⟨fun t _ _ => ⟨trivial, growing.refl t⟩, fun _ _ => trivial⟩
      | CipherTextToConsumer | ReEncryptedCipherTextToBroker => exact trivial

theorem good_reach (hr : Reach (Pool.step (handler cfg)) (fun _ _ => True) ⟨initial, []⟩ p) :
    p.Good growing True := by
  have h0 : Pool.Good growing True (⟨initial, []⟩ : Pool World MessageReturn) :=
    ⟨trivial, fun h hh => by cases hh⟩
  exact h0.reach hr fun q c _ => safe_call c q.state

/-! ## The calls of `ReKeyGen` -/

/-- The arguments of `ReKeyGen`, if it is called. -/
def ReKeyGenArgs (cfg : Config) (k : ℕ) (m : MessageRequest)
    (senderPrivateKey receiverPublicKey : Option Key) : Option (Option Key × Option Key) :=
  if m.client_name ∈ cfg.authorizedConsumers k then some (senderPrivateKey, receiverPublicKey)
  else none

/-- The key that is sent: that of `ReKeyGen`, or a null pointer if it is not called. -/
def generated (args : Option (Option Key × Option Key)) : Option (Option EvalKey) :=
  match args with
  | some (senderPrivateKey, receiverPublicKey) => (ReKeyGen senderPrivateKey receiverPublicKey).map some
  | none => some none

theorem reencryptionKey_eq (sk pk : Option Key) :
    reencryptionKey cfg k m sk pk = generated (ReKeyGenArgs cfg k m sk pk) := by
  unfold reencryptionKey ReKeyGenArgs
  split <;> rfl

variable {ks : KeyServer}

/-- What `ReEncryptionKeyToBroker` calls `ReKeyGen` with. -/
def argsToBroker (cfg : Config) (k : ℕ) (m : MessageRequest) (ks : KeyServer) :
    Option (Option Key × Option Key) :=
  match ks.PrivateKeys (m.upstream_client_type, m.upstream_client_name) with
  | none => none
  | some key => ReKeyGenArgs cfg k m (some key) (ks.PublicKeys (m.client_type, m.client_name))

/-- What `ReEncryptionKeyToServer` calls `ReKeyGen` with. -/
def argsToServer (cfg : Config) (k : ℕ) (m : MessageRequest) (ks : KeyServer) :
    Option (Option Key × Option Key) :=
  let receiverPublicKey := ks.RecdPublicKeys (m.client_type, m.client_name)
  let senderPrivateKey := ks.PrivateKeys (m.upstream_client_type, m.upstream_client_name)
  if senderPrivateKey = none ∨ receiverPublicKey = none then none
  else ReKeyGenArgs cfg k m senderPrivateKey receiverPublicKey

theorem ReEncryptionKeyToBroker_eq
    (h : ks.PrivateKeys (m.upstream_client_type, m.upstream_client_name) = some key) :
    ReEncryptionKeyToBroker cfg k m ks = (do
      let reencryptionKey ← Handler.ofOption (generated (argsToBroker cfg k m ks))
      pure { producerRegistered := m.upstream_client_type = producer
             keyAvailable := true
             reKey := .evalKey reencryptionKey }) := by
  unfold ReEncryptionKeyToBroker argsToBroker
  simp only [h, reencryptionKey_eq]

theorem ReEncryptionKeyToServer_eq : ReEncryptionKeyToServer cfg k m ks =
    if ks.PrivateKeys (m.upstream_client_type, m.upstream_client_name) = none ∨
      ks.RecdPublicKeys (m.client_type, m.client_name) = none then pure { keyAvailable := false }
    else (do
      let reencryptionKey ← Handler.ofOption (generated (argsToServer cfg k m ks))
      pure { keyAvailable := true, reKey := .evalKey reencryptionKey }) := by
  unfold ReEncryptionKeyToServer argsToServer
  simp only
  split
  · rfl
  · rw [reencryptionKey_eq]

/-- No argument is a null pointer. -/
def NonNull (args : Option (Option Key × Option Key)) : Prop :=
  ∀ a ∈ args, a.1 ≠ none ∧ a.2 ≠ none

theorem nonNull_argsToServer : NonNull (argsToServer cfg k m ks) := by
  unfold argsToServer
  simp only
  split
  · exact fun a h => by cases h
  · next h =>
    push Not at h
    unfold ReKeyGenArgs
    split
    · intro a ha
      obtain rfl := Option.some.inj ha
      exact h
    · exact fun a h => by cases h

theorem nonNull_argsToBroker
    (h : ks.PrivateKeys (m.upstream_client_type, m.upstream_client_name) = some key)
    (hpk : ks.PublicKeys (m.client_type, m.client_name) ≠ none) :
    NonNull (argsToBroker cfg k m ks) := by
  unfold argsToBroker ReKeyGenArgs
  rw [h]
  simp only
  split
  · intro a ha
    obtain rfl := Option.some.inj ha
    exact ⟨Option.some_ne_none key, hpk⟩
  · exact fun a h => by cases h

/-! ## The answers -/

/-- Call `n` of the pool, which is served in this state, is answered by `reply`. -/
def Answers (cfg : Config) (p : Pool World MessageReturn) (n : ℕ) (reply : MessageReturn) : Prop :=
  ∃ q, Reach (Pool.step (handler cfg)) (fun _ _ => True) (p.turn n) q ∧
    q.threads[n]? = some (.ret reply)

/-- A key in the answer, and the public key of the receiver. -/
def Keyed (ks : KeyServer) (m : MessageRequest) (reply : MessageReturn) : Prop :=
  reply.keyAvailable = true → ks.PublicKeys (m.client_type, m.client_name) ≠ none ∧
    ∃ rk, reply.reKey = .evalKey (some rk)

/-- **The answers are consistent**: a key that is said to be there is in the answer, its receiver has
registered, and `ReKeyGen` has got no null pointer, here or upstream. -/
structure Consistent (cfg : Config) (p : Pool World MessageReturn) (n k : ℕ) (m : MessageRequest) :
    Prop where
  keyed : ∀ reply, Answers cfg p n reply → Keyed (p.state.keyServers k) m reply
  argsToBroker : (p.state.keyServers k).up = true →
    NonNull (argsToBroker cfg k m (p.state.keyServers k))
  argsToServer : ∀ q, Reach (Pool.step (handler cfg)) (fun _ _ => True) (p.turn n) q →
    ∀ u, cfg.upstream_key_server k = some u →
      NonNull (argsToServer cfg u m (q.state.keyServers u))

/-- The condition. If the key server has the private key of the sender, then the receiver has
registered and is authorized; else, if it asks a running upstream key server, that one has the
private key, and the receiver is authorized there. -/
def Sound (cfg : Config) (s : World) (k : ℕ) (m : MessageRequest) : Prop :=
  (s.keyServers k).up = true →
    match (s.keyServers k).PrivateKeys (m.upstream_client_type, m.upstream_client_name) with
    | some _ => (s.keyServers k).PublicKeys (m.client_type, m.client_name) ≠ none ∧
        m.client_name ∈ cfg.authorizedConsumers k
    | none => m.upstream_client_type ≠ producer →
        (s.keyServers k).PublicKeys (m.client_type, m.client_name) ≠ none →
        ∀ u, cfg.upstream_key_server k = some u → (s.keyServers u).up = true →
          (s.keyServers u).PrivateKeys (m.upstream_client_type, m.upstream_client_name) ≠ none ∧
            m.client_name ∈ cfg.authorizedConsumers u

/-! ### The condition is enough -/

theorem keyed_authorized {u : ℕ} {sk pk : Option Key} {rk : Option EvalKey} {reply : MessageReturn}
    (hpk : ks.PublicKeys (m.client_type, m.client_name) ≠ none)
    (hauth : m.client_name ∈ cfg.authorizedConsumers u)
    (hrk : reencryptionKey cfg u m sk pk = some rk) (hreply : reply.reKey = .evalKey rk) :
    Keyed ks m reply := by
  obtain ⟨key, key', rfl, -, -⟩ := reencryptionKey_authorized hauth hrk
  exact fun _ => ⟨hpk, _, hreply⟩

variable {s : World} {u : ℕ}

/-- A key server that has ended does not answer. -/
theorem safe_down {h : KeyServer → Handler World MessageReturn}
    (hdown : (s.keyServers u).up = false) (Q : World → MessageReturn → Prop) :
    (serveKs u h).Safe growing True Q s := by
  refine safe_serveKs (fun _ t ht => closed_growing.ksDown t u ht) (fun _ _ _ _ => trivial)
    fun t hst _ hup => ?_
  rw [(hst u).down hdown] at hup
  cases hup

/-- The upstream key server does not answer a serialized null pointer. -/
theorem safe_null (Q : World → MessageReturn → Prop) :
    (serveKs u fun _ => PublicKeyfromServer u { m with pkey := .publicKey none }).Safe growing True
      Q s :=
  safe_serveKs (fun _ t ht => closed_growing.ksDown t u ht) (fun _ _ _ _ => trivial)
    fun _ _ _ _ => trivial

/-- The two calls of the upstream key server. -/
def askUpstream (cfg : Config) (u : ℕ) (m : MessageRequest) (receiverPublicKey : Option Key) :
    Handler World MessageReturn := do
  let _ ← serveKs u fun _ => PublicKeyfromServer u { m with pkey := .publicKey receiverPublicKey }
  let reply ← serveKs u (ReEncryptionKeyToServer cfg u m)
  let reply_reencryptionkey := if reply.keyAvailable then reply.reKey else .empty
  pure { keyAvailable := true, reKey := reply_reencryptionkey }

theorem ReEncryptionKeyToBroker_upstream
    (h : ks.PrivateKeys (m.upstream_client_type, m.upstream_client_name) = none)
    (hp : m.upstream_client_type ≠ producer) :
    ReEncryptionKeyToBroker cfg k m ks = (do
      let u ← upstream cfg k
      askUpstream cfg u m (ks.PublicKeys (m.client_type, m.client_name))) := by
  unfold ReEncryptionKeyToBroker
  simp only [h, if_neg hp]
  rfl

/-- The upstream key server keeps the private key of the sender, and the public key that it has
got. -/
theorem upstream_keys {t₀ t : World}
    (hsk : (s.keyServers u).PrivateKeys (m.upstream_client_type, m.upstream_client_name) ≠ none)
    (hst : growing.rel s t)
    (hrecd : growing.rel (t₀.setRecdPublicKey u (m.client_type, m.client_name) key) t) :
    ¬ ((t.keyServers u).PrivateKeys (m.upstream_client_type, m.upstream_client_name) = none ∨
      (t.keyServers u).RecdPublicKeys (m.client_type, m.client_name) = none) := by
  rintro (hnone | hnone)
  · exact (hst u).PrivateKeys _ hsk hnone
  · refine (hrecd u).RecdPublicKeys (m.client_type, m.client_name) ?_ hnone
    unfold World.setRecdPublicKey
    rw [World.updateKs_self]
    simp

theorem safe_askUpstream {sk pk : Option Key} {t : World} (hst : growing.rel s t)
    (hpk : ks.PublicKeys (m.client_type, m.client_name) = pk) (hks : ks = s.keyServers k)
    (hu : cfg.upstream_key_server k = some u)
    (hsk : (s.keyServers u).PrivateKeys (m.upstream_client_type, m.upstream_client_name) = sk)
    (hsound : pk ≠ none → (s.keyServers u).up = true →
      sk ≠ none ∧ m.client_name ∈ cfg.authorizedConsumers u) :
    (askUpstream cfg u m pk).Safe growing True (fun _ reply => Keyed ks m reply) t := by
  subst hks
  by_cases hup : (s.keyServers u).up = true
  · cases pk with
    | none => exact Handler.Safe.bind (safe_null fun _ _ => False) fun _ _ _ h => h.elim
    | some key =>
      obtain ⟨hsk', hauth⟩ := hsound (Option.some_ne_none key) hup
      have hne : (s.keyServers k).PublicKeys (m.client_type, m.client_name) ≠ none := by
        rw [hpk]
        exact Option.some_ne_none key
      have hq : Quiet cfg growing True m := closed_growing.quiet
      have hinv : growing.inv s := trivial
      refine Handler.Safe.bind (safe_PublicKeyfromServer hq hu hinv hst hpk fun _ => trivial)
        fun t₁ _ h₁ hrecd => ?_
      obtain ⟨t₀, key', hrecd⟩ := hrecd
      refine Handler.Safe.bind (safe_ReEncryptionKeyToServer hq) fun t₂ reply _ hreply => ?_
      obtain ⟨t₃, -, h₃, ⟨rfl, hnone⟩ | ⟨rk, rfl, hrk⟩⟩ := hreply
      · have hrel : growing.rel s t₃ := growing.trans _ _ _ hst (growing.trans _ _ _ h₁ h₃)
        exact absurd hnone (upstream_keys (hsk ▸ hsk') hrel (growing.trans _ _ _ hrecd h₃))
      · exact keyed_authorized hne hauth hrk rfl
  · have hdown : (t.keyServers u).up = false := (hst u).down (by simpa using hup)
    exact Handler.Safe.bind (safe_down hdown fun _ _ => False) fun _ _ _ h => h.elim

/-- The handler from the state on in which it is served. -/
theorem safe_served (hsound : Sound cfg s k m) (hup : (s.keyServers k).up = true) :
    (ReEncryptionKeyToBroker cfg k m (s.keyServers k)).Safe growing True
      (fun _ reply => Keyed (s.keyServers k) m reply) s := by
  have hsound := hsound hup
  cases hsk : (s.keyServers k).PrivateKeys (m.upstream_client_type, m.upstream_client_name) with
  | some key =>
    rw [hsk] at hsound
    obtain ⟨hpk, hauth⟩ := hsound
    unfold ReEncryptionKeyToBroker
    simp only [hsk]
    exact Handler.Safe.bind (.ofOption (fun _ => trivial) fun rk hrk => hrk)
      fun _ rk _ hrk => keyed_authorized hpk hauth hrk rfl
  | none =>
    rw [hsk] at hsound
    by_cases hp : m.upstream_client_type = producer
    · unfold ReEncryptionKeyToBroker
      simp only [hsk, if_pos hp]
      exact fun h => by cases h
    · rw [ReEncryptionKeyToBroker_upstream hsk hp]
      refine Handler.Safe.bind (Q := fun t u => growing.rel s t ∧ cfg.upstream_key_server k = some u)
        (.ofOption (fun _ => trivial) fun u hu => ⟨growing.refl s, hu⟩) fun t u _ hu => ?_
      exact safe_askUpstream hu.1 rfl rfl hu.2 rfl fun hpk hup' => hsound hp hpk u hu.2 hup'

/-- The call before it is served, and the first turn. -/
theorem turn_served {n : ℕ}
    (hn : p.threads[n]? = some (handler cfg (.keyServer k .ReEncryptionKeyToBroker m))) :
    (p.turn n).state = p.state ∧ (p.turn n).threads[n]? = some
      (if (p.state.keyServers k).up then
        (ReEncryptionKeyToBroker cfg k m (p.state.keyServers k)).onThrow (·.ksDown k)
      else .throw) := by
  have hlt : n < p.threads.length := (List.getElem?_eq_some_iff.mp hn).1
  unfold Pool.turn
  rw [hn]
  exact ⟨rfl, List.getElem?_set_self hlt⟩

theorem consistent_of_sound {n : ℕ}
    (hr : Reach (Pool.step (handler cfg)) (fun _ _ => True) ⟨initial, []⟩ p)
    (hn : p.threads[n]? = some (handler cfg (.keyServer k .ReEncryptionKeyToBroker m)))
    (hsound : Sound cfg p.state k m) : Consistent cfg p n k m where
  keyed reply hreply := by
    obtain ⟨q, hq, hret⟩ := hreply
    obtain ⟨hstate, hthread⟩ := turn_served hn
    have hsafe : (p.turn n).Thread growing
        (fun _ reply => Keyed (p.state.keyServers k) m reply) n := by
      refine ⟨_, p.state, hthread, by rw [hstate]; exact growing.refl _, ?_⟩
      split
      · next hup =>
        exact (safe_served hsound hup).onThrow fun _ t ht => closed_growing.ksDown t k ht
      · exact trivial
    obtain ⟨h, t, hh, -, hsafe⟩ := hsafe.reach ((good_reach hr).turn n) hq
      fun q c _ => safe_call c q.state
    obtain rfl := Option.some.inj (hret.symm.trans hh)
    exact hsafe
  argsToBroker hup := by
    have hsound := hsound hup
    cases hsk : (p.state.keyServers k).PrivateKeys
        (m.upstream_client_type, m.upstream_client_name) with
    | some key =>
      rw [hsk] at hsound
      exact nonNull_argsToBroker hsk hsound.1
    | none =>
      unfold ReKeys.argsToBroker
      rw [hsk]
      exact fun a h => by cases h
  argsToServer _ _ _ _ := nonNull_argsToServer

/-! ### The condition is necessary -/

theorem exec_served {h : KeyServer → Handler World MessageReturn} {reply : MessageReturn} {t : World}
    (hup : (s.keyServers k).up = true) (hr : (h (s.keyServers k)).exec s = (some reply, t)) :
    (serveKs k h).exec s = (some reply, t) := by
  rw [exec_serveKs, if_pos hup, Handler.exec_onThrow, hr]

/-- A call that is served without interruption. -/
theorem answers_of_exec {n : ℕ} {reply : MessageReturn}
    (hn : p.threads[n]? = some (handler cfg (.keyServer k .ReEncryptionKeyToBroker m)))
    (hup : (p.state.keyServers k).up = true)
    (hr : (ReEncryptionKeyToBroker cfg k m (p.state.keyServers k)).exec p.state = (some reply, s)) :
    Answers cfg p n reply := by
  obtain ⟨hstate, hthread⟩ := turn_served hn
  rw [if_pos hup] at hthread
  have hexec : ∃ q, Reach (Pool.step (handler cfg)) (fun _ _ => True) (p.turn n) q ∧ _ :=
    Pool.reach_exec (fun _ _ => trivial) hthread
  obtain ⟨q, hq, -, hret⟩ := hexec
  refine ⟨q, hq, ?_⟩
  rw [hret, hstate, Handler.exec_onThrow, hr]
  rfl

theorem exec_unauthorized
    (hsk : ks.PrivateKeys (m.upstream_client_type, m.upstream_client_name) = some key)
    (hauth : m.client_name ∉ cfg.authorizedConsumers k) :
    (ReEncryptionKeyToBroker cfg k m ks).exec s =
      (some { producerRegistered := m.upstream_client_type = producer, keyAvailable := true
              reKey := .evalKey none }, s) := by
  rw [ReEncryptionKeyToBroker_eq hsk]
  unfold argsToBroker ReKeyGenArgs
  simp only [hsk, if_neg hauth]
  rfl

/-- What the upstream key server answers, if it does not have the private key, or if the receiver is
not authorized. -/
theorem exec_ReEncryptionKeyToServer
    (hbad : ks.PrivateKeys (m.upstream_client_type, m.upstream_client_name) ≠ none →
      m.client_name ∉ cfg.authorizedConsumers u) :
    ∃ reply, (ReEncryptionKeyToServer cfg u m ks).exec s = (some reply, s) ∧
      ∀ rk, (if reply.keyAvailable then reply.reKey else .empty) ≠ .evalKey (some rk) := by
  unfold ReEncryptionKeyToServer
  simp only
  split
  · exact ⟨_, rfl, fun rk h => by cases h⟩
  · next h =>
    push Not at h
    unfold reencryptionKey
    rw [if_neg (hbad h.1)]
    exact ⟨_, rfl, fun rk h => by cases h⟩

theorem exec_askUpstream {pk : Key} (hup : (s.keyServers u).up = true)
    (hbad : (s.keyServers u).PrivateKeys (m.upstream_client_type, m.upstream_client_name) ≠ none →
      m.client_name ∉ cfg.authorizedConsumers u) :
    ∃ reKey t, (askUpstream cfg u m (some pk)).exec s =
      (some { keyAvailable := true, reKey := reKey }, t) ∧ ∀ rk, reKey ≠ .evalKey (some rk) := by
  let t := s.setRecdPublicKey u (m.client_type, m.client_name) pk
  have hstored : t.keyServers u = { s.keyServers u with
      RecdPublicKeys := Function.update (s.keyServers u).RecdPublicKeys
        (m.client_type, m.client_name) (some pk) } := World.updateKs_self
  have hfirst : (serveKs u fun _ => PublicKeyfromServer u
      { m with pkey := .publicKey (some pk) }).exec s = (some { acknowledgement := received }, t) :=
    exec_served hup rfl
  obtain ⟨reply, hreply, hkey⟩ : ∃ reply,
      (ReEncryptionKeyToServer cfg u m (t.keyServers u)).exec t = (some reply, t) ∧
        ∀ rk, (if reply.keyAvailable then reply.reKey else .empty) ≠ .evalKey (some rk) :=
    exec_ReEncryptionKeyToServer (by rwa [hstored])
  have hsecond : (serveKs u (ReEncryptionKeyToServer cfg u m)).exec t = (some reply, t) :=
    exec_served (by rwa [hstored]) hreply
  refine ⟨_, t, ?_, hkey⟩
  unfold askUpstream
  rw [Handler.bind_eq, Handler.exec_bind, hfirst]
  simp only
  rw [Handler.bind_eq, Handler.exec_bind, hsecond]
  rfl

theorem sound_of_consistent {n : ℕ}
    (hn : p.threads[n]? = some (handler cfg (.keyServer k .ReEncryptionKeyToBroker m)))
    (h : Consistent cfg p n k m) : Sound cfg p.state k m := by
  intro hup
  cases hsk : (p.state.keyServers k).PrivateKeys
      (m.upstream_client_type, m.upstream_client_name) with
  | some key =>
    have hauth : m.client_name ∈ cfg.authorizedConsumers k := by
      by_contra hauth
      obtain ⟨-, rk, hrk⟩ := h.keyed _ (answers_of_exec hn hup (exec_unauthorized hsk hauth)) rfl
      cases hrk
    refine ⟨?_, hauth⟩
    have hargs := h.argsToBroker hup
    unfold ReKeys.argsToBroker ReKeyGenArgs at hargs
    simp only [hsk, if_pos hauth] at hargs
    exact (hargs _ rfl).2
  | none =>
    intro hp hpk u hu hup'
    by_contra hbad
    obtain ⟨pk, hpk⟩ := Option.ne_none_iff_exists'.mp hpk
    obtain ⟨reKey, t, hexec, hkey⟩ : ∃ reKey t, (askUpstream cfg u m (some pk)).exec p.state =
        (some { keyAvailable := true, reKey := reKey }, t) ∧ ∀ rk, reKey ≠ .evalKey (some rk) :=
      exec_askUpstream hup' fun h hauth => hbad ⟨h, hauth⟩
    have hanswer : (ReEncryptionKeyToBroker cfg k m (p.state.keyServers k)).exec p.state =
        (some { keyAvailable := true, reKey := reKey }, t) := by
      rw [ReEncryptionKeyToBroker_upstream hsk hp, hpk]
      unfold upstream
      rw [hu]
      exact hexec
    obtain ⟨-, rk, hrk⟩ := h.keyed _ (answers_of_exec hn hup hanswer) rfl
    exact hkey rk hrk

/-- **When the answers are consistent**: in every state of every run, for every request. -/
theorem consistent_iff (cfg : Config) (p : Pool World MessageReturn) (n k : ℕ) (m : MessageRequest)
    (hr : Reach (Pool.step (handler cfg)) (fun _ _ => True) ⟨initial, []⟩ p)
    (hn : p.threads[n]? = some (handler cfg (.keyServer k .ReEncryptionKeyToBroker m))) :
    Consistent cfg p n k m ↔ Sound cfg p.state k m :=
  ⟨sound_of_consistent hn, consistent_of_sound hr hn⟩

/-! ## A key server whose upstream key server does not have the key -/

/-- Key server 0 asks key server 1; a broker is in both access maps. -/
def twoKeyServers : Config where
  upstream_key_server k := if k = 0 then some 1 else none
  authorizedConsumers _ := ["B".toList]

def B : Params := ⟨"B".toList, "INDCPA".toList, 0⟩
def A : Params := ⟨"A".toList, "INDCPA".toList, 1⟩

/-- `B` asks for the key from `A`. -/
def request : MessageRequest :=
  BrokerServer.reKeyRequest broker "B".toList "A".toList broker

/-- The brokers `l` have started. -/
def started (l : List Broker) : World :=
  (l.map Call.start).foldl (fun w c => ((handler twoKeyServers c).exec w).2) initial

/-- Then `B` asks for the key. -/
theorem reach_request (l : List Broker) : ∃ t,
    Reach (Pool.step (handler twoKeyServers)) (fun _ _ => True) ⟨initial, []⟩
      (Pool.spawn ⟨started l, t⟩
        (handler twoKeyServers (.keyServer 0 .ReEncryptionKeyToBroker request))) := by
  obtain ⟨t, ht⟩ : ∃ t, Reach (Pool.step (handler twoKeyServers)) (fun _ _ => True) ⟨initial, []⟩
      ⟨started l, t⟩ :=
    Pool.reach_calls (fun _ _ => trivial) _ (fun _ _ _ => trivial) ⟨initial, []⟩
  exact ⟨t, ht.tail (.call (.keyServer 0 .ReEncryptionKeyToBroker request)) trivial⟩

theorem sound_started (l : List Broker) (hA : ((started l).keyServers 0).PrivateKeys
    (broker, "A".toList) = none) : Sound twoKeyServers (started l) 0 request ↔
      (((started l).keyServers 0).up = true → ((started l).keyServers 0).PublicKeys
        (broker, "B".toList) ≠ none → ((started l).keyServers 1).up = true →
          ((started l).keyServers 1).PrivateKeys (broker, "A".toList) ≠ none) := by
  have hA' : ((started l).keyServers 0).PrivateKeys
      (request.upstream_client_type, request.upstream_client_name) = none := hA
  unfold Sound
  rw [hA']
  refine ⟨fun h h0 hB h1 => (h h0 producer_ne_broker.symm hB 1 rfl h1).1, fun h h0 _ hB u hu hup => ?_⟩
  obtain rfl : 1 = u := Option.some.inj hu
  exact ⟨h h0 hB hup, List.mem_singleton_self _⟩

/-- Both brokers have started. -/
theorem consistent_two : ∃ p n rk, Consistent twoKeyServers p n 0 request ∧
    Answers twoKeyServers p n { keyAvailable := true, reKey := .evalKey (some rk) } := by
  obtain ⟨t, ht⟩ := reach_request [[A], [B]]
  have hn : (Pool.spawn ⟨started [[A], [B]], t⟩
      (handler twoKeyServers (.keyServer 0 .ReEncryptionKeyToBroker request))).threads[t.length]? =
        some (handler twoKeyServers (.keyServer 0 .ReEncryptionKeyToBroker request)) := by
    simp [Pool.spawn]
  refine ⟨_, t.length, ⟨.server 0, .server 1⟩,
    (consistent_iff twoKeyServers _ t.length 0 request ht hn).mpr ?_, ?_⟩
  · exact (sound_started _ (by decide +kernel)).mpr (by decide +kernel)
  · have hup : ((started [[A], [B]]).keyServers 0).up = true := by decide +kernel
    have hexec : ((ReEncryptionKeyToBroker twoKeyServers 0 request
        ((started [[A], [B]]).keyServers 0)).exec (started [[A], [B]])).1 =
          some { keyAvailable := true, reKey := .evalKey (some ⟨.server 0, .server 1⟩) } := by
      decide +kernel
    exact answers_of_exec hn hup (Prod.ext hexec rfl)

/-- `A` has not started: the answer is that there is a key, and none is in it. -/
theorem not_consistent : ¬ ∀ (cfg : Config) (p : Pool World MessageReturn) (n k : ℕ)
    (m : MessageRequest),
    Reach (Pool.step (handler cfg)) (fun _ _ => True) ⟨initial, []⟩ p →
    p.threads[n]? = some (handler cfg (.keyServer k .ReEncryptionKeyToBroker m)) →
    Consistent cfg p n k m := by
  intro h
  obtain ⟨t, ht⟩ := reach_request [[B]]
  have hn : (Pool.spawn ⟨started [[B]], t⟩
      (handler twoKeyServers (.keyServer 0 .ReEncryptionKeyToBroker request))).threads[t.length]? =
        some (handler twoKeyServers (.keyServer 0 .ReEncryptionKeyToBroker request)) := by
    simp [Pool.spawn]
  have hsound := sound_of_consistent hn (h twoKeyServers _ t.length 0 request ht hn)
  rw [show (Pool.spawn ⟨started [[B]], t⟩ _).state = started [[B]] from rfl] at hsound
  exact absurd ((sound_started [[B]] (by decide +kernel)).mp hsound) (by decide +kernel)

end ReKeys

end Pre

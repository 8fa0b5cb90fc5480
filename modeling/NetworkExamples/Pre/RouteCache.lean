import NetworkExamples.Pre.AccessControl
import NetworkExamples.Pre.Caches
import NetworkExamples.Pre.Closed

/-!
# Routes and ciphertexts

A broker takes the ciphertext of a channel that is in its routing table from its map without a look
whether it is there. It is there: in any run of brokers that have started with an empty file, a
channel is written to the file after the ciphertext of its producer has been stored.

* `route_cached`: also for a look at the file at one time, and a look at the map at a later one.
-/

namespace Pre

open Rpc BrokerServer Schedule

namespace RouteCache

/-! ## The invariant -/

/-- No null pointer is re-encrypted or sent. -/
def NonNull : Event → Prop
  | .reEncrypt ct _ => ct ≠ none
  | .sent _ _ ct => ct ≠ none

/-- **The invariant.** -/
structure Cached (w : World) : Prop where
  routes : ∀ b, w.Routes b
  cipherTexts : ∀ b P, (w.brokers b).brokerCipherTexts P ≠ some none
  log : ∀ e ∈ w.log, NonNull e

/-- Ciphertexts stay. -/
def Kept (s t : World) : Prop := ∀ b P, s.Holds b P → t.Holds b P

theorem Kept.refl (s : World) : Kept s s := fun _ _ h => h

theorem Kept.trans (s t u : World) (h : Kept s t) (h' : Kept t u) : Kept s u :=
  fun b P hP => h' b P (h b P hP)

def rely : Rely World where
  inv := Cached
  rel := Kept
  refl := Kept.refl
  trans := Kept.trans

variable {w t : World} {b : Broker} {P : Text} {m : MessageRequest}

theorem Cached.updateKs (h : Cached w) (k : ℕ) (f : KeyServer → KeyServer) :
    rely.inv (w.updateKs k f) ∧ rely.rel w (w.updateKs k f) :=
  ⟨⟨h.routes, h.cipherTexts, h.log⟩, fun _ _ hP => hP⟩

theorem Cached.brokerDown (h : Cached w) (b : Broker) :
    rely.inv (w.brokerDown b) ∧ rely.rel w (w.brokerDown b) := by
  refine ⟨⟨fun b' => ?_, fun b' P => ?_, h.log⟩, fun b' P => World.holds_brokerDown.mpr⟩
  · exact (h.routes b').mono World.routingTable_brokerDown fun P => World.holds_brokerDown.mpr
  · rw [World.cipherTexts_brokerDown]
    exact h.cipherTexts b' P

theorem Cached.setCipherText (h : Cached w) (b : Broker) (P : Text) (ct : Ciphertext) :
    rely.inv (w.setCipherText b P (some ct)) ∧ rely.rel w (w.setCipherText b P (some ct)) := by
  refine ⟨⟨fun b' => (h.routes b').setCipherText, fun b' P' => ?_, h.log⟩, fun b' P' hP => ?_⟩
  · rw [World.cipherTexts_setCipherText]
    split
    · exact fun hnone => by cases hnone
    · exact h.cipherTexts b' P'
  · exact World.holds_setCipherText.mpr (.inr hP)

/-- A channel is written to the file. -/
theorem Cached.setRoutingTable (h : Cached w) {ch up down : Text} {flag : Bool}
    (hr : Route.Ok ⟨ch, up, down, source_sink flag⟩) (hP : w.Holds b (producerName ch)) :
    rely.inv (w.setRoutingTable b fun table => UpdateRoutingTable table ch up down flag) ∧
      rely.rel w (w.setRoutingTable b fun table => UpdateRoutingTable table ch up down flag) := by
  refine ⟨⟨fun b' => (h.routes b').setRoutingTable hr hP, fun b' P => ?_, h.log⟩, fun b' P => ?_⟩
  · rw [World.cipherTexts_setRoutingTable]
    exact h.cipherTexts b' P
  · exact World.holds_setRoutingTable.mpr

theorem Cached.record (h : Cached w) {e : Event} (he : NonNull e) :
    rely.inv (w.record e) ∧ rely.rel w (w.record e) := by
  refine ⟨⟨h.routes, h.cipherTexts, fun e' he' => ?_⟩, fun _ _ hP => hP⟩
  rcases List.mem_append.mp he' with he' | he'
  · exact h.log e' he'
  · rwa [List.mem_singleton.mp he']

theorem closed_rely : Closed rely where
  ksDown _ k h := Cached.updateKs h k _
  setPublicKey _ k _ _ h := Cached.updateKs h k _
  setPrivateKey _ k _ _ h := Cached.updateKs h k _
  setRecdPublicKey _ k _ _ h := Cached.updateKs h k _
  setKeyPair _ _ _ h := ⟨⟨h.routes, h.cipherTexts, h.log⟩, fun _ _ hP => hP⟩

/-! ## The brokers -/

/-- The names of a request to a broker are words, and the names of the brokers. -/
structure Names (b : Broker) (m : MessageRequest) : Prop where
  client_name : Word m.client_name
  channel_name : Word m.channel_name
  process_name : ∀ p ∈ b, Word p.process_name

/-- What the brokers store and send is no null pointer. -/
def policy (cfg : Config) : Policy cfg True where
  G := rely
  Asks p up m := Names (p :: up) m
  Consumes p up m := Names (p :: up) m
  Fetches p up channel := Word channel ∧ ∀ q ∈ p :: up, Word q.process_name
  Serves _ _ := True
  stored _ _ ct := ct ≠ none
  kept := World.Holds
  sent _ _ ct := ct ≠ none
  operands ct _ := ct ≠ none
  publicKey _ _ _ _ := True
  rekey _ _ _ _ := True
  publicKeyC _ _ _ := True
  rekeyC _ _ _ := True
  kept_rel _ _ b P h := h b P
  brokerDown _ _ b h := Cached.brokerDown h b
  asks _ _ _ _ := trivial
  consumes _ _ _ _ := trivial
  routed t b dest channel routes h _ hparse hany := (h.routes b).holds hparse hany
  entry t b channel h _ hkept := by
    obtain ⟨ct, hct⟩ := hkept
    rw [hct]
    exact ⟨Option.some_ne_none ct, Cached.setCipherText h b _ ct⟩
  found t b channel ct h _ hct := by
    cases ct with
    | none => exact absurd hct (h.cipherTexts b _)
    | some ct => exact ⟨Option.some_ne_none ct, ct, hct⟩
  store t p q up channel ct h _ _ hct := by
    obtain ⟨ct, rfl⟩ := Option.ne_none_iff_exists'.mp hct
    obtain ⟨hinv, hrel⟩ := Cached.setCipherText h (p :: q :: up) (producerName channel) ct
    exact ⟨hinv, hrel, World.holds_setCipherText.mpr (.inl ⟨rfl, rfl⟩)⟩
  route t p up m h hm hkept := by
    have hm : Names (p :: up) m := hm.elim id id
    refine Cached.setRoutingTable h ⟨hm.channel_name.line, ?_, hm.client_name, ?_⟩ hkept
    · exact word_sender hm.process_name (word_producerName hm.channel_name)
    · exact word_source_sink _
  record _ _ _ h hop := Cached.record h hop
  send _ _ _ _ h hsent := Cached.record h hsent
  sent_stored _ _ _ _ _ h := h
  miss _ _ _ _ _ hm _ := ⟨⟨hm.channel_name, hm.process_name⟩,
    fun _ => closed_rely.safe_PublicKeyToBroker, fun _ => closed_rely.safe_ReEncryptionKeyToBroker⟩
  missC _ _ _ _ _ hm _ := ⟨hm.channel_name, hm.process_name⟩
  keysC _ _ _ _ :=
    ⟨fun _ => closed_rely.safe_PublicKeyToBroker, fun _ => closed_rely.safe_ReEncryptionKeyToBroker⟩
  keysForC _ _ _ _ _ _ _ :=
    ⟨fun _ => closed_rely.safe_PublicKeyToBroker, fun _ => closed_rely.safe_ReEncryptionKeyToBroker⟩
  fetches p q up channel hf _ :=
    ⟨hf.2 p (by simp), hf.1, fun q' hq' => hf.2 q' (List.mem_cons_of_mem p hq')⟩
  reEncrypted _ _ _ _ ct rk _ _ _ := by
    cases rk with
    | none => exact Option.some_ne_none ct
    | some r => exact ⟨Option.some_ne_none ct, Option.some_ne_none _⟩
  reEncryptedC _ _ _ ct rk _ hct _ := by
    cases rk with
    | none => exact hct
    | some r => exact ⟨hct, fun c _ => Option.some_ne_none _⟩

/-! ## The runs -/

/-- All calls of the key servers, and the calls of the brokers with words as names. -/
def Request : Call → Prop
  | .keyServer .. => True
  | .broker b _ m => Names b m
  | .start _ => False

theorem allowed {cfg : Config} {c : Call} (hc : Request c) : (policy cfg).Allowed c := by
  cases c with
  | keyServer => exact trivial
  | start => exact hc.elim
  | broker b rpc m =>
    cases b with
    | nil => cases rpc <;> exact trivial
    | cons p up =>
      cases rpc with
      | CipherTextToConsumer | ReEncryptedCipherTextToBroker => exact hc
      | CipherTextFromProducer =>
        exact ⟨fun t ct h => Cached.setCipherText h _ _ ct, fun ct _ => Option.some_ne_none ct⟩

variable {cfg : Config} {p q : Pool World MessageReturn}

/-- The brokers have started with empty routing tables. -/
structure Cleared (w : World) : Prop where
  routingTable : ∀ b, (w.brokers b).routingTable = []
  brokerCipherTexts : ∀ b P, (w.brokers b).brokerCipherTexts P = none
  log : w.log = []

theorem Cleared.cached (h : Cleared w) : Cached w where
  routes b := ⟨[], h.routingTable b, fun r hr => by cases hr⟩
  cipherTexts b P hnull := by
    rw [h.brokerCipherTexts b P] at hnull
    cases hnull
  log e he := by
    rw [h.log] at he
    cases he

/-! ### The start -/

theorem Cleared.updateBroker (h : Cleared w) (b : Broker) {g : BrokerServer → BrokerServer}
    (hg : (w.brokers b).routingTable = [] → (g (w.brokers b)).routingTable = [])
    (hg' : (∀ P, (w.brokers b).brokerCipherTexts P = none) →
      ∀ P, (g (w.brokers b)).brokerCipherTexts P = none) : Cleared (w.updateBroker b g) where
  routingTable b' := by
    by_cases hb : b' = b
    · subst hb
      simpa using hg (h.routingTable b')
    · rw [World.updateBroker_ne hb]
      exact h.routingTable b'
  brokerCipherTexts b' := by
    by_cases hb : b' = b
    · subst hb
      simpa using hg' (h.brokerCipherTexts b')
    · rw [World.updateBroker_ne hb]
      exact h.brokerCipherTexts b'
  log := h.log

theorem closed_cleared : Closed (.ofInv Cleared) where
  ksDown _ _ h := ⟨⟨h.routingTable, h.brokerCipherTexts, h.log⟩, trivial⟩
  setPublicKey _ _ _ _ h := ⟨⟨h.routingTable, h.brokerCipherTexts, h.log⟩, trivial⟩
  setPrivateKey _ _ _ _ h := ⟨⟨h.routingTable, h.brokerCipherTexts, h.log⟩, trivial⟩
  setRecdPublicKey _ _ _ _ h := ⟨⟨h.routingTable, h.brokerCipherTexts, h.log⟩, trivial⟩
  setKeyPair _ _ _ h := ⟨⟨h.routingTable, h.brokerCipherTexts, h.log⟩, trivial⟩

/-- Before the first request. -/
def starting (cfg : Config) : Policy cfg True where
  G := .ofInv Cleared
  Asks _ _ _ := False
  Consumes _ _ _ := False
  Fetches _ _ _ := False
  Serves _ _ := False
  stored _ _ _ := False
  kept _ _ _ := False
  sent _ _ _ := False
  operands _ _ := False
  publicKey _ _ _ _ := True
  rekey _ _ _ _ := True
  publicKeyC _ _ _ := True
  rekeyC _ _ _ := True
  kept_rel _ _ _ _ _ h := h
  brokerDown _ _ b h := ⟨Cleared.updateBroker h b (fun h => h) fun h => h, trivial⟩
  asks _ _ _ h := h
  consumes _ _ _ h := h
  routed _ _ _ _ _ _ h := h.elim
  entry _ _ _ _ h := h.elim
  found _ _ _ _ _ h := h.elim
  store _ _ _ _ _ _ _ h := h.elim
  route _ _ _ _ _ h := (h.elim id id).elim
  record _ _ _ _ h := h.elim
  send _ _ _ _ _ h := h.elim
  sent_stored _ _ _ _ h := h.elim
  miss _ _ _ _ _ h := h.elim
  missC _ _ _ _ _ h := h.elim
  keysC _ _ _ h := h.elim
  keysForC _ _ _ _ _ h := h.elim
  fetches _ _ _ _ h := h.elim
  reEncrypted _ _ _ _ _ _ h := h.elim
  reEncryptedC _ _ _ _ _ h := h.elim

/-- The brokers start, and the key servers are called. -/
def Start : Call → Prop
  | .broker .. => False
  | _ => True

theorem cleared_initial : Cleared initial := ⟨fun _ => rfl, fun _ _ => rfl, rfl⟩

/-- **The brokers that have started**, and have not yet been called. -/
theorem cleared_start
    (hr : Reach (Pool.step (handler cfg)) (fun _ a => ∀ c, a = .call c → Start c) ⟨initial, []⟩ p) :
    Cleared p.state := by
  have h0 : Pool.Good (starting cfg).G True (⟨initial, []⟩ : Pool World MessageReturn) :=
    ⟨cleared_initial, fun h hh => by cases hh⟩
  refine (Policy.good_reach closed_cleared h0 (hr.mono fun _ _ h c hc => ?_)).inv
  have hstart := h c hc
  cases c with
  | keyServer => exact trivial
  | start b => exact fun t ht => ⟨Cleared.updateBroker ht b (fun _ => rfl) fun _ _ => rfl, trivial⟩
  | broker => exact hstart.elim

/-! ### The requests -/

/-- The actions of a run. -/
def Ok (_ : Pool World MessageReturn) (a : Pool.Action Call) : Prop := ∀ c, a = .call c → Request c

/-- **A channel in the routing table has a ciphertext**, at any later time too, so that the look-up
without a test finds it, and no broker re-encrypts or sends a null pointer. -/
theorem route_cached (cfg : Config) (w : World) (hw : Cleared w) (p q : Pool World MessageReturn)
    (hp : Reach (Pool.step (handler cfg)) Ok ⟨w, []⟩ p) (hq : Reach (Pool.step (handler cfg)) Ok p q)
    (b : Broker) (dest : Text) :
    (∃ routes, ParseRoutingTable (p.state.brokers b).routingTable dest = some routes ∧
      ∀ r ∈ routes, ∃ ct,
        (q.state.brokers b).brokerCipherTexts (producerName r.channelName) = some (some ct) ∧
        ((entry b (producerName r.channelName)).exec q.state).1 = some (some ct)) ∧
    ∀ e ∈ q.state.log, NonNull e := by
  have hok : ∀ (p : Pool World MessageReturn) a, Ok p a →
      ∀ c, a = .call c → (policy cfg).Allowed c := fun _ _ h c hc => allowed (h c hc)
  have h0 : Pool.Good (policy cfg).G True (⟨w, []⟩ : Pool World MessageReturn) :=
    ⟨hw.cached, fun h hh => by cases hh⟩
  have hgood : p.Good (policy cfg).G True := Policy.good_reach closed_rely h0 (hp.mono hok)
  have hgood' : q.Good (policy cfg).G True := Policy.good_reach closed_rely hgood (hq.mono hok)
  have hrel : rely.rel p.state q.state := Policy.rel_reach closed_rely hgood (hq.mono hok)
  have hroutes : p.state.Routes b := hgood.inv.routes b
  refine ⟨?_, hgood'.inv.log⟩
  obtain ⟨routes, hparse⟩ := Option.ne_none_iff_exists'.mp (hroutes.parse dest)
  refine ⟨routes, hparse, fun r hr => ?_⟩
  have hany : routes.any (·.channelName = r.channelName) = true :=
    List.any_eq_true.mpr ⟨r, hr, by simp⟩
  obtain ⟨ct, hct⟩ := hrel b _ (hroutes.holds hparse hany)
  refine ⟨ct, hct, ?_⟩
  unfold entry
  rw [Handler.exec_act, hct]
  rfl

/-! ## A run -/

open AccessControl in
/-- A consumer asks for a text of a producer. -/
theorem route_cached_one : ∃ (t : World) (r : Route) (ct : Ciphertext),
    ParseRoutingTable (t.brokers [B]).routingTable c = some [r] ∧
      (t.brokers [B]).brokerCipherTexts (producerName r.channelName) = some (some ct) := by
  obtain ⟨l, hl⟩ : ∃ l, Reach (Pool.step (handler oneBroker)) (fun _ a => ∀ c, a = .call c → Start c)
      ⟨initial, []⟩ ⟨after oneBroker [.start [B]], l⟩ :=
    Pool.reach_allowed [Call.start [B]] (fun call hcall => List.mem_singleton.mp hcall ▸ trivial)
      ⟨initial, []⟩
  have hrequests : ∀ call ∈ (calls c (.client 1)).tail, Request call := by
    have hnames : ∀ m : MessageRequest, Word m.client_name → Word m.channel_name → Names [B] m :=
      fun m h h' => ⟨h, h', by decide⟩
    intro call hcall
    simp only [calls, List.tail_cons, List.mem_cons, List.not_mem_nil, or_false] at hcall
    rcases hcall with rfl | rfl | rfl | rfl | rfl
    · exact trivial
    · exact trivial
    · exact hnames _ (by decide) (by decide)
    · exact trivial
    · exact hnames _ (by decide) (by decide)
  obtain ⟨l', hl'⟩ : ∃ l, Reach (Pool.step (handler oneBroker)) Ok ⟨after oneBroker [.start [B]], []⟩
      ⟨after oneBroker (calls c (.client 1)), l⟩ :=
    Pool.reach_allowed (calls c (.client 1)).tail hrequests ⟨after oneBroker [.start [B]], []⟩
  obtain ⟨⟨routes, hparse, hroutes⟩, -⟩ :=
    route_cached oneBroker _ (cleared_start hl) _ _ hl' .refl [B] c
  have hroute : ParseRoutingTable ((after oneBroker (calls c (.client 1))).brokers [B]).routingTable c =
      some [⟨channel AccessControl.p c, AccessControl.p, c, "source".toList⟩] := by decide +kernel
  obtain rfl := Option.some.inj (hparse.symm.trans hroute)
  obtain ⟨ct, hct, -⟩ := hroutes _ (List.mem_singleton_self _)
  exact ⟨_, _, ct, hroute, hct⟩

end RouteCache

end Pre

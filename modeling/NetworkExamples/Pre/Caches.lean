import NetworkExamples.Pre.Broker

/-!
# The ciphertexts and the routing tables of the brokers

* `World.Holds`: a broker has a ciphertext of a producer.
* `World.Routes`: the routing table of a broker can be read, and names only producers whose ciphertexts
  the broker has.

What each change of the state does to both.
-/

namespace Pre

open BrokerServer

/-! ## The name of the producer -/

theorem producerName_channel {p c : Text} (hp : Plain p) (hc : Plain c) :
    producerName (channel p c) = p := by
  unfold producerName
  rw [splitString_channel hp hc]
  rfl

theorem producerName_cons (c : Char) (ch : Text) :
    producerName (c :: ch) = if c = '-' then [] else c :: producerName ch := by
  unfold producerName SplitString
  rw [List.splitOn_cons_eq_if_modifyHead]
  by_cases hc : c = '-'
  · rw [if_pos (beq_iff_eq.mpr hc), if_pos hc]
    rfl
  · rw [if_neg (mt beq_iff_eq.mp hc), if_neg hc]
    obtain ⟨x, l, hl⟩ := List.exists_cons_of_ne_nil (List.splitOn_ne_nil '-' ch)
    rw [hl]
    rfl

theorem word_producerName {ch : Text} (h : Word ch) : Word (producerName ch) := by
  induction ch with
  | nil => exact h
  | cons c ch ih =>
    rw [producerName_cons]
    split
    · exact fun _ hx => absurd hx List.not_mem_nil
    · intro x hx
      rcases List.mem_cons.mp hx with rfl | hx
      · exact h x List.mem_cons_self
      · exact ih (fun y hy => h y (List.mem_cons_of_mem c hy)) x hx

/-- The sender is the upstream broker, or the producer. -/
theorem word_sender {p : Params} {up : Broker} (hup : ∀ q ∈ p :: up, Word q.process_name)
    (hP : Word P) : Word (sender (p :: up) P).2 := by
  unfold sender
  split
  · exact hP
  · cases up with
    | nil => exact fun c hc => by cases hc
    | cons q up => exact hup q (by simp)

/-! ## The changes of the state -/

namespace World

variable {w t : World} {b b' : Broker} {P P' : Text} {e : Option Ciphertext} {f : Text → Text}

theorem cipherTexts_setCipherText :
    ((w.setCipherText b P e).brokers b').brokerCipherTexts P' =
      if b' = b ∧ P' = P then some e else (w.brokers b').brokerCipherTexts P' := by
  unfold setCipherText
  by_cases hb : b' = b
  · subst hb
    rw [updateBroker_self]
    change Function.update _ P _ P' = _
    by_cases hP : P' = P
    · subst hP
      rw [Function.update_self, if_pos ⟨rfl, rfl⟩]
    · rw [Function.update_of_ne hP, if_neg fun h => hP h.2]
  · rw [updateBroker_ne hb, if_neg fun h => hb h.1]

theorem cipherTexts_setCipherText_self :
    ((w.setCipherText b P e).brokers b).brokerCipherTexts P = some e :=
  cipherTexts_setCipherText.trans (if_pos ⟨rfl, rfl⟩)

theorem cipherTexts_setCipherText_ne (h : b' ≠ b ∨ P' ≠ P) :
    ((w.setCipherText b P e).brokers b').brokerCipherTexts P' =
      (w.brokers b').brokerCipherTexts P' :=
  cipherTexts_setCipherText.trans (if_neg fun h' => h.elim (fun h => h h'.1) fun h => h h'.2)

theorem up_setCipherText :
    ((w.setCipherText b P e).brokers b').up = (w.brokers b').up :=
  updateBroker_congr (g := fun s => { s with
    brokerCipherTexts := Function.update s.brokerCipherTexts P (some e) }) (v := BrokerServer.up)
    (fun _ => rfl) b'

theorem routingTable_setCipherText :
    ((w.setCipherText b P e).brokers b').routingTable = (w.brokers b').routingTable :=
  updateBroker_congr (g := fun s => { s with
    brokerCipherTexts := Function.update s.brokerCipherTexts P (some e) })
    (v := BrokerServer.routingTable) (fun _ => rfl) b'

theorem up_setRoutingTable : ((w.setRoutingTable b f).brokers b').up = (w.brokers b').up :=
  updateBroker_congr (g := fun s => { s with routingTable := f s.routingTable })
    (v := BrokerServer.up) (fun _ => rfl) b'

theorem cipherTexts_setRoutingTable :
    ((w.setRoutingTable b f).brokers b').brokerCipherTexts = (w.brokers b').brokerCipherTexts :=
  updateBroker_congr (g := fun s => { s with routingTable := f s.routingTable })
    (v := BrokerServer.brokerCipherTexts) (fun _ => rfl) b'

theorem routingTable_setRoutingTable :
    ((w.setRoutingTable b f).brokers b').routingTable =
      if b' = b then f (w.brokers b').routingTable else (w.brokers b').routingTable := by
  unfold setRoutingTable
  by_cases hb : b' = b
  · subst hb
    rw [updateBroker_self, if_pos rfl]
  · rw [updateBroker_ne hb, if_neg hb]

theorem cipherTexts_brokerDown :
    ((w.brokerDown b).brokers b').brokerCipherTexts = (w.brokers b').brokerCipherTexts :=
  updateBroker_congr (g := fun s => { s with up := false }) (v := BrokerServer.brokerCipherTexts)
    (fun _ => rfl) b'

theorem routingTable_brokerDown :
    ((w.brokerDown b).brokers b').routingTable = (w.brokers b').routingTable :=
  updateBroker_congr (g := fun s => { s with up := false }) (v := BrokerServer.routingTable)
    (fun _ => rfl) b'

/-! ## Who has a ciphertext -/

/-- The broker has a ciphertext of the producer. -/
def Holds (w : World) (b : Broker) (P : Text) : Prop :=
  ∃ ct, (w.brokers b).brokerCipherTexts P = some (some ct)

theorem holds_congr (h : (t.brokers b).brokerCipherTexts = (w.brokers b).brokerCipherTexts) :
    t.Holds b P ↔ w.Holds b P := by
  unfold Holds
  rw [h]

theorem holds_setCipherText {ct : Ciphertext} :
    (w.setCipherText b P (some ct)).Holds b' P' ↔ b' = b ∧ P' = P ∨ w.Holds b' P' := by
  unfold Holds
  rw [cipherTexts_setCipherText]
  by_cases h : b' = b ∧ P' = P
  · rw [if_pos h]
    exact ⟨fun _ => .inl h, fun _ => ⟨ct, rfl⟩⟩
  · rw [if_neg h]
    exact ⟨.inr, fun h' => h'.resolve_left h⟩

theorem holds_brokerDown : (w.brokerDown b).Holds b' P ↔ w.Holds b' P :=
  holds_congr cipherTexts_brokerDown

theorem holds_setRoutingTable : (w.setRoutingTable b f).Holds b' P ↔ w.Holds b' P :=
  holds_congr cipherTexts_setRoutingTable

/-! ## The routes -/

/-- The routing table can be read, and names only producers whose ciphertexts are there. -/
def Routes (w : World) (b : Broker) : Prop :=
  ∃ l, (w.brokers b).routingTable = render l ∧ ∀ r ∈ l, r.Ok ∧ w.Holds b (producerName r.channelName)

namespace Routes

theorem mono (h : w.Routes b) (htable : (t.brokers b).routingTable = (w.brokers b).routingTable)
    (hh : ∀ P, w.Holds b P → t.Holds b P) : t.Routes b := by
  obtain ⟨l, hl, hr⟩ := h
  exact ⟨l, htable.trans hl, fun r hmem => ⟨(hr r hmem).1, hh _ (hr r hmem).2⟩⟩

theorem setCipherText (h : w.Routes b) {ct : Ciphertext} :
    (w.setCipherText b' P (some ct)).Routes b :=
  h.mono routingTable_setCipherText fun _ hh => holds_setCipherText.mpr (.inr hh)

theorem setRoutingTable (h : w.Routes b') {ch up down : Text} {flag : Bool}
    (hr : Route.Ok ⟨ch, up, down, source_sink flag⟩) (hh : w.Holds b (producerName ch)) :
    (w.setRoutingTable b fun routingTable =>
      UpdateRoutingTable routingTable ch up down flag).Routes b' := by
  obtain ⟨l, hl, hroutes⟩ := h
  have hold : ∀ r ∈ l, r.Ok ∧ Holds (w.setRoutingTable b fun routingTable =>
      UpdateRoutingTable routingTable ch up down flag) b' (producerName r.channelName) :=
    fun r hmem => ⟨(hroutes r hmem).1, holds_setRoutingTable.mpr (hroutes r hmem).2⟩
  by_cases hb : b' = b
  · subst hb
    refine ⟨l ++ [⟨ch, up, down, source_sink flag⟩], ?_, fun r hmem => ?_⟩
    · rw [routingTable_setRoutingTable, if_pos rfl, hl, UpdateRoutingTable_render]
    · rcases List.mem_append.mp hmem with hmem | hmem
      · exact hold r hmem
      · obtain rfl := List.mem_singleton.mp hmem
        exact ⟨hr, holds_setRoutingTable.mpr hh⟩
  · exact ⟨l, by rw [routingTable_setRoutingTable, if_neg hb, hl], hold⟩

theorem parse (h : w.Routes b) (dest : Text) :
    ParseRoutingTable (w.brokers b).routingTable dest ≠ none := by
  obtain ⟨l, hl, hr⟩ := h
  obtain ⟨routes, hparse, -⟩ := ParseRoutingTable_render (fun r hmem => (hr r hmem).1) dest
  rw [hl, hparse]
  exact Option.some_ne_none routes

/-- A channel in the routing table is one of a producer whose ciphertext the broker has. -/
theorem holds (h : w.Routes b) {dest ch : Text} {routes : List Route}
    (hparse : ParseRoutingTable (w.brokers b).routingTable dest = some routes)
    (hany : routes.any (·.channelName = ch) = true) : w.Holds b (producerName ch) := by
  obtain ⟨l, hl, hr⟩ := h
  obtain ⟨routes', hparse', hnames⟩ := ParseRoutingTable_render (fun r hmem => (hr r hmem).1) dest
  rw [hl, hparse'] at hparse
  obtain rfl := Option.some.inj hparse
  obtain ⟨r, hmem, hch⟩ := List.any_eq_true.mp hany
  obtain rfl : r.channelName = ch := by simpa using hch
  obtain ⟨r', hmem', hname⟩ := hnames r hmem
  rw [hname]
  exact (hr r' hmem').2

end Routes

end World

end Pre

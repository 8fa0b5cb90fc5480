import NetworkExamples.PeerToPeer.Receive
import NetworkExamples.Rpc.AsyncProgress

/-!
# The server of a node

`HandleRpcs` of `node.h` with the servicers of `node_request.h`. The peers send to the node, and the
application of the node takes messages out of its queues in another thread. A peer sends the messages
of its script one after the other: it makes an attempt (`sendGRPCMsg`) until it is acknowledged.

* `delivers`: what is acknowledged is in the queues, once and in order, whatever the order of the
  events in the completion queue.
* `leaves`: when the loop of the server ends; `silenced`: one peer that goes away can end it.
-/

namespace PeerToPeer

open Async Schedule

structure ReturnMessage where
  acknowledgement : Bool

/-- The queues of a node, and its application. -/
structure Node where
  msgQueues : MsgQueues
  /-- `getMsg` has found the queue of this node not empty. -/
  receiver : Option String
  /-- Ghost: the messages popped, by the queues. -/
  popped : String → List MessageFormat

namespace Node

def init : Node := ⟨fun _ => [], none, fun _ => []⟩

/-- The replies to the one method of the server. -/
abbrev Reply (_ : RequestMessage) : Type := ReturnMessage

/-- The method `sendGRPCMsg` of the server. -/
def service : Service Unit Node Reply where
  kind _ := ()
  handle request node :=
    .ok (⟨true⟩, { node with msgQueues := MessageServicer node.msgQueues request })

/-- What the application does. -/
inductive Application (node : Node) : Node → Prop
  | getMsg (getFromNode : String) (hidle : node.receiver = none)
      (hne : node.msgQueues getFromNode ≠ []) :
      Application node { node with receiver := some getFromNode }
  | pop (getFromNode : String) (hfound : node.receiver = some getFromNode) : Application node
      { msgQueues := Function.update node.msgQueues getFromNode
          (PeerToPeer.pop (node.msgQueues getFromNode)).2
        receiver := none
        popped := Function.update node.popped getFromNode
          (node.popped getFromNode ++ [(PeerToPeer.pop (node.msgQueues getFromNode)).1]) }

/-- A peer sends the messages of its script. -/
def sendMsg : List MessageFormat → Next (List MessageFormat) Reply
  | [] => .stop
  | Msg :: script =>
    .call (sendGRPCMsg Msg) fun reply => if reply.acknowledgement then script else Msg :: script

/-- The node and its peers. -/
abbrev Network : Type := System Unit String Node (List MessageFormat) Reply

def HandleRpcs (script : String → List MessageFormat) : Network :=
  System.init [()] Node.init script

abbrev Runs : Network → Network → Prop := System.Runs service sendMsg Application

/-- The message that arrives. -/
def wire (Msg : MessageFormat) : MessageFormat := (sendGRPCMsg Msg).msg

variable {script : String → List MessageFormat} {x : Network} {peer : String}

theorem handleRpcs_inv (script : String → List MessageFormat) :
    (HandleRpcs script).Inv service sendMsg Set.univ :=
  .init_univ (List.nodup_singleton ()) (fun _ => List.mem_singleton_self ()) Node.init script

theorem runs_inv (hr : Runs (HandleRpcs script) x) : x.Inv service sendMsg Set.univ :=
  (handleRpcs_inv script).runs hr

/-! ## The atomic attempts are those of the exchange -/

/-- The state of the node and its peers, with atomic attempts, and that of the exchange. -/
structure Rel (script : String → List MessageFormat)
    (t : Atomic String Node (List MessageFormat)) (e : Exchange) : Prop where
  msgQueues : e.msgQueues = t.state.msgQueues
  receiver : e.receiver = t.state.receiver
  popped : e.popped = t.state.popped
  inFlight : ∀ peer, e.inFlight peer = none
  sent : ∀ peer, e.sent peer ++ (t.client peer).map wire = (script peer).map wire
  name : ∀ peer, ∀ Msg ∈ t.client peer, Msg.NodeName = peer

variable {t t' : Atomic String Node (List MessageFormat)} {e : Exchange}

/-- An attempt is sent, and handled. -/
theorem Rel.call (h : Rel script t e) {Msg : MessageFormat} {msgs : List MessageFormat}
    (hclient : t.client peer = Msg :: msgs) :
    ∃ e', Reach Exchange.step Exchange.OwnName e e' ∧
      Rel script ⟨{ t.state with msgQueues := MessageServicer t.state.msgQueues (sendGRPCMsg Msg) },
        Function.update t.client peer msgs⟩ e' := by
  have hname : Msg.NodeName = peer := h.name peer Msg (by simp [hclient])
  have hidle : (e.inFlight peer).isSome = false := by simp [h.inFlight peer]
  have hsend : e.step (.sendMsg peer Msg) = { e with
      inFlight := Function.update e.inFlight peer (some (sendGRPCMsg Msg))
      sent := Function.update e.sent peer (e.sent peer ++ [wire Msg]) } := by
    simp [Exchange.step, hidle, wire]
  have hproceed : (e.step (.sendMsg peer Msg)).step (.proceed peer) = { e with
      msgQueues := MessageServicer e.msgQueues (sendGRPCMsg Msg)
      inFlight := Function.update e.inFlight peer none
      sent := Function.update e.sent peer (e.sent peer ++ [wire Msg]) } := by
    rw [hsend]
    simp [Exchange.step]
  have hrun : Reach Exchange.step Exchange.OwnName e
      ((e.step (.sendMsg peer Msg)).step (.proceed peer)) :=
    (Reach.refl.tail (Exchange.Action.sendMsg peer Msg) hname).tail (.proceed peer) trivial
  refine ⟨_, hrun, ?_⟩
  rw [hproceed]
  refine ⟨by rw [h.msgQueues], h.receiver, h.popped, fun p => ?_, fun p => ?_, fun p m hm => ?_⟩
  · by_cases hp : p = peer
    · simp [hp]
    · simp [hp, h.inFlight p]
  · by_cases hp : p = peer
    · subst hp
      have hsent := h.sent p
      rw [hclient] at hsent
      simpa using hsent
    · simpa [hp] using h.sent p
  · by_cases hp : p = peer
    · subst hp
      exact h.name p m (by rw [hclient]; exact List.mem_cons_of_mem _ (by simpa using hm))
    · exact h.name p m (by simpa [hp] using hm)

theorem Rel.step (h : Rel script t e) (hs : Atomic.Step service sendMsg Application t t') :
    ∃ e', Reach Exchange.step Exchange.OwnName e e' ∧ Rel script t' e' := by
  cases hs with
  | @go i c hnext =>
    cases hc : t.client i with
    | nil => rw [hc] at hnext; cases hnext
    | cons Msg msgs => rw [hc] at hnext; cases hnext
  | @call i r k rep state hnext hhandle =>
    cases hc : t.client i with
    | nil => rw [hc] at hnext; cases hnext
    | cons Msg msgs =>
      rw [hc] at hnext
      cases hnext
      cases hhandle
      exact h.call hc
  | @env state henv =>
    cases henv with
    | getMsg n hidle hne =>
      have hstep : e.step (.getMsg n) = { e with receiver := some n } := by
        simp [Exchange.step, h.receiver, hidle, h.msgQueues, hne]
      refine ⟨_, Reach.refl.tail (Exchange.Action.getMsg n) trivial, ?_⟩
      rw [hstep]
      exact ⟨h.msgQueues, rfl, h.popped, h.inFlight, h.sent, h.name⟩
    | pop n hfound =>
      have hstep : e.step .pop = { e with
          msgQueues := Function.update e.msgQueues n (PeerToPeer.pop (e.msgQueues n)).2
          receiver := none
          popped := Function.update e.popped n
            (e.popped n ++ [(PeerToPeer.pop (e.msgQueues n)).1]) } := by
        simp [Exchange.step, h.receiver, hfound]
      refine ⟨_, Reach.refl.tail Exchange.Action.pop trivial, ?_⟩
      rw [hstep, h.msgQueues, h.popped]
      exact ⟨rfl, rfl, rfl, h.inFlight, h.sent, h.name⟩

theorem Rel.runs (h : Rel script t e) (hr : Atomic.Runs service sendMsg Application t t') :
    ∃ e', Reach Exchange.step Exchange.OwnName e e' ∧ Rel script t' e' := by
  induction hr with
  | refl => exact ⟨e, .refl, h⟩
  | tail _ hs ih =>
    obtain ⟨e', hre, hrel⟩ := ih
    obtain ⟨e'', hre', hrel'⟩ := hrel.step hs
    exact ⟨e'', hre.trans hre', hrel'⟩

/-! ## The runs -/

/-- **The acknowledged messages are delivered**: in every run, the messages popped for a peer, then
those queued, then those that it still has to send, are the messages of its script, in order. What
it still has to send is what it has not had acknowledged, or, while it waits for the
acknowledgement, that without the message it waits for. -/
theorem delivers (hname : ∀ peer, ∀ Msg ∈ script peer, Msg.NodeName = peer)
    (hr : Runs (HandleRpcs script) x) (peer : String) :
    ∃ rest, (rest = x.client peer ∨ x.phase peer ≠ .idle ∧ rest = (x.client peer).tail) ∧
      x.server.state.popped peer ++ x.server.state.msgQueues peer ++ rest.map wire =
        (script peer).map wire := by
  have hsim : Sim sendMsg (HandleRpcs script) ⟨Node.init, script⟩ :=
    .init (List.nodup_singleton ()) service Node.init script
  obtain ⟨t, hrt, hsim⟩ := hsim.runs (handleRpcs_inv script) hr
  have hrel : Rel script ⟨Node.init, script⟩ Exchange.init :=
    ⟨rfl, rfl, rfl, fun _ => rfl, fun _ => rfl, hname⟩
  obtain ⟨e, hre, hrel⟩ := hrel.runs hrt
  have hinv : e.Inv := hre.invariant Exchange.inv_init fun _ _ he ha => he.step ha
  refine ⟨t.client peer, ?_, ?_⟩
  · rcases hsim.client_or (runs_inv hr) peer with ht | ⟨hphase, r, k, reply, hnext, ht⟩
    · exact .inl ht
    · cases hc : x.client peer with
      | nil => rw [hc] at hnext; cases hnext
      | cons Msg msgs =>
        rw [hc] at hnext
        cases hnext
        rw [ht]
        by_cases hack : reply.acknowledgement = true
        · exact .inr ⟨hphase, if_pos hack⟩
        · exact .inl (if_neg hack)
  · have hsent := hinv.sent peer
    rw [Exchange.onTheWay, hrel.inFlight peer] at hsent
    rw [← hrel.sent peer, ← hsent, hrel.popped, hrel.msgQueues, hsim.state]
    simp

/-- Two messages are sent; the application takes one. -/
theorem delivers_two :
    let script : String → List MessageFormat := fun p =>
      if p = "A" then [⟨false, "A", "t", "1"⟩, ⟨false, "A", "t", "2"⟩] else []
    ∃ x, Runs (HandleRpcs script) x ∧ x.server.state.popped "A" = [⟨false, "A", "t", "1"⟩] ∧
      x.server.state.msgQueues "A" = [⟨false, "A", "t", "2"⟩] ∧ x.client "A" = [] ∧
      ∃ rest, (rest = x.client "A" ∨ x.phase "A" ≠ .idle ∧ rest = (x.client "A").tail) ∧
        x.server.state.popped "A" ++ x.server.state.msgQueues "A" ++ rest.map wire =
          (script "A").map wire := by
  intro script
  have hname : ∀ peer, ∀ Msg ∈ script peer, Msg.NodeName = peer := by
    intro peer Msg hMsg
    by_cases hp : peer = "A"
    · subst hp
      rcases (by simpa [script] using hMsg : Msg = _ ∨ Msg = _) with rfl | rfl <;> rfl
    · simp [script, hp] at hMsg
  have hrun : Atomic.Runs service sendMsg Application ⟨Node.init, script⟩ _ :=
    (((Relation.ReflTransGen.single (.call (i := "A") rfl rfl)).tail
      (.call (i := "A") rfl rfl)).tail (.env (.getMsg "A" rfl (by decide)))).tail
        (.env (.pop "A" rfl))
  obtain ⟨x, hr, -, -, ht⟩ := (handleRpcs_inv script).performs_runs
    (System.init_up [()] Node.init script) (System.init_quiet [()] Node.init script) hrun
  have hstate := congrArg Atomic.state ht
  have hclient := congrArg (fun t => Atomic.client t "A") ht
  dsimp only at hstate hclient
  refine ⟨x, hr, ?_, ?_, ?_, delivers hname hr "A"⟩
  · rw [hstate]
    decide
  · rw [hstate]
    decide
  · rw [hclient]
    rfl

/-- **When the loop of the node ends**: no event makes it use a servicer that was deleted, and no
handler throws; it ends after `Stop`, or after a peer has gone away. If none has, then every attempt
that the runtime had given to a servicer has been handled before. -/
theorem leaves (hr : Runs (HandleRpcs script) x) {tag fresh : ℕ} {ok : Bool} {e : Exit}
    (hop : (tag, .done ok) ∈ x.server.ops) (hturn : x.server.turn service tag ok fresh = .error e) :
    e = .notOk ∧ (x.server.down = true ∨ ∃ peer, x.gone peer = true) ∧
      ((∀ peer, x.gone peer = false) →
        ∀ a peer request, ¬ x.server.Holds a ⟨peer, request, none⟩) := by
  have hinv := runs_inv hr
  obtain ⟨i, r, m, -, hm, -⟩ | ⟨rfl, rfl, hor⟩ := hinv.turn_error hop hturn
  · cases hm
  · refine ⟨rfl, hor, fun hgone a peer request hhold => ?_⟩
    obtain ⟨k, -, -, hne⟩ := hinv.handled_of_notOk hgone hop
    exact hne a peer request hhold rfl

/-- The node is stopped before a message comes. -/
theorem leaves_stop :
    let script : String → List MessageFormat := fun _ => [⟨false, "A", "t", "1"⟩]
    let x : Network := { HandleRpcs script with server := (HandleRpcs script).server.shutdown }
    x.server.turn service 0 false 1 = .error .notOk ∧
      (x.server.down = true ∨ ∃ peer, x.gone peer = true) := by
  intro script x
  have hrun : Runs (HandleRpcs script) x := .single .shutdown
  have hturn : x.server.turn service 0 false 1 = .error .notOk := rfl
  exact ⟨hturn, (leaves hrun List.mem_cons_self hturn).2.1⟩

/-- **One peer can silence a node**: in every state in which an attempt of the peer has been given to
a servicer, the peer can go away, and then the loop of the node ends, for all peers. -/
theorem silenced (hr : Runs (HandleRpcs script) x) {a : ℕ} (hphase : x.phase peer = .taken a) :
    ∃ x', Runs x x' ∧ x'.server.down = x.server.down ∧ (∀ p, p ≠ peer → x'.gone p = x.gone p) ∧
      ∃ tag, (tag, .done false) ∈ x'.server.ops ∧
        ∀ fresh, x'.server.turn service tag false fresh = .error .notOk :=
  (runs_inv hr).ends_of_leave hphase (fun _ _ => ⟨_, rfl⟩) Application

/-- Peer `A` goes away while the node has its attempt. -/
theorem silenced_one :
    let script : String → List MessageFormat := fun _ => [⟨false, "A", "t", "1"⟩]
    ∃ x x', Runs (HandleRpcs script) x ∧ Runs x x' ∧ (∀ p, p ≠ "A" → x'.gone p = false) ∧
      x'.server.down = false ∧ ∃ tag, (tag, .done false) ∈ x'.server.ops ∧
        ∀ fresh, x'.server.turn service tag false fresh = .error .notOk := by
  intro script
  have hsend : System.Step service sendMsg Application (HandleRpcs script) _ :=
    .send (i := "A") rfl rfl rfl
  have htake : System.Step service sendMsg Application _ _ :=
    .take (i := "A") (a := 0) (x := { HandleRpcs script with
      phase := Function.update (HandleRpcs script).phase "A" .sent }) rfl (by simp) rfl
      List.mem_cons_self rfl rfl
  have hr : Runs (HandleRpcs script) _ := .tail (.single hsend) htake
  obtain ⟨x', hr', hdown, hgone, hend⟩ := @silenced _ _ "A" hr 0 (by simp)
  exact ⟨_, x', hr, hr', hgone, hdown, hend⟩

end Node

end PeerToPeer

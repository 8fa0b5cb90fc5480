import NetworkExamples.PeerToPeer.Queue
import NetworkExamples.Rpc.Schedule

/-!
# Senders and the receiver

Peers send messages to a node, and the node takes messages of any type out of its queues. A send
(`sendMsg`) is an attempt that is in flight until the node's server has handled it; the server
acknowledges each attempt once, and the peer goes on. The server (`node_request.h`) and the
application of the node are two threads: between the two looks of `getMsg` into a queue, whether it
is empty and what is in front, the server may push.

* `Inv.step`, `no_loss`: in every run the messages popped for a peer, then those queued, then the
  one on the way, are the messages that the peer has sent, in order.
-/

namespace PeerToPeer

/-- What an attempt carries (`peer_to_peer.proto`). -/
structure RequestMessage where
  node_name : String
  data : String
  data_type : String
  deriving DecidableEq

/-- The request of an attempt. -/
def sendGRPCMsg (Msg : MessageFormat) : RequestMessage := ⟨Msg.NodeName, Msg.Data, Msg.msgType⟩

/-- The message that the server makes of a request. -/
def RequestMessage.msg (request : RequestMessage) : MessageFormat :=
  ⟨false, request.node_name, request.data_type, request.data⟩

/-- The server handles a request. -/
def MessageServicer (msgs : MsgQueues) (request : RequestMessage) : MsgQueues :=
  Function.update msgs request.node_name (msgs request.node_name ++ [request.msg])

/-- A node and the peers that send to it. -/
structure Exchange where
  msgQueues : MsgQueues
  /-- The attempts in flight, by the peers that make them. -/
  inFlight : String → Option RequestMessage
  /-- `getMsg` has found the queue of this node not empty. -/
  receiver : Option String
  /-- Ghost: the messages that the calls of `sendMsg` were made with, by peers. -/
  sent : String → List MessageFormat
  /-- Ghost: the messages popped, by the queues. -/
  popped : String → List MessageFormat

namespace Exchange

inductive Action where
  /-- A peer that sends nothing else begins to send a message. -/
  | sendMsg (peer : String) (Msg : MessageFormat)
  /-- The server handles the attempt of a peer, and the peer gets the acknowledgement. -/
  | proceed (peer : String)
  /-- The application calls `getMsg`, which looks whether the queue is empty. -/
  | getMsg (getFromNode : String)
  /-- It was not, and `getMsg` pops. -/
  | pop

/-- The peer of an action. -/
def Action.peer (e : Exchange) : Action → Option String
  | .sendMsg peer _ | .proceed peer => some peer
  | .getMsg getFromNode => some getFromNode
  | .pop => e.receiver

def init : Exchange where
  msgQueues _ := []
  inFlight _ := none
  receiver := none
  sent _ := []
  popped _ := []

def step (e : Exchange) : Action → Exchange
  | .sendMsg peer Msg =>
    if (e.inFlight peer).isSome then e
    else
      { e with
        inFlight := Function.update e.inFlight peer (some (sendGRPCMsg Msg))
        sent := Function.update e.sent peer (e.sent peer ++ [(sendGRPCMsg Msg).msg]) }
  | .proceed peer =>
    match e.inFlight peer with
    | none => e
    | some request =>
      { e with
        msgQueues := MessageServicer e.msgQueues request
        inFlight := Function.update e.inFlight peer none }
  | .getMsg getFromNode =>
    if e.receiver.isSome ∨ (e.msgQueues getFromNode).isEmpty then e
    else { e with receiver := some getFromNode }
  | .pop =>
    match e.receiver with
    | none => e
    | some getFromNode =>
      { e with
        msgQueues :=
          Function.update e.msgQueues getFromNode (PeerToPeer.pop (e.msgQueues getFromNode)).2
        receiver := none
        popped := Function.update e.popped getFromNode
          (e.popped getFromNode ++ [(PeerToPeer.pop (e.msgQueues getFromNode)).1]) }

/-- The message of a peer that has not arrived yet. -/
def onTheWay (e : Exchange) (peer : String) : List MessageFormat :=
  (e.inFlight peer).toList.map RequestMessage.msg

/-- Every peer sends under its own name. -/
def OwnName (_ : Exchange) : Action → Prop
  | .sendMsg peer Msg => Msg.NodeName = peer
  | _ => True

/-! ## What holds in all runs -/

structure Inv (e : Exchange) : Prop where
  /-- An attempt carries the name of its peer. -/
  inFlight : ∀ peer request, e.inFlight peer = some request → request.node_name = peer
  /-- The queue that `getMsg` is about to pop is still not empty. -/
  receiver : ∀ getFromNode, e.receiver = some getFromNode → e.msgQueues getFromNode ≠ []
  sent : ∀ peer, e.popped peer ++ e.msgQueues peer ++ e.onTheWay peer = e.sent peer

variable {e : Exchange} {a : Action}

open Schedule

theorem inv_init : init.Inv where
  inFlight _ _ h := by cases h
  receiver _ h := by cases h
  sent _ := rfl

theorem pop_of_ne_nil {Queue : List MessageFormat} (h : Queue ≠ []) :
    (PeerToPeer.pop Queue).1 :: (PeerToPeer.pop Queue).2 = Queue := by
  obtain ⟨m, Queue, rfl⟩ := List.exists_cons_of_ne_nil h
  rfl

theorem Inv.proceed (h : e.Inv) (peer : String) : (e.step (.proceed peer)).Inv := by
  unfold step
  dsimp only
  split
  · exact h
  · next request hr =>
    have hname := h.inFlight peer request hr
    refine ⟨fun p r hp => ?_, fun n hn => ?_, fun p => ?_⟩
    · by_cases hpp : p = peer
      · simp [hpp] at hp
      · exact h.inFlight p r (by simpa [hpp] using hp)
    · by_cases hnp : n = request.node_name
      · simp [MessageServicer, hnp]
      · simpa [MessageServicer, hnp] using h.receiver n hn
    · by_cases hpp : p = peer
      · subst hpp
        simp [MessageServicer, hname, ← h.sent, onTheWay, hr]
      · simpa [MessageServicer, hname, hpp, onTheWay] using h.sent p

theorem Inv.pop (h : e.Inv) : (e.step .pop).Inv := by
  unfold step
  dsimp only
  split
  · exact h
  · next n hn =>
    refine ⟨h.inFlight, nofun, fun p => ?_⟩
    by_cases hp : p = n
    · subst hp
      have hpop := pop_of_ne_nil (h.receiver p hn)
      rw [← h.sent p]
      simp only [Function.update_self, List.append_assoc, List.singleton_append]
      rw [hpop]
      rfl
    · simpa [hp, onTheWay] using h.sent p

/-- **Every step keeps the invariant.** -/
theorem Inv.step (h : e.Inv) (ha : OwnName e a) : (e.step a).Inv := by
  cases a with
  | sendMsg peer Msg =>
    unfold Exchange.step
    dsimp only
    split
    · exact h
    · next hidle =>
      refine ⟨fun p r hp => ?_, h.receiver, fun p => ?_⟩
      · by_cases hpp : p = peer
        · simp only [hpp, Function.update_self, Option.some.injEq] at hp
          rw [← hp, hpp]
          exact ha
        · exact h.inFlight p r (by simpa [hpp] using hp)
      · by_cases hpp : p = peer
        · subst hpp
          have hnone : e.inFlight p = none := by simpa using hidle
          simp [← h.sent, onTheWay, hnone]
        · simpa [hpp, onTheWay] using h.sent p
  | proceed peer => exact h.proceed peer
  | getMsg n =>
    unfold Exchange.step
    dsimp only
    split
    · exact h
    · next hn =>
      refine ⟨h.inFlight, fun n' hn' => ?_, h.sent⟩
      cases hn'
      simp only [not_or, List.isEmpty_iff] at hn
      exact hn.2
  | pop => exact h.pop

/-- A step about one peer leaves the queues of the others alone. -/
theorem Inv.msgQueues_of_ne (h : e.Inv) {peer : String} (hp : a.peer e ≠ some peer) :
    (e.step a).msgQueues peer = e.msgQueues peer := by
  cases a with
  | sendMsg p Msg =>
    unfold Exchange.step
    dsimp only
    split <;> rfl
  | proceed p =>
    unfold Exchange.step
    dsimp only
    split
    · rfl
    · next request hr =>
      have hne : peer ≠ request.node_name := by
        rw [h.inFlight p request hr]
        exact fun hpp => hp (congrArg some hpp.symm)
      simp [MessageServicer, hne]
  | getMsg n =>
    unfold Exchange.step
    dsimp only
    split <;> rfl
  | pop =>
    unfold Exchange.step
    dsimp only
    split
    · rfl
    · next n hn =>
      have hne : peer ≠ n := by
        rintro rfl
        exact hp hn
      simp [hne]

/-- **No loss, no duplication, no reordering**, in any run in which every peer sends under its own
name; and a step about one peer leaves the queues of the others alone. -/
theorem no_loss (h : Reach step OwnName init e) (peer : String) :
    e.popped peer ++ e.msgQueues peer ++ e.onTheWay peer = e.sent peer ∧
      ∀ a, OwnName e a → a.peer e ≠ some peer →
        (e.step a).msgQueues peer = e.msgQueues peer := by
  have hinv : e.Inv := h.invariant inv_init fun _ _ he ha => he.step ha
  exact ⟨hinv.sent peer, fun _ _ hp => hinv.msgQueues_of_ne hp⟩

/-- Two messages are sent, one of them popped. -/
theorem no_loss_two : ∃ e : Exchange, Reach step OwnName init e ∧
    e.popped "A" = [⟨false, "A", "t", "1"⟩] ∧ e.msgQueues "A" = [⟨false, "A", "t", "2"⟩] ∧
      e.popped "A" ++ e.msgQueues "A" ++ e.onTheWay "A" = e.sent "A" := by
  have hinit : Reach step OwnName init init := .refl
  have hrun := (((((hinit.tail
    (.sendMsg "A" ⟨false, "A", "t", "1"⟩) rfl).tail (.proceed "A") trivial).tail
    (.sendMsg "A" ⟨false, "A", "t", "2"⟩) rfl).tail (.proceed "A") trivial).tail
    (.getMsg "A") trivial).tail .pop trivial
  exact ⟨_, hrun, by decide, by decide, (no_loss hrun "A").1⟩

end Exchange

end PeerToPeer

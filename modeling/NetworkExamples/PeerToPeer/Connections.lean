import NetworkExamples.PeerToPeer.AddNodes
import NetworkExamples.PeerToPeer.Send

/-!
# The connections of a node

A node notes in `establishedConnections` to which peers it has sent (`node.h`); later sends to such
a peer do not connect first. `sendMsg` makes the note at its end, also when it has timed out.

* `Send.GivesUp`: when a send returns without an acknowledgement (`Send.gives_up_iff`).
* `Sends`: the runs of a node, send by send. The node's state keeps all attempts it has made.
* `connection_flags_iff`: when the notes are true.
-/

namespace PeerToPeer

open Pre (Text)
open Retry

/-! ## Sends without an acknowledgement -/

namespace Send

variable {S : Send} {w k : ℕ}

instance (j : ℕ) : Decidable (S.GoesOn j) := by unfold GoesOn; infer_instance

/-- The first loop, if there is one, ends with attempt `w`. -/
def ConnectsAt (S : Send) (w : ℕ) : Prop :=
  if S.Overrides then (∀ j < w, S.GoesOn j) ∧ ¬ S.GoesOn w else w = 0

/-- The time-out of the second loop passes in turn `t`, and no attempt up to then is acknowledged. -/
def GivesUp (S : Send) : Prop :=
  ∃ w t, S.ConnectsAt w ∧ (∀ u < t, ¬ S.loop.TimedOut (UInt32.ofNat u)) ∧
    S.loop.TimedOut (UInt32.ofNat t) ∧ ∀ j < w + t + 2, S.outcome j ≠ .acknowledged

/-- The call has returned, and no attempt has been acknowledged. -/
def Unanswered (S : Send) : State → Prop
  | .connecting .. => False
  | .waiting s => s.finished = true ∧ ∀ j < s.attempts, S.outcome j ≠ .acknowledged

theorem run_waiting {k : ℕ} {r : Retry.State Outcome} (h : S.run k = .waiting r) (i : ℕ) :
    S.run (k + i) = .waiting (S.loop.run r i) := by
  induction i with
  | zero => exact h
  | succ i ih =>
    rw [← Nat.add_assoc, run_succ, ih, Loop.run_succ]
    rfl

/-- The second loop begins with the reply of the attempt that ended the first. -/
theorem exists_run_start (h : S.ConnectsAt w) :
    ∃ m, S.run m = .waiting (S.loop.start (w + 1)) := by
  unfold ConnectsAt at h
  split at h
  · next ho =>
    refine ⟨w + 1, ?_⟩
    rw [run_succ, run_connecting ho h.1, next_connecting_of_not ho h.2]
    rfl
  · next ho =>
    subst h
    exact ⟨0, if_neg ho⟩

theorem exists_connectsAt {r : Retry.State Outcome} (h : S.run k = .waiting r) :
    ∃ w, S.ConnectsAt w := by
  unfold ConnectsAt
  by_cases ho : S.Overrides
  · have hex : ∃ w, ¬ S.GoesOn w := by
      by_contra hno
      push Not at hno
      rw [run_connecting ho fun j _ => hno j] at h
      cases h
    refine ⟨Nat.find hex, ?_⟩
    rw [if_pos ho]
    exact ⟨fun j hj => not_not.mp (Nat.find_min hex hj), Nat.find_spec hex⟩
  · exact ⟨0, by rw [if_neg ho]⟩

theorem succeeds_iff (reply : Outcome) : S.loop.succeeds reply = true ↔ reply = .acknowledged := by
  simp [loop]

/-- A call that gives up returns without an acknowledgement. -/
theorem GivesUp.exists_unanswered (h : S.GivesUp) : ∃ k, S.Unanswered (S.run k) := by
  obtain ⟨w, t, hw, hbefore, ht, hout⟩ := h
  obtain ⟨m, hm⟩ := exists_run_start hw
  have hfail : ∀ j ≤ t, S.loop.succeeds (S.loop.attempt (w + j)) = false := by
    intro j hj
    rw [← Bool.not_eq_true, succeeds_iff]
    exact hout (w + j) (by omega)
  obtain ⟨hfin, hattempts⟩ := Loop.run_last w (fun j hj => hfail j (by omega)) hbefore (.inr ht)
  rw [hfail t (Nat.le_refl t), if_neg Bool.false_ne_true] at hattempts
  refine ⟨m + (t + 1), ?_⟩
  rw [run_waiting hm]
  refine ⟨hfin, fun j hj => hout j ?_⟩
  rwa [hattempts] at hj

/-- The second loop of a call that returns, from its start to its end. -/
theorem exists_loop_run {r : Retry.State Outcome} (h : S.run k = .waiting r)
    (hfin : r.finished = true) : ∃ w, S.ConnectsAt w ∧ S.loop.run (S.loop.start (w + 1)) k = r := by
  obtain ⟨w, hw⟩ := exists_connectsAt h
  obtain ⟨m, hm⟩ := exists_run_start hw
  -- Turn `m + k` is turn `k` from the start of the loop, and a turn after the end.
  have hstart := run_waiting hm k
  have hend := run_waiting h m
  rw [Loop.run_of_finished hfin, Nat.add_comm, hstart] at hend
  exact ⟨w, hw, State.waiting.inj hend⟩

/-- A call that returns without an acknowledgement has given up. -/
theorem Unanswered.givesUp (h : S.Unanswered (S.run k)) : S.GivesUp := by
  cases hrun : S.run k with
  | connecting =>
    rw [hrun] at h
    exact h.elim
  | waiting r =>
    rw [hrun] at h
    obtain ⟨hfin, hout⟩ := h
    obtain ⟨w, hw, hr⟩ := exists_loop_run hrun hfin
    rw [← hr] at hfin hout
    obtain ⟨t, hbefore, ⟨hs, hattempts⟩ | ⟨ht, hattempts⟩⟩ := Loop.finished_cases w hfin
    · rw [hattempts] at hout
      exact absurd ((succeeds_iff _).mp hs) (hout (w + t) (Nat.lt_succ_self _))
    · rw [hattempts] at hout
      exact ⟨w, t, hw, hbefore, ht, hout⟩

/-- **When a call returns without an acknowledgement**: if it gives up. -/
theorem gives_up_iff : (∃ k, S.Unanswered (S.run k)) ↔ S.GivesUp := by
  constructor
  · rintro ⟨k, hk⟩
    exact hk.givesUp
  · exact GivesUp.exists_unanswered

end Send

/-! ## The node -/

/-- A call of `sendMsg`. -/
structure SendCall where
  sendtoNode : Text
  sleepTimeMsec : usint
  timeoutMsec : usint
  allowOverride : Bool

/-- The calls that send. -/
inductive Call where
  | sendMsg (call : SendCall)
  /-- `serialized` is the serialized object. -/
  | sendSerialMsg (serialized : Text) (sendtoNode : Text) (sleepTimeMsec timeoutMsec : usint)
  | broadcastMsg (toSendTo : Map Text) (sleepTimeMsec timeoutMsec : usint)

/-- The calls of `sendMsg` that a call makes. An empty serialization throws before. -/
def Call.sends : Call → List SendCall
  | sendMsg call => [call]
  | sendSerialMsg serialized sendtoNode sleepTimeMsec timeoutMsec =>
    if serialized.isEmpty then [] else [⟨sendtoNode, sleepTimeMsec, timeoutMsec, true⟩]
  | broadcastMsg toSendTo sleepTimeMsec timeoutMsec =>
    toSendTo.toList.map fun entry => ⟨entry.1, sleepTimeMsec, timeoutMsec, true⟩

/-- No connection flag is set. -/
def NodeImpl.Unconnected (node : NodeImpl) : Prop :=
  ∀ n : Text, node.establishedConnections[n]? ≠ some true

/-- A node, with the attempts it has made: to whom, and what has come of them. -/
structure Sender where
  node : NodeImpl
  attempts : List (Text × Outcome)

namespace Sender

/-- The call in this state; `net` tells what comes of each attempt of the node. -/
def send (net : ℕ → Outcome) (s : Sender) (call : SendCall) : Send where
  outcome j := net (s.attempts.length + j)
  establishedConnection := s.node.establishedConnections.getD call.sendtoNode false
  allowOverride := call.allowOverride
  sleepTimeMsec := call.sleepTimeMsec
  timeoutMsec := call.timeoutMsec

/-- The state after a call that has made `n` attempts. -/
def sent (net : ℕ → Outcome) (s : Sender) (call : SendCall) (n : ℕ) : Sender where
  node := { s.node with
    establishedConnections := s.node.establishedConnections.insert call.sendtoNode true }
  attempts := s.attempts ++
    (List.range n).map fun j => (call.sendtoNode, (s.send net call).outcome j)

/-- `none`: the call has not returned after `fuel` turns of its loops, or it has ended the program,
since the map does not name the node. -/
def sendMsg (net : ℕ → Outcome) (fuel : ℕ) (call : SendCall) (s : Sender) : Option Sender :=
  if call.sendtoNode ∈ s.node.connectedAddresses then
    match (s.send net call).run fuel with
    | .connecting .. => none
    | .waiting r => if r.finished then some (s.sent net call r.attempts) else none
  else none

/-- An attempt to send to the node has been acknowledged. -/
def Acknowledged (s : Sender) (n : Text) : Prop := (n, .acknowledged) ∈ s.attempts

/-- The connection flags are true. -/
def Truthful (s : Sender) : Prop :=
  ∀ n : Text, s.node.establishedConnections[n]? = some true → s.Acknowledged n

/-- A node that has not sent. -/
structure Fresh (s : Sender) : Prop where
  unconnected : s.node.Unconnected
  attempts : s.attempts = []

end Sender

/-- The runs: these sends have returned, one after the other. -/
inductive Sends (net : ℕ → Outcome) (s : Sender) : List SendCall → Sender → Prop
  | nil : Sends net s [] s
  | send {calls : List SendCall} {t u : Sender} {call : SendCall} {fuel : ℕ} :
    Sends net s calls t → t.sendMsg net fuel call = some u → Sends net s (calls ++ [call]) u

/-- The connection flags are true in every state that the calls reach. -/
def AlwaysTruthful (net : ℕ → Outcome) (s : Sender) (calls : List Call) : Prop :=
  ∀ done t, done <+: calls.flatMap Call.sends → Sends net s done t → t.Truthful

variable {net : ℕ → Outcome} {s t u : Sender} {call : SendCall} {n : Text}

/-! ## Nodes from the network map -/

theorem unconnected_addPeer {node node' : NodeImpl} {peer : Text} (h : node.Unconnected)
    (hpeer : addPeer node peer = some node') : node'.Unconnected := by
  unfold addPeer at hpeer
  simp only [Option.bind_eq_bind, Option.bind_eq_some_iff, Option.pure_def, Option.some.injEq] at hpeer
  obtain ⟨_, -, name, -, address, -, rfl⟩ := hpeer
  intro n
  rw [Map.getElem?_insert]
  split
  · simp
  · exact h n

theorem unconnected_addPeers {node node' : NodeImpl} {peers : List Text} (h : node.Unconnected)
    (hpeers : peers.foldlM addPeer node = some node') : node'.Unconnected := by
  induction peers generalizing node with
  | nil =>
    obtain rfl := Option.some.inj hpeers
    exact h
  | cons peer peers ih =>
    rw [List.foldlM_cons] at hpeers
    obtain ⟨node₁, hpeer, hpeers⟩ := Option.bind_eq_some_iff.mp hpeers
    exact ih (unconnected_addPeer h hpeer) hpeers

theorem unconnected_readData {node : NodeImpl} {NodeName data : Text} {node_found : Bool}
    {s : Text × Bool × NodeImpl} (h : node.Unconnected)
    (hread : readData NodeName data node_found node = some s) : s.2.2.Unconnected := by
  by_cases hfor : IsFor NodeName data
  · rw [readData_of_isFor hfor] at hread
    obtain ⟨nodes, -, hread⟩ := Option.bind_eq_some_iff.mp hread
    obtain ⟨node', hfold, rfl⟩ := Option.map_eq_some_iff.mp hread
    exact unconnected_addPeers h hfold
  · rw [readData_of_not_isFor hfor] at hread
    obtain rfl := Option.some.inj hread
    exact h

namespace LookUp

/-- No connection flag is set. -/
def Unconnected : LookUp → Prop
  | reading _ _ _ node => node.Unconnected
  | returned _ node => node.Unconnected
  | outOfRange => True

theorem unconnected_next {NodeName : Text} {l : LookUp} (h : l.Unconnected) :
    (next NodeName l).Unconnected := by
  have hdata : ∀ NetworkMap data node_found node, node.Unconnected →
      (ofData NetworkMap (readData NodeName data node_found node)).Unconnected := by
    intro NetworkMap data node_found node hnode
    cases hread : readData NodeName data node_found node with
    | none => trivial
    | some s => exact unconnected_readData hnode hread
  cases l with
  | reading NetworkMap data node_found node =>
    cases hex : extract NetworkMap with
    | some w =>
      simp only [next, hex]
      exact hdata _ _ _ _ h
    | none =>
      cases node_found with
      | false =>
        simp only [next, hex]
        exact hdata _ _ _ _ h
      | true =>
        rw [next_found hex]
        exact h
  | returned error node => exact h
  | outOfRange => trivial

theorem unconnected_run {NodeName NetworkMapfile : Text} (k : ℕ) :
    (run NodeName NetworkMapfile .default k).Unconnected := by
  induction k with
  | zero => exact fun n => by simp [NodeImpl.default]
  | succ k ih =>
    rw [run, Function.iterate_succ_apply', ← run]
    exact unconnected_next ih

end LookUp

theorem establishedConnections_foldl (names : List Text) (node : NodeImpl) :
    (names.foldl addConnected node).establishedConnections = node.establishedConnections := by
  induction names generalizing node with
  | nil => rfl
  | cons name names ih => exact ih (addConnected node name)

/-- A node that has been set up has not sent. -/
theorem fresh_addNodes {fuel : ℕ} {NodeName NetworkMapFile : Text} {node : NodeImpl}
    (h : AddNodes fuel NodeName NetworkMapFile .default = some node) : Sender.Fresh ⟨node, []⟩ := by
  have hrun : (LookUp.run NodeName NetworkMapFile .default fuel).Unconnected :=
    LookUp.unconnected_run fuel
  unfold AddNodes at h
  split at h
  · next error node' hret =>
    rw [hret] at hrun
    obtain rfl := Option.some.inj h
    refine ⟨fun n => ?_, rfl⟩
    rw [establishedConnections_foldl]
    exact hrun n
  · cases h

/-! ## A send -/

/-- What a call does. -/
theorem sendMsg_cases {fuel : ℕ} (h : s.sendMsg net fuel call = some u) :
    call.sendtoNode ∈ s.node.connectedAddresses ∧ ∃ r, (s.send net call).run fuel = .waiting r ∧
      r.finished = true ∧ u = s.sent net call r.attempts := by
  unfold Sender.sendMsg at h
  split at h
  · next hmem =>
    refine ⟨hmem, ?_⟩
    split at h
    · cases h
    · next r hr =>
      split at h
      · next hf => exact ⟨r, hr, hf, (Option.some.inj h).symm⟩
      · cases h
  · cases h

theorem sendMsg_eq_some {fuel : ℕ} {r : Retry.State Outcome}
    (hmem : call.sendtoNode ∈ s.node.connectedAddresses)
    (hr : (s.send net call).run fuel = .waiting r) (hf : r.finished = true) :
    s.sendMsg net fuel call = some (s.sent net call r.attempts) := by
  unfold Sender.sendMsg
  rw [if_pos hmem, hr]
  exact if_pos hf

theorem acknowledged_sent (m : ℕ) : (s.sent net call m).Acknowledged n ↔
    s.Acknowledged n ∨ n = call.sendtoNode ∧ ∃ j < m, (s.send net call).outcome j = .acknowledged := by
  simp only [Sender.Acknowledged, Sender.sent, List.mem_append, List.mem_map, List.mem_range,
    Prod.mk.injEq]
  constructor
  · rintro (h | ⟨j, hj, rfl, hout⟩)
    · exact .inl h
    · exact .inr ⟨rfl, j, hj, hout⟩
  · rintro (h | ⟨rfl, j, hj, hout⟩)
    · exact .inl h
    · exact .inr ⟨j, hj, rfl, hout⟩

theorem flag_sent (m : ℕ) : (s.sent net call m).node.establishedConnections[n]? =
    if call.sendtoNode = n then some true else s.node.establishedConnections[n]? :=
  Map.getElem?_insert _ _ _ _

/-- A call keeps the flags true, if it does not give up or the peer has acknowledged before. -/
theorem Sender.Truthful.sendMsg {fuel : ℕ} (hs : s.Truthful)
    (h : s.sendMsg net fuel call = some u)
    (hok : (s.send net call).GivesUp → s.Acknowledged call.sendtoNode) : u.Truthful := by
  obtain ⟨-, r, hr, hf, rfl⟩ := sendMsg_cases h
  intro n hn
  rw [flag_sent] at hn
  rw [acknowledged_sent]
  split at hn
  · next heq =>
    subst heq
    by_contra hno
    push Not at hno
    have hgives : (s.send net call).GivesUp := by
      refine Send.gives_up_iff.mp ⟨fuel, ?_⟩
      rw [hr]
      exact ⟨hf, hno.2 rfl⟩
    exact hno.1 (hok hgives)
  · exact .inl (hs n hn)

/-- A call that gives up raises the flag, and has no acknowledgement. -/
theorem exists_sendMsg (hmem : call.sendtoNode ∈ s.node.connectedAddresses)
    (h : (s.send net call).GivesUp) : ∃ fuel u, s.sendMsg net fuel call = some u ∧
      u.node.establishedConnections[call.sendtoNode]? = some true ∧
      (u.Acknowledged call.sendtoNode → s.Acknowledged call.sendtoNode) := by
  obtain ⟨fuel, hfuel⟩ := h.exists_unanswered
  cases hrun : (s.send net call).run fuel with
  | connecting =>
    rw [hrun] at hfuel
    exact hfuel.elim
  | waiting r =>
    rw [hrun] at hfuel
    refine ⟨fuel, _, sendMsg_eq_some hmem hrun hfuel.1, ?_, fun hack => ?_⟩
    · rw [flag_sent, if_pos rfl]
    · refine ((acknowledged_sent _).mp hack).resolve_right ?_
      rintro ⟨-, j, hj, hout⟩
      exact hfuel.2 j hj hout

/-! ## Runs -/

theorem Sender.Fresh.truthful (h : s.Fresh) : s.Truthful := fun n hn => absurd hn (h.unconnected n)

/-- **When the connection flags are true** in every state of a run: if no call gives up before its
peer has acknowledged an attempt. -/
theorem connection_flags_iff (hs : s.Fresh) (calls : List Call) :
    AlwaysTruthful net s calls ↔
      ∀ done call t, done ++ [call] <+: calls.flatMap Call.sends → Sends net s done t →
        call.sendtoNode ∈ t.node.connectedAddresses → (t.send net call).GivesUp →
          t.Acknowledged call.sendtoNode := by
  constructor
  · intro h done call t hpre hsends hmem hgives
    obtain ⟨fuel, u, hu, hflag, hack⟩ := exists_sendMsg hmem hgives
    exact hack (h (done ++ [call]) u hpre (hsends.send hu) call.sendtoNode hflag)
  · intro h done t hpre hsends
    induction hsends with
    | nil => exact hs.truthful
    | send hsends hu ih =>
      have hpre' := (List.prefix_append _ _).trans hpre
      exact (ih hpre').sendMsg hu (h _ _ _ hpre hsends (sendMsg_cases hu).1)

/-- A node with one peer. -/
def oneSender : Sender :=
  ⟨⟨["Node2".toList], Std.ExtTreeMap.empty.insert "Node2".toList "localhost:50052".toList,
    Std.ExtTreeMap.empty.insert "Node2".toList false, ∅⟩, []⟩

theorem fresh_oneSender : oneSender.Fresh := by
  refine ⟨fun n => ?_, rfl⟩
  unfold oneSender
  rw [Map.getElem?_insert]
  split
  · simp
  · rw [show (Std.ExtTreeMap.empty : Map Bool)[n]? = none from Std.ExtTreeMap.getElem?_empty]
    simp

theorem connection_flags_one : AlwaysTruthful (fun _ => .acknowledged) oneSender
    [.sendMsg ⟨"Node2".toList, 1, 0, true⟩] := by
  refine (connection_flags_iff fresh_oneSender _).mpr fun done call t _ _ _ hgives => ?_
  obtain ⟨w, turn, -, -, -, hout⟩ := hgives
  exact absurd rfl (hout 0 (Nat.succ_pos _))

/-- A peer that is not there: the send times out, and the connection counts as established. -/
theorem not_connection_flags : ¬ ∀ (net : ℕ → Outcome) (s : Sender), s.Fresh →
    ∀ calls : List Call, AlwaysTruthful net s calls := by
  intro h
  have hflags := h (fun _ => .unreachable) oneSender fresh_oneSender
    [.sendMsg ⟨"Node2".toList, 1, 1, false⟩]
  have hgives : (oneSender.send (fun _ => .unreachable) ⟨"Node2".toList, 1, 1, false⟩).GivesUp := by
    refine ⟨0, 2, ?_, by decide, by decide, fun j _ => by simp [Sender.send]⟩
    unfold Send.ConnectsAt
    rw [if_neg (by simp [Send.Overrides, Sender.send])]
  obtain ⟨fuel, u, hu, hflag, hack⟩ := exists_sendMsg (by simp [oneSender]) hgives
  have htrue := hflags [⟨"Node2".toList, 1, 1, false⟩] u (List.prefix_refl _) (Sends.nil.send hu) _
    hflag
  exact absurd (hack htrue) (by simp [Sender.Acknowledged, oneSender])

end PeerToPeer

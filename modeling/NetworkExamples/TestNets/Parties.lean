import NetworkExamples.Fifo.Script
import NetworkExamples.PeerToPeer.Send
import NetworkExamples.TestNets.Runner
import Std.Data.String.ToNat

/-!
# The test networks

The tests start one process for each party of a network map, and compare what each prints with what a
generator says (`tests/n_party`). Here are the names of the parties, and the calls of the targets.

* `getMsg_eq`: the receive of a program is `getMsg`, repeated until a message is there.
* `Lag.connects`: the first send of a program is `sendMsg` to a party that is up within ten seconds.
-/

namespace TestNets

open Fifo PeerToPeer
open Retry (usint)

/-! ## The parties -/

/-- The names of the parties. The model sends to and receives from a party by its number. -/
def nodeName (i : ℕ) : String := if i = 0 then "Server" else "Client" ++ toString i

theorem nodeName_inj {i j : ℕ} (h : nodeName i = nodeName j) : i = j := by
  have hserver : ∀ k : ℕ, "Server" ≠ "Client" ++ toString k := by
    intro k hk
    have hchars := congrArg (fun s : String => s.toList.head?) hk
    simp only [String.toList_append] at hchars
    cases hchars
  unfold nodeName at h
  split at h
  · next hi =>
    split at h
    · next hj => rw [hi, hj]
    · exact absurd h (hserver j)
  · split at h
    · exact absurd h.symm (hserver i)
    · have hrepr : Nat.repr i = Nat.repr j := by
        have hchars := congrArg String.toList h
        rw [String.toList_append, String.toList_append] at hchars
        exact String.toList_injective (List.append_cancel_left hchars)
      exact Nat.repr_inj.mp hrepr

theorem isPart_nodeName (i : ℕ) : IsPart (nodeName i) := by
  unfold nodeName
  split
  · decide
  · have hclient : IsPart "Client" := by decide
    exact hclient.append (isPart_toString i)

theorem plain_nodeName (i : ℕ) : Plain (nodeName i) := by
  unfold nodeName
  split
  · decide
  · have hclient : Plain "Client" := by decide
    exact hclient.append (isPart_toString i)

theorem nodeName_eq_server {i : ℕ} : nodeName i = "Server" ↔ i = 0 :=
  ⟨fun h => nodeName_inj (j := 0) h, fun h => h ▸ rfl⟩

/-! ## The calls of a target -/

/-- The notes are what a party writes to its standard output. -/
abbrev Node : Type → Type := Prog ℕ MessageFormat String

def cout (text : String) : Node Unit := .note text (pure ())

/-- The spinner of a loop that makes `n` turns. -/
def spin (n : ℕ) : Node Unit := (List.range n).foldlM (fun _ k => cout (star k)) ()

/-- The parties that a party has sent to before: `establishedConnections`. -/
abbrev Connections := ℕ → Bool

/-- The first loop of `sendMsg`, if `n` attempts fail to connect: each turn makes the next attempt and
moves the spinner. -/
def connect (node : ℕ) (Msg : MessageFormat) : ℕ → Node Unit
  | 0 => .send node Msg false (pure ())
  | n + 1 => do
    spin n
    .send node Msg false (pure ())
    cout (star n)

/-- Of the first attempts to send to `node`, `failed node` fail. With no time-out, a later send goes on
until the receiver acknowledges. -/
def sendMsg (failed : ℕ → ℕ) (establishedConnections : Connections) (node : ℕ) (Msg : MessageFormat)
    (timeoutMsec : ℕ := 0) : Node Connections := do
  if establishedConnections node = false then connect node Msg (failed node)
  else .send node Msg (timeoutMsec != 0) (pure ())
  pure (Function.update establishedConnections node true)

/-- It tries once. -/
def sendMsgNoWait (node : ℕ) (Msg : MessageFormat) : Node Unit := .send node Msg true (pure ())

def broadcastMsg (failed : ℕ → ℕ) (establishedConnections : Connections) (toSendTo : List ℕ)
    (msg : MessageFormat) (timeoutMsec : ℕ := 0) : Node Connections :=
  toSendTo.foldlM (fun establishedConnections nodeName =>
    sendMsg failed establishedConnections nodeName msg timeoutMsec) establishedConnections

def broadcastMsgNoWait (toSendTo : List ℕ) (msg : MessageFormat) : Node Unit :=
  toSendTo.foldlM (fun _ nodeName => sendMsgNoWait nodeName msg) ()

/-- What a receive gives the program. -/
def ofReply : Reply MessageFormat → MessageFormat
  | .got m => { m with acknowledgement := true }
  | .nothing | .timedOut => .default

/-- `getMsg`, repeated until it returns an acknowledgement. -/
def getMsgLoop (getFromNode : ℕ) : Node MessageFormat :=
  .recv getFromNode (fun _ => true) false fun reply => pure (ofReply reply)

/-- `getMsg`, repeated until the time-out has passed; the first `looks` looks are in vain, and move the
spinner. The time-out is long enough for all that the sender sends: the wait gives up on a sender that
has ended. -/
def getMsgWait (looks getFromNode : ℕ) : Node MessageFormat := do
  spin looks
  .recv getFromNode (fun _ => true) true fun reply => pure (ofReply reply)

/-- The address that the test gives a party. -/
def socket_address (i : ℕ) : String := "localhost:" ++ toString (50051 + i)

/-- What it prints with no SSL. -/
def Register (i : ℕ) : Node Unit := do
  cout (endl (nodeName i ++ " SSL disabled "))
  cout (endl (nodeName i ++ " server listening on " ++ socket_address i))

def Start (i : ℕ) : Node Unit := cout (endl (nodeName i ++ " [SERVER] Started!"))

/-- The loop of the server ends, and its thread is joined. -/
def Stop (i : ℕ) : Node Unit := do
  cout (endl (nodeName i ++ " server completion queue shutdown"))
  cout (endl (nodeName i ++ " [SERVER] Stopped!"))

/-- **The turn of the loop that ends it**: the queue is not empty, and its front is taken. -/
theorem getMsg_eq {msgQueues : MsgQueues} {getFromNode : String} {m : MessageFormat}
    {q : List MessageFormat} (h : msgQueues getFromNode = m :: q) :
    getMsg msgQueues getFromNode "" =
        ({ m with acknowledgement := true }, Function.update msgQueues getFromNode q) ∧
      scan (fun _ => true) (m :: q) = (.got m, q) := by
  constructor
  · unfold getMsg
    simp [h, pop]
  · exact scan_front rfl q

/-! ## The start of the parties -/

/-- How late the parties are: of the attempts of the party `i` to connect to the party `d`, the first
`failed i d` fail. Each party is up within ten seconds. -/
structure Lag where
  failed : ℕ → ℕ → ℕ
  up : ∀ i d, failed i d ≤ 1000

/-- The first call of `sendMsg` of the party `i` to the party `d`. -/
def Lag.send (lag : Lag) (i d : ℕ) (sleepTimeMsec timeoutMsec : usint) : Send where
  outcome n := if n < lag.failed i d then .unreachable else .acknowledged
  establishedConnection := false
  allowOverride := true
  sleepTimeMsec := sleepTimeMsec
  timeoutMsec := timeoutMsec

/-- **The first send to a party** makes one turn of the first loop for each attempt that fails, and
returns with one copy of the message delivered. -/
theorem Lag.connects (lag : Lag) (i d : ℕ) (sleepTimeMsec timeoutMsec : usint) :
    let S := lag.send i d sleepTimeMsec timeoutMsec
    (∀ k ≤ lag.failed i d, S.run k = .connecting (UInt32.ofNat k) (S.outcome k) (k + 1)) ∧
      ∃ k, (S.run k).returned = true ∧ (S.run k).attempts = lag.failed i d + 1 ∧
        S.copies (S.run k).attempts = 1 := by
  intro S
  have ho : S.Overrides := ⟨rfl, rfl⟩
  have hun : ∀ j < lag.failed i d, S.outcome j = .unreachable := fun j hj => if_pos hj
  have hack : S.FirstAck (lag.failed i d) := by
    refine ⟨if_neg (lt_irrefl _), fun j hj => ?_⟩
    rw [hun j hj]
    decide
  have hrun : ∀ k ≤ lag.failed i d, S.run k = .connecting (UInt32.ofNat k) (S.outcome k) (k + 1) := by
    intro k hk
    apply Send.run_connecting ho
    intro j hj
    exact .inl (hun j (by omega))
  have hstops : S.StopsAtFirstAck := by
    apply Send.stops_of_not_overruns
    rintro a ha - ⟨-, hover⟩
    have hle : a ≤ lag.failed i d := by
      by_contra hlt
      exact ha.2 _ (not_le.mp hlt) hack.1
    have hup := lag.up i d
    have hmod := Nat.mod_le (a * 10) (2 ^ 32)
    omega
  refine ⟨hrun, hstops (lag.failed i d) hack ⟨lag.failed i d, ?_⟩⟩
  rw [hrun _ le_rfl]
  rfl

end TestNets

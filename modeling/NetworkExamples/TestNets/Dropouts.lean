import NetworkExamples.TestNets.Star

/-!
# The test networks of dropouts

A server broadcasts to its clients, and a party leaves before the end
(`three_party_test_dropout_receiver.cpp`, `three_party_test_dropout_sender.cpp`). A receiver that leaves
takes nothing from the others; a sender that leaves is waited for in vain. A spinner between the marks is
a line that the verifiers do not expect.

* `receiver_passes`, `sender_passes`: what the parties print, for every number of clients and however
  late they start, and when the verifier accepts it.
-/

namespace TestNets.Dropout

open Fifo PeerToPeer

variable {L : List ℕ} {N i : ℕ} {lag : Lag} {e : ℕ × Event ℕ MessageFormat String}

/-! ## A receiver that leaves -/

namespace Receiver

/-! ### The target -/

/-- Each broadcast has a time-out. -/
def serve (failed : ℕ → ℕ) (connectedAddresses : List ℕ) : Node Connections :=
  (List.range numToSend).foldlM
    (fun est i => broadcastMsg failed est connectedAddresses (message i) 1000) fun _ => false

/-- The loop of a client, in its last `n` turns, and what follows it. -/
def receive (i : ℕ) : ℕ → ℕ → Node Unit
  | 0, _ => do
    cout (endl "DEMARCATE END")
    Stop i
  | n + 1, seenMsgs => do
    let _ ← getMsgLoop 0
    cout (endl ("Got message: " ++ toString seenMsgs))
    let seenMsgs := seenMsgs + 1
    if nodeName i = "Client2" then do
      cout (endl "Client2 dropping out")
      cout (endl "DEMARCATE END")
      Stop i
    else receive i n seenMsgs

def main (failed : ℕ → ℕ) (i : ℕ) (connectedAddresses : List ℕ) : Node Unit := do
  Register i
  Start i
  cout (endl "DEMARCATE START")
  if nodeName i = "Server" then do
    let _ ← serve failed connectedAddresses
    cout (endl "DEMARCATE END")
    Stop i
  else receive i numToSend 0

/-- The server and the clients `1, …, N - 1`. -/
def network (N : ℕ) (connectedAddresses : List ℕ) (lag : Lag) (i : ℕ) : Node Unit :=
  if i < N then main (lag.failed i) i connectedAddresses else pure ()

def msg_base (x : ℕ) : String := "Got message: " ++ toString x

/-- The verifier. It fails where the second client has printed fewer than two lines. -/
def run_test (total_nodes : ℕ) (cout : ℕ → List (List Char)) : Option Bool :=
  if total_nodes ≠ 3 then some false
  else if cout 0 ≠ [] then some false
  else do
    let fst ← (cout 2)[0]?
    if fst ≠ (msg_base 0).toList then some false
    else do
      let snd ← (cout 2)[1]?
      if snd ≠ "Client2 dropping out".toList then some false
      else if (cout 1).length ≠ 5 then some false
      else some ((cout 1).zipIdx.all fun x => x.1 = (msg_base x.2).toList)

/-- The lines that a client prints between the marks. -/
def lines (i : ℕ) : List String :=
  if i = 2 then [msg_base 0, "Client2 dropping out"] else (List.range numToSend).map msg_base

/-- **What a party prints**: a client its lines, and the server the spinners of its first broadcast, in
front of the mark. -/
def output (L : List ℕ) (lag : Lag) (i : ℕ) : List Char :=
  printed ((opening i).map String.toList)
    (if i = 0 then (spinners L (lag.failed 0) ++ stop) :: (closing i).map String.toList
      else (lines i).map String.toList ++ stop :: (closing i).map String.toList)

/-! ### The scripts -/

/-- How many messages a client takes after its first. -/
def taken (i : ℕ) : ℕ := if i = 2 then 0 else 4

def leaving (i : ℕ) : Script ℕ MessageFormat String :=
  if i = 2 then [(1, .noted (endl "Client2 dropping out"))] else []

def server (L : List ℕ) (lag : Lag) : Script ℕ MessageFormat String := rounds 4 L (lag.failed 0) true

def client (i : ℕ) : Script ℕ MessageFormat String :=
  heard (0 :: List.range' 1 (taken i)) (fun _ => 0) msg_base ++ leaving i

theorem takes_client (i a : ℕ) : takes (client i) a =
    if a = 0 then (0 :: List.range' 1 (taken i)).map fun k => (2 * k + 1, .got (message k)) else [] := by
  have hleaving : takes (leaving i) a = [] := by
    unfold leaving
    split <;> rfl
  rw [client, takes_append, takes_heard, hleaving, List.append_nil]

theorem sents_client (i d : ℕ) : sents (client i) d = [] := by
  have hleaving : sents (leaving i) d = [] := by
    unfold leaving
    split <;> rfl
  rw [client, sents_append, sents_heard, hleaving, List.append_nil]

theorem sorted_client (i : ℕ) : (client i).Pairwise (·.1 ≤ ·.1) := by
  unfold client leaving taken
  split
  · simp [heard, spins]
  · rw [List.append_nil]
    exact sorted_waits (by decide)

theorem client_bound (he : e ∈ client i) : e.1 < 10 := by
  rcases List.mem_append.mp he with he | he
  · obtain ⟨k, hk, ht⟩ := mem_heard he
    have hk5 : k < 5 := by
      unfold taken at hk
      split at hk
      · simp at hk
        omega
      · simp at hk
        omega
    omega
  · unfold leaving at he
    split at he
    · rw [List.mem_singleton.mp he]
      exact Nat.one_lt_ofNat
    · cases he

theorem star_scripts (hL : L.Nodup) (hmem : ∀ v, v ∈ L ↔ 0 < v ∧ v < N) (lag : Lag) :
    Star N (server L lag) client where
  sorted_server := sorted_rounds 4 L _ true
  sorted_client := sorted_client
  takes_server := takes_rounds
  sents_client := sents_client
  takes_client i a ha := by rw [takes_client, if_neg ha]
  sents_outside d hd := by
    rw [server, sents_rounds hL, if_neg]
    exact fun h => hd ((hmem d).mp h)
  chan i := by
    by_cases hi : i ∈ L
    · left
      have hsplit : List.range' 1 4 = List.range' 1 (taken i) ++ List.range' (1 + taken i) (4 - taken i) := by
        unfold taken
        split
        · rfl
        · rfl
      rw [server, sents_rounds hL, if_pos hi, takes_client, if_pos rfl, List.map_cons, hsplit]
      exact .got (Nat.lt_succ_self 0) (chan_rounds fun _ => rfl)
    · exact .inr fun h => hi ((hmem i).mpr h)
  late i u hu := by
    rw [takes_client, if_pos rfl] at hu
    obtain ⟨k, -, hk⟩ := List.mem_map.mp hu
    cases hk

theorem parties_bound (he : e ∈ parties N (server L lag) client i) : e.1 < 10 := by
  rcases place_cases N i with ⟨rfl, hN⟩ | ⟨hi, hiN⟩ | hi
  · rw [parties_zero hN] at he
    have ht := mem_rounds he
    omega
  · rw [parties_client hi hiN] at he
    exact client_bound he
  · rw [parties_outside hi] at he
    cases he

/-! ### The programs -/

theorem follows_serve (hL : L.Nodup) (lag : Lag) : Follows (serve (lag.failed 0) L) (server L lag).events
    (.ret (connected L numToSend)) := by
  rw [server, rounds_eq, events_flatMap]
  exact Follows.range (g := connected L) fun i _ => follows_round hL (lag.failed 0) 1000 i

theorem follows_receive (h : nodeName i ≠ "Client2") (n k : ℕ) : Follows (receive i n k)
    ((heard (List.range' k n) (fun _ => 0) msg_base).events ++
      (("DEMARCATE END" :: closing i).map endl).map .noted) (.ret ()) := by
  induction n generalizing k with
  | zero => exact .note (follows_closing i)
  | succ n ih =>
    have hrest := ih (k + 1)
    rw [List.range'_succ]
    unfold receive
    simp only [if_neg h]
    exact .recv rfl (.note hrest)

theorem follows_client (i : ℕ) : Follows (receive i numToSend 0)
    ((client i).events ++ (("DEMARCATE END" :: closing i).map endl).map .noted) (.ret ()) := by
  by_cases h2 : i = 2
  · subst h2
    exact .recv rfl (.note (.note (.note (follows_closing 2))))
  · have hname : nodeName i ≠ "Client2" := fun h => h2 (nodeName_inj (j := 2) h)
    have hreceive := follows_receive hname numToSend 0
    rw [client, leaving, taken, if_neg h2, if_neg h2, List.append_nil]
    exact hreceive

theorem follows_network (hL : L.Nodup) (lag : Lag) (i : ℕ) : Follows (network N L lag i)
    (framed (before N) (after N) 10 (parties N (server L lag) client) i).events (.ret ()) := by
  rcases place_cases N i with ⟨rfl, hN⟩ | ⟨hi, hiN⟩ | hi
  · have hserve : Follows (serve (lag.failed 0) L) (parties N (server L lag) client 0).events
        (.ret (connected L numToSend)) := by
      rw [parties_zero hN]
      exact follows_serve hL lag
    rw [network, if_pos hN]
    exact follows_framed hN hserve 10
  · have hname : nodeName i ≠ "Server" := fun h => hi.ne' (nodeName_eq_server.mp h)
    have hclient := follows_client i
    rw [network, if_pos hiN, main, if_neg hname, events_framed, notes_before hiN, after, if_pos hiN,
      parties_client hi hiN, List.append_assoc]
    exact follows_opening i (.note hclient)
  · rw [network, if_neg hi, framed, parties_outside hi, before, if_neg hi, after, if_neg hi]
    exact .nil _

/-! ### The output -/

theorem stdout_client (i : ℕ) : stdout (client i).events = text ((lines i).map String.toList) := by
  rw [client, events_append, stdout_append, stdout_heard]
  unfold leaving taken lines
  split
  · rfl
  · rfl

theorem stdout_party (h : i < N) (L : List ℕ) (lag : Lag) :
    stdout (framed (before N) (after N) 10 (parties N (server L lag) client) i).events =
      output L lag i := by
  rcases Nat.eq_zero_or_pos i with rfl | hi
  · have hserver : stdout (parties N (server L lag) client 0).events ++ stop ++ ['\n'] =
        text [spinners L (lag.failed 0) ++ stop] := by
      rw [parties_zero h, server, stdout_rounds]
      exact (List.append_nil _).symm
    rw [stdout_framed h hserver, output, if_pos rfl]
    rfl
  · have hclient : stdout (parties N (server L lag) client i).events ++ stop ++ ['\n'] =
        text ((lines i).map String.toList ++ [stop]) := by
      rw [parties_client hi h, stdout_client, text_append, List.append_assoc]
      rfl
    rw [stdout_framed h hclient, output, if_neg hi.ne', List.append_assoc]
    rfl

theorem plain_lines (i : ℕ) : ∀ a ∈ lines i, Plain a := by
  have hgot : ∀ k, Plain (msg_base k) := fun k =>
    (show Plain "Got message: " by decide).append (isPart_toString k)
  intro a ha
  unfold lines at ha
  split at ha
  · simp only [List.mem_cons, List.not_mem_nil, or_false] at ha
    rcases ha with rfl | rfl
    · exact hgot 0
    · decide
  · obtain ⟨k, -, rfl⟩ := List.mem_map.mp ha
    exact hgot k

theorem stdout_list_client (h : i ≠ 0) :
    stdout_list (output L lag i) = (lines i).map String.toList := by
  rw [output, if_neg h]
  exact stdout_list_eq (isLine_opening i) (map_isLine (plain_lines i)) (isLine_closing i)

/-- **A spinner hides the mark**: the server prints something exactly if a client is late. -/
theorem stdout_list_server : stdout_list (output L lag 0) = [] ↔ ∀ d ∈ L, lag.failed 0 d = 0 := by
  rw [← spinners_eq_nil, output, if_pos rfl]
  constructor
  · intro h
    by_contra hne
    have hline : spinners L (lag.failed 0) ++ stop ≠ stop := by
      rw [ne_eq, List.append_left_eq_self]
      exact hne
    have hstart : spinners L (lag.failed 0) ++ stop ≠ start := by
      intro heq
      have hlast := congrArg List.getLast? heq
      rw [List.getLast?_append] at hlast
      exact absurd (Option.some.inj hlast) (by decide)
    have hbreak : ∀ ln ∈ (spinners L (lag.failed 0) ++ stop) :: (closing 0).map String.toList,
        '\n' ∉ ln := by
      intro ln hln
      rcases List.mem_cons.mp hln with rfl | hln
      · exact fun hmem => (List.mem_append.mp hmem).elim (notMem_spinners _ _) not_mem_stop
      · exact (isLine_closing 0 ln hln).unbroken
    have hlist := @stdout_list_start _ [] _ (isLine_opening 0) (fun _ hln => nomatch hln) hbreak
    rw [List.nil_append, List.nil_append] at hlist
    rw [hlist, List.cons_append, demarcated, if_neg hstart, if_neg hline, if_pos rfl] at h
    cases h
  · intro h
    rw [h]
    exact @stdout_list_eq _ [] _ (isLine_opening 0) (fun _ hln => nomatch hln) (isLine_closing 0)

theorem run_test_iff (N : ℕ) (L : List ℕ) (lag : Lag) :
    run_test N (fun i => stdout_list (output L lag i)) = some true ↔
      N = 3 ∧ ∀ d ∈ L, lag.failed 0 d = 0 := by
  unfold run_test
  simp only [stdout_list_client one_ne_zero, stdout_list_client two_ne_zero, ← stdout_list_server]
  by_cases hN : N = 3
  · rw [if_neg (not_not.mpr hN)]
    by_cases hserver : stdout_list (output L lag 0) = []
    · rw [if_neg (not_not.mpr hserver)]
      exact iff_of_true (by decide) ⟨hN, hserver⟩
    · rw [if_pos hserver]
      simp [hserver]
  · rw [if_pos hN]
    simp [hN]

end Receiver

/-- **The network whose second client drops out**, in every interleaving, for every number of clients, in
whatever order the server has them, and however late they start: the server goes on, and the others get
all. The verifier accepts it if all are up when the server first sends. -/
theorem receiver_passes (hL : L.Nodup) (hmem : ∀ v, v ∈ L ↔ 0 < v ∧ v < N) (lag : Lag) :
    Prints N (Receiver.network N L lag) (Receiver.output L lag) ∧
      (Receiver.run_test N (fun i => stdout_list (Receiver.output L lag i)) = some true ↔
        N = 3 ∧ ∀ d ∈ L, lag.failed 0 d = 0) := by
  have hstar := Receiver.star_scripts hL hmem lag
  have hruns := hstar.runs (fun _ _ => Receiver.parties_bound)
    (fun i u hu => absurd hu (by
      rw [Receiver.takes_client, if_pos rfl]
      intro hmem
      obtain ⟨k, -, hk⟩ := List.mem_map.mp hmem
      cases hk))
    (fun i hi => if_neg hi) (Receiver.follows_network hL lag)
  exact ⟨prints_of_runs hruns (fun _ _ => rfl) fun i hi => Receiver.stdout_party hi L lag,
    Receiver.run_test_iff N L lag⟩

/-- The network of the test has two clients. One attempt that fails is one too many. -/
theorem receiver_passes_two :
    let lag (n : ℕ) (hn : n ≤ 1000) : Lag := ⟨fun _ _ => n, fun _ _ => hn⟩
    let cout (l : Lag) (i : ℕ) := stdout_list (Receiver.output [1, 2] l i)
    Prints 3 (Receiver.network 3 [1, 2] (lag 0 (by decide))) (Receiver.output [1, 2] (lag 0 (by decide))) ∧
      Receiver.run_test 3 (cout (lag 0 (by decide))) = some true ∧
      Receiver.run_test 3 (cout (lag 1 (by decide))) ≠ some true := by
  intro lag cout
  have hmem : ∀ v, v ∈ [1, 2] ↔ 0 < v ∧ v < 3 := fun v => by simp; omega
  obtain ⟨hprints, hup⟩ := receiver_passes (L := [1, 2]) (by decide) hmem (lag 0 (by decide))
  obtain ⟨-, hlate⟩ := receiver_passes (L := [1, 2]) (by decide) hmem (lag 1 (by decide))
  refine ⟨hprints, hup.mpr ⟨rfl, fun _ _ => rfl⟩, fun h => ?_⟩
  exact absurd ((hlate.mp h).2 1 (by decide)) one_ne_zero

/-! ## A sender that leaves -/

namespace Sender

/-! ### The target -/

/-- The loop of the server, in its last `n` turns. It exits in the turn 2, and does not stop its node. -/
def serve (failed : ℕ → ℕ) (i : ℕ) (connectedAddresses : List ℕ) : ℕ → ℕ → Connections → Node Unit
  | 0, _, _ => do
    cout (endl "DEMARCATE END")
    Stop i
  | n + 1, k, est => do
    let est ← broadcastMsg failed est connectedAddresses (message k)
    if k = 2 then do
      cout (endl "Server dropout")
      cout (endl "DEMARCATE END")
    else serve failed i connectedAddresses n (k + 1) est

/-- The body of the loop of a client, whose first `looks` looks are in vain. -/
def receive (looks : ℕ → ℕ) (seenMsgs : ℕ) : Node Unit := do
  let reply1 ← getMsgWait (looks seenMsgs) 0
  cout (endl (if reply1.acknowledgement then "Got message: " ++ toString seenMsgs
    else "Timeout on getting message: #" ++ toString seenMsgs))

def main (failed looks : ℕ → ℕ) (i : ℕ) (connectedAddresses : List ℕ) : Node Unit := do
  Register i
  Start i
  cout (endl "DEMARCATE START")
  if nodeName i = "Server" then serve failed i connectedAddresses numToSend 0 fun _ => false
  else do
    let _ ← (List.range' 1 numToSend).foldlM (fun _ seenMsgs => receive looks seenMsgs) ()
    cout (endl "DEMARCATE END")
    Stop i

/-- The server and the clients `1, …, N - 1`; of the looks of the client `i` for its message `k`, the
first `looks i k` are in vain. -/
def network (N : ℕ) (connectedAddresses : List ℕ) (lag : Lag) (looks : ℕ → ℕ → ℕ) (i : ℕ) : Node Unit :=
  if i < N then main (lag.failed i) (looks i) i connectedAddresses else pure ()

def success_msg_base (x : ℕ) : String := "Got message: " ++ toString x

def dropped_msg_base (x : ℕ) : String := "Timeout on getting message: #" ++ toString x

/-- The text from the first `Timeout` on. -/
def find : List Char → Option (List Char)
  | [] => none
  | c :: msg => if "Timeout".toList.isPrefixOf (c :: msg) then some (c :: msg) else find msg

/-- Without a `Timeout`, the index is -1. -/
def fmt_msg (msg : List Char) : List Char := (find msg).getD (msg.drop (msg.length - 1))

/-- What the verifier says of a line of a client. -/
def client_line (msg : List Char) (msg_idx : ℕ) : Bool :=
  if msg_idx < 3 then msg = (success_msg_base (msg_idx + 1)).toList
  else fmt_msg msg = (dropped_msg_base (msg_idx + 1)).toList

/-- The verifier. It fails where the server has printed nothing. -/
def run_test (total_nodes : ℕ) (cout : ℕ → List (List Char)) : Option Bool :=
  if total_nodes ≠ 3 then some false
  else do
    let unexpected ← if (cout 0).length ≠ 1 then
        (cout 0)[0]?.map fun ln => decide (ln ≠ "Server dropout".toList)
      else some false
    if unexpected then some false
    else some ([1, 2].all fun c => (cout c).zipIdx.all fun x => client_line x.1 x.2)

/-- What a client prints of the message `k`: it gets the first three. -/
def line (k : ℕ) : String := if k < 3 then success_msg_base (k + 1) else dropped_msg_base (k + 1)

/-- The lines that a party prints between the marks, each with the spinner of its wait; the server has
the spinners of its first broadcast in front of its line. -/
def lines (L : List ℕ) (lag : Lag) (looks : ℕ → ℕ → ℕ) (i : ℕ) : List (List Char) :=
  if i = 0 then [spinners L (lag.failed 0) ++ "Server dropout".toList]
  else (List.range numToSend).map fun k => spinner (looks i (k + 1)) ++ (line k).toList

/-- **What a party prints.** The server does not stop its node. -/
def output (L : List ℕ) (lag : Lag) (looks : ℕ → ℕ → ℕ) (i : ℕ) : List Char :=
  printed ((opening i).map String.toList)
    (lines L lag looks i ++ stop :: if i = 0 then [] else (closing i).map String.toList)

/-! ### The scripts -/

variable {looks : ℕ → ℕ → ℕ}

def leaving : Script ℕ MessageFormat String :=
  [(6, .noted (endl "Server dropout")), (6, .noted (endl "DEMARCATE END"))]

def server (L : List ℕ) (lag : Lag) : Script ℕ MessageFormat String :=
  rounds 2 L (lag.failed 0) false ++ leaving

/-- After the messages that the server has sent, the clients wait in vain. -/
def client (looks : ℕ → ℕ → ℕ) (i : ℕ) : Script ℕ MessageFormat String :=
  heard [0, 1, 2] (fun k => looks i (k + 1)) (fun k => success_msg_base (k + 1)) ++
    missed [3, 4] (fun k => looks i (k + 1)) fun k => dropped_msg_base (k + 1)

/-- The lines of `Stop`, which the server does not print. -/
def ending (N i : ℕ) : List String := if i = 0 then [] else after N i

theorem takes_client (i a : ℕ) : takes (client looks i) a =
    if a = 0 then [0, 1, 2].map (fun k => (2 * k + 1, .got (message k))) ++
      [3, 4].map fun k => (2 * k + 1, .timedOut) else [] := by
  rw [client, takes_append, takes_heard, takes_missed]
  split
  · rfl
  · rfl

theorem client_bound (he : e ∈ client looks i) : e.1 < 10 := by
  rcases List.mem_append.mp he with he | he
  · obtain ⟨k, hk, ht⟩ := mem_heard he
    simp only [List.mem_cons, List.not_mem_nil, or_false] at hk
    omega
  · obtain ⟨k, hk, ht⟩ := mem_missed he
    simp only [List.mem_cons, List.not_mem_nil, or_false] at hk
    omega

theorem server_bound (he : e ∈ server L lag) : e.1 < 7 := by
  rcases List.mem_append.mp he with he | he
  · have ht := mem_rounds he
    omega
  · simp only [leaving, List.mem_cons, List.not_mem_nil, or_false] at he
    rcases he with rfl | rfl <;> simp

theorem sorted_client (looks : ℕ → ℕ → ℕ) (i : ℕ) : (client looks i).Pairwise (·.1 ≤ ·.1) := by
  refine List.pairwise_append.mpr ⟨sorted_waits (by decide), sorted_waits (by decide),
    fun e he e' he' => ?_⟩
  obtain ⟨k, hk, ht⟩ := mem_heard he
  obtain ⟨k', hk', ht'⟩ := mem_missed he'
  simp only [List.mem_cons, List.not_mem_nil, or_false] at hk hk'
  omega

theorem star_scripts (hL : L.Nodup) (hmem : ∀ v, v ∈ L ↔ 0 < v ∧ v < N) (lag : Lag)
    (looks : ℕ → ℕ → ℕ) : Star N (server L lag) (client looks) where
  sorted_server := by
    refine List.pairwise_append.mpr ⟨sorted_rounds 2 L _ false, by simp [leaving], fun e he e' he' => ?_⟩
    have ht := mem_rounds he
    simp only [leaving, List.mem_cons, List.not_mem_nil, or_false] at he'
    rcases he' with rfl | rfl <;> simp only <;> omega
  sorted_client := sorted_client looks
  takes_server a := by rw [server, takes_append, takes_rounds]; rfl
  sents_client i d := by rw [client, sents_append, sents_heard, sents_missed]; rfl
  takes_client i a ha := by rw [takes_client, if_neg ha]
  sents_outside d hd := by
    rw [server, sents_append, sents_rounds hL, if_neg fun h => hd ((hmem d).mp h)]
    rfl
  chan i := by
    by_cases hi : i ∈ L
    · left
      rw [server, sents_append, sents_rounds hL, if_pos hi, takes_client, if_pos rfl]
      exact (wire_rounds [0, 1, 2] false).chan (chan_missed [3, 4])
    · exact .inr fun h => hi ((hmem i).mpr h)
  late i u hu e he := by
    have hu7 : 7 ≤ u := by
      rw [takes_client, if_pos rfl] at hu
      rcases List.mem_append.mp hu with hu | hu
      · obtain ⟨k, -, hk⟩ := List.mem_map.mp hu
        cases hk
      · simp at hu
        omega
    exact (server_bound he).trans_le hu7

theorem parties_bound (he : e ∈ parties N (server L lag) (client looks) i) : e.1 < 10 := by
  rcases place_cases N i with ⟨rfl, hN⟩ | ⟨hi, hiN⟩ | hi
  · rw [parties_zero hN] at he
    have ht := server_bound he
    omega
  · rw [parties_client hi hiN] at he
    exact client_bound he
  · rw [parties_outside hi] at he
    cases he

/-! ### The programs -/

theorem follows_serve (hL : L.Nodup) (lag : Lag) (i : ℕ) :
    Follows (serve (lag.failed 0) i L numToSend 0 fun _ => false) (server L lag).events (.ret ()) := by
  have hround := follows_round hL (lag.failed 0) 0
  have hend : Follows (do cout (endl "Server dropout"); cout (endl "DEMARCATE END")) leaving.events
      (.ret ()) := .note (.note (.nil _))
  have hevents : (server L lag).events = (round L (lag.failed 0) false 0).events ++
      ((round L (lag.failed 0) false 1).events ++
        ((round L (lag.failed 0) false 2).events ++ leaving.events)) := by
    rw [server, rounds_eq, events_append, events_flatMap]
    simp [List.range_succ]
  rw [hevents]
  exact (hround 0).bind ((hround 1).bind ((hround 2).bind hend))

/-- A wait for the message `k`. -/
theorem follows_receive (looks : ℕ → ℕ) {k : ℕ} {r : Reply MessageFormat} {x : String}
    (h : Follows (.recv 0 (fun _ => true) true fun reply => do
        cout (endl (if (ofReply reply).acknowledgement then "Got message: " ++ toString (k + 1)
          else "Timeout on getting message: #" ++ toString (k + 1))))
      [.got 0 r, .noted (endl x)] (.ret ())) :
    Follows (receive looks (k + 1))
      (Script.events (spins (2 * k + 1) (looks (k + 1)) ++
        [(2 * k + 1, .got 0 r), (2 * k + 1, .noted (endl x))])) (.ret ()) := by
  rw [events_append]
  unfold receive getMsgWait
  rw [bind_assoc]
  exact (follows_spin (2 * k + 1) (looks (k + 1))).bind h

theorem follows_client (looks : ℕ → ℕ → ℕ) (i : ℕ) :
    Follows ((List.range' 1 numToSend).foldlM (fun _ seenMsgs => receive (looks i) seenMsgs) ())
      (client looks i).events (.ret ()) := by
  have hgot : ∀ k, Follows (receive (looks i) (k + 1))
      (Script.events (spins (2 * k + 1) (looks i (k + 1)) ++
        [(2 * k + 1, .got 0 (.got (message k))),
          (2 * k + 1, .noted (endl (success_msg_base (k + 1))))])) (.ret ()) :=
    fun k => follows_receive (looks i) (.recv rfl (.note (.nil _)))
  have hmissed : ∀ k, Follows (receive (looks i) (k + 1))
      (Script.events (spins (2 * k + 1) (looks i (k + 1)) ++
        [(2 * k + 1, .got 0 .timedOut),
          (2 * k + 1, .noted (endl (dropped_msg_base (k + 1))))])) (.ret ()) :=
    fun k => follows_receive (looks i) (.late (.note (.nil _)))
  have hrange : List.range' 1 numToSend = [0, 1, 2].map (· + 1) ++ [3, 4].map (· + 1) := rfl
  rw [hrange, List.foldlM_append]
  simp only [List.foldlM_map]
  rw [client, events_append, heard, missed, events_flatMap, events_flatMap]
  exact (Follows.foldlM (g := fun _ _ => ()) (fun k _ _ => hgot k) ()).bind
    (Follows.foldlM (g := fun _ _ => ()) (fun k _ _ => hmissed k) ())

theorem follows_network (hL : L.Nodup) (lag : Lag) (looks : ℕ → ℕ → ℕ) (i : ℕ) :
    Follows (network N L lag looks i)
      (framed (before N) (ending N) 10 (parties N (server L lag) (client looks)) i).events (.ret ()) := by
  rcases place_cases N i with ⟨rfl, hN⟩ | ⟨hi, hiN⟩ | hi
  · have hserve := follows_serve hL lag 0
    have hname : nodeName 0 = "Server" := rfl
    rw [network, if_pos hN, main, if_pos hname, events_framed, notes_before hN, ending, if_pos rfl,
      parties_zero hN, List.map_nil, List.append_nil, List.append_assoc]
    exact follows_opening 0 (.note hserve)
  · have hname : nodeName i ≠ "Server" := fun h => hi.ne' (nodeName_eq_server.mp h)
    have hclient := (follows_client looks i).bind (f := fun _ => do cout (endl "DEMARCATE END"); Stop i)
      (follows_after hiN)
    rw [network, if_pos hiN, main, if_neg hname, events_framed, notes_before hiN, ending, if_neg hi.ne',
      parties_client hi hiN, List.append_assoc]
    exact follows_opening i (.note hclient)
  · have hout : ending N i = [] := by
      unfold ending after
      rw [if_neg hi, ite_self]
    rw [network, if_neg hi, framed, parties_outside hi, before, if_neg hi, hout]
    exact .nil _

/-! ### The output -/

theorem stdout_party (h : i < N) (L : List ℕ) (lag : Lag) (looks : ℕ → ℕ → ℕ) :
    stdout (framed (before N) (ending N) 10 (parties N (server L lag) (client looks)) i).events =
      output L lag looks i := by
  have hstop : ∀ rest, text (stop :: rest) = stop ++ ['\n'] ++ text rest := fun _ => rfl
  rw [events_framed, stdout_append, stdout_append, stdout_before h, output, printed_eq, text_append, hstop]
  rcases Nat.eq_zero_or_pos i with rfl | hi
  · have hleaving : stdout leaving.events = text ["Server dropout".toList, stop] := by decide
    have hlines : text (lines L lag looks 0) =
        spinners L (lag.failed 0) ++ "Server dropout".toList ++ ['\n'] := List.append_nil _
    rw [parties_zero h, server, events_append, stdout_append, stdout_rounds, hleaving, hlines, ending,
      if_pos rfl, if_pos rfl]
    simp [text]
  · have hlines : stdout (client looks i).events = text (lines L lag looks i) := by
      rw [client, events_append, stdout_append, stdout_heard, stdout_missed, ← text_append, lines,
        if_neg hi.ne']
      rfl
    rw [parties_client hi h, hlines, ending, if_neg hi.ne', if_neg hi.ne', stdout_after h]

theorem plain_line (k : ℕ) : Plain (line k) := by
  unfold line
  split
  · exact (show Plain "Got message: " by decide).append (isPart_toString (k + 1))
  · exact (show Plain "Timeout on getting message: #" by decide).append (isPart_toString (k + 1))

theorem isLine_lines (L : List ℕ) (lag : Lag) (looks : ℕ → ℕ → ℕ) (i : ℕ) :
    ∀ ln ∈ lines L lag looks i, IsLine ln := by
  intro ln hln
  unfold lines at hln
  split at hln
  · rw [List.mem_singleton.mp hln]
    have hdropout : Plain "Server dropout" := by decide
    exact hdropout.isLine (notMem_spinners L _)
  · obtain ⟨k, -, rfl⟩ := List.mem_map.mp hln
    exact (plain_line k).isLine (notMem_spinner _)

theorem stdout_list_output (L : List ℕ) (lag : Lag) (looks : ℕ → ℕ → ℕ) (i : ℕ) :
    stdout_list (output L lag looks i) = lines L lag looks i := by
  unfold output
  refine stdout_list_eq (isLine_opening i) (isLine_lines L lag looks i) ?_
  split
  · exact fun ln hln => nomatch hln
  · exact isLine_closing i

/-- A spinner has no `T`. -/
theorem find_append {s msg : List Char} (hs : 'T' ∉ s) (h : "Timeout".toList <+: msg) :
    find (s ++ msg) = some msg := by
  induction s with
  | nil =>
    rw [List.nil_append]
    cases msg with
    | nil => exact absurd (List.prefix_nil.mp h) (by decide)
    | cons c msg => rw [find, if_pos (List.isPrefixOf_iff_prefix.mpr h)]
  | cons c s ih =>
    have hne : 'T' ≠ c := fun heq => hs (heq ▸ List.mem_cons_self)
    have hprefix : ¬ "Timeout".toList.isPrefixOf (c :: (s ++ msg)) = true := by
      intro hpre
      obtain ⟨rest, hrest⟩ := List.isPrefixOf_iff_prefix.mp hpre
      exact hne (List.cons.inj hrest).1
    rw [List.cons_append, find, if_neg hprefix]
    exact ih fun hmem => hs (List.mem_cons_of_mem c hmem)

/-- **When the verifier accepts a line of a client**: a spinner in front of a message it gets is not
accepted, in front of a time-out it is. -/
theorem client_line_iff (n k : ℕ) :
    client_line (spinner n ++ (line k).toList) k = true ↔ (k < 3 → n = 0) := by
  unfold client_line line
  by_cases hk : k < 3
  · rw [if_pos hk, if_pos hk, decide_eq_true_eq, List.append_left_eq_self]
    constructor
    · intro h _
      by_contra hn
      exact spinner_ne_nil hn h
    · intro h
      rw [h hk]
      rfl
  · have hT : 'T' ∉ spinner n := fun h => absurd (mem_spinner h) (by decide)
    have hprefix : "Timeout".toList <+: (dropped_msg_base (k + 1)).toList := by
      have hline : (dropped_msg_base (k + 1)).toList =
          "Timeout on getting message: #".toList ++ (toString (k + 1)).toList := String.toList_append
      have htimeout : "Timeout".toList <+: "Timeout on getting message: #".toList := by decide
      rw [hline]
      exact htimeout.trans (List.prefix_append _ _)
    rw [if_neg hk, if_neg hk, fmt_msg, find_append hT hprefix]
    simp [hk]

theorem run_test_iff (hmem : ∀ v, v ∈ L ↔ 0 < v ∧ v < N) (lag : Lag) (looks : ℕ → ℕ → ℕ) :
    run_test N (fun i => stdout_list (output L lag looks i)) = some true ↔
      N = 3 ∧ ∀ d ∈ L, ∀ k < 3, looks d (k + 1) = 0 := by
  have hserver : (lines L lag looks 0).length = 1 := rfl
  have hclient : ∀ c, c ≠ 0 → (((lines L lag looks c).zipIdx.all fun x => client_line x.1 x.2) = true ↔
      ∀ k < 3, looks c (k + 1) = 0) := by
    intro c hc
    have hzip : (lines L lag looks c).zipIdx =
        (List.range 5).map fun k => (spinner (looks c (k + 1)) ++ (line k).toList, k) := by
      rw [lines, if_neg hc]
      rfl
    rw [hzip, List.all_map, List.all_eq_true]
    constructor
    · intro h k hk
      exact (client_line_iff _ k).mp (h k (List.mem_range.mpr (by omega))) hk
    · intro h k _
      exact (client_line_iff _ k).mpr (h k)
  unfold run_test
  simp only [stdout_list_output]
  by_cases hN : N = 3
  · have hclients : ∀ d, d ∈ L ↔ d = 1 ∨ d = 2 := by
      intro d
      rw [hmem]
      omega
    rw [if_neg (not_not.mpr hN), if_neg (not_not.mpr hserver)]
    simp [hclient, hclients, hN]
  · rw [if_pos hN]
    simp [hN]

end Sender

/-- **The network whose server drops out**, in every interleaving, for every number of clients, in
whatever order the server has them, however late they start and often they look: the clients get what
the server has sent, and time out on the rest. The verifier accepts it if each of the first three messages
of a client is there when it first looks. -/
theorem sender_passes (hL : L.Nodup) (hmem : ∀ v, v ∈ L ↔ 0 < v ∧ v < N) (lag : Lag)
    (looks : ℕ → ℕ → ℕ) :
    Prints N (Sender.network N L lag looks) (Sender.output L lag looks) ∧
      (Sender.run_test N (fun i => stdout_list (Sender.output L lag looks i)) = some true ↔
        N = 3 ∧ ∀ d ∈ L, ∀ k < 3, looks d (k + 1) = 0) := by
  have hstar := Sender.star_scripts hL hmem lag looks
  have hruns := hstar.runs (A := Sender.ending N) (fun _ _ => Sender.parties_bound) (fun _ _ _ => if_pos rfl)
    (fun i hi => by rw [Sender.ending, after, if_neg hi, ite_self])
    (Sender.follows_network hL lag looks)
  exact ⟨prints_of_runs hruns (fun _ _ => rfl) fun i hi => Sender.stdout_party hi L lag looks,
    Sender.run_test_iff hmem lag looks⟩

/-- The network of the test has two clients. The looks of the two waits in vain do not matter, one look in
vain for the third message does. -/
theorem sender_passes_two :
    let lag : Lag := ⟨fun _ _ => 2, fun _ _ => by decide⟩
    let looks (n : ℕ) (_ k : ℕ) : ℕ := if k ≤ 2 then 0 else if k = 3 then n else 7
    let cout (n i : ℕ) := stdout_list (Sender.output [1, 2] lag (looks n) i)
    Prints 3 (Sender.network 3 [1, 2] lag (looks 0)) (Sender.output [1, 2] lag (looks 0)) ∧
      Sender.run_test 3 (cout 0) = some true ∧ Sender.run_test 3 (cout 1) ≠ some true := by
  intro lag looks cout
  have hmem : ∀ v, v ∈ [1, 2] ↔ 0 < v ∧ v < 3 := fun v => by simp; omega
  obtain ⟨hprints, hfirst⟩ := sender_passes (L := [1, 2]) (by decide) hmem lag (looks 0)
  obtain ⟨-, hlate⟩ := sender_passes (L := [1, 2]) (by decide) hmem lag (looks 1)
  refine ⟨hprints, hfirst.mpr ⟨rfl, fun d _ k hk => ?_⟩, fun h => ?_⟩
  · simp only [looks]
    split_ifs <;> omega
  · exact absurd ((hlate.mp h).2 1 (by decide) 2 (by decide)) one_ne_zero

end TestNets.Dropout

import NetworkExamples.TestNets.Scripts

/-!
# The test network of cycles

In `large_cycle_increment.cpp` the parties send a message around cycles of three. The verifier of the
same name generates what each party is to print. A party that sends writes a spinner until its receiver
is up, in front of what it prints next.

* `cycle_passes`: what the parties print, for every number of them that is a multiple of 3 and however
  late they start, and when the verifier accepts it.
-/

namespace TestNets.Cycle

open Fifo PeerToPeer

/-! ## The target -/

/-- A party that is not `myName` sends nothing. -/
def sendData (failed : ℕ → ℕ) (est : Connections) (myName : String) (sendToNode : ℕ)
    (NodeName msgSoFar : String) : Node Connections :=
  if NodeName = myName then do
    let newMsg : MessageFormat := ⟨false, NodeName, "HelloMsg", msgSoFar ++ "->" ++ myName⟩
    cout (endl (myName ++ " sending msg:" ++ "\"" ++ newMsg.Data ++ "\"" ++ " to " ++
      nodeName sendToNode))
    sendMsg failed est sendToNode newMsg
  else pure est

def recvData (myName : String) (recvFromNode : ℕ) (NodeName msgSoFar : String) : Node String :=
  if NodeName = myName then do
    let reply1 ← getMsgLoop recvFromNode
    cout (endl ("Got: " ++ "\"" ++ reply1.Data ++ "\"" ++ " from " ++ nodeName recvFromNode))
    pure (msgSoFar ++ reply1.Data)
  else pure msgSoFar

def NUM_REPS : ℕ := 1

def CYCLE_SIZE : ℕ := 3

/-- The body of the loop over the anchors. -/
def turn (failed : ℕ → ℕ) (NodeName : String) (est : Connections) (senderIdx : ℕ) :
    Node Connections :=
  let anchor := nodeName senderIdx
  let oneAhead := nodeName (senderIdx + 1)
  let twoAhead := nodeName (senderIdx + 2)
  let msgSoFar := ""
  if NodeName = anchor then do
    let est ← sendData failed est anchor (senderIdx + 1) NodeName msgSoFar
    let _ ← recvData anchor (senderIdx + 2) NodeName msgSoFar
    pure est
  else if NodeName = oneAhead then do
    let msgSoFar ← recvData oneAhead senderIdx NodeName msgSoFar
    sendData failed est oneAhead (senderIdx + 2) NodeName msgSoFar
  else if NodeName = twoAhead then do
    let msgSoFar ← recvData twoAhead (senderIdx + 1) NodeName msgSoFar
    sendData failed est twoAhead senderIdx NodeName msgSoFar
  else pure est

/-- The loop goes up to the anchor `numParties`, which is the name of no party. -/
def cycles (failed : ℕ → ℕ) (numParties : ℕ) (NodeName : String) : Node Connections :=
  (List.range NUM_REPS).foldlM (fun est _ =>
    (List.range' 0 (numParties / CYCLE_SIZE + 1) CYCLE_SIZE).foldlM (turn failed NodeName) est)
    fun _ => false

def main (failed : ℕ → ℕ) (numParties i : ℕ) : Node Unit := do
  Register i
  Start i
  cout (endl "DEMARCATE START")
  let _ ← cycles failed numParties (nodeName i)
  cout (endl "DEMARCATE END")
  Stop i

/-- The parties `0, …, N - 1`. -/
def network (N : ℕ) (lag : Lag) (i : ℕ) : Node Unit :=
  if i < N then main (lag.failed i) N i else pure ()

/-- The generator of the verifier. -/
def test_res_generator (node_idx : ℕ) : List String :=
  let client (i : ℕ) : String := "Client" ++ toString i
  if node_idx % 3 = 0 then
    let me := if node_idx ≠ 0 then client node_idx else "Server"
    let ahead := client (node_idx + 1)
    let two_ahead := client (node_idx + 2)
    [me ++ " sending msg:\"->" ++ me ++ "\" to " ++ ahead,
      "Got: \"->" ++ me ++ "->" ++ ahead ++ "->" ++ two_ahead ++ "\" from " ++ two_ahead]
  else if node_idx % 3 = 1 then
    let behind := if node_idx ≠ 1 then client (node_idx - 1) else "Server"
    let me := client node_idx
    let ahead := client (node_idx + 1)
    ["Got: \"->" ++ behind ++ "\" from " ++ behind,
      me ++ " sending msg:\"->" ++ behind ++ "->" ++ me ++ "\" to " ++ ahead]
  else
    let behind := client (node_idx - 1)
    let me := client node_idx
    let ahead := if node_idx ≠ 2 then client (node_idx - 2) else "Server"
    ["Got: \"->" ++ ahead ++ "->" ++ behind ++ "\" from " ++ behind,
      me ++ " sending msg:\"->" ++ ahead ++ "->" ++ behind ++ "->" ++ me ++ "\" to " ++ ahead]

/-- The verifier. -/
def run_test (total_nodes : ℕ) (cout : ℕ → List (List Char)) : Bool :=
  (List.range total_nodes).all fun party_idx =>
    agrees same (cout party_idx) (test_res_generator party_idx)

/-- The party that a party sends to. -/
def next (a : ℕ) : ℕ := if a % 3 = 2 then a - 2 else a + 1

/-- **What a party prints**: the lines of the generator, with the spinner in front of the line after its
send. An anchor sends first, the others last. -/
def output (lag : Lag) (i : ℕ) : List Char :=
  printed ((opening i).map String.toList)
    (spun (if i % 3 = 0 then 1 else 2) (lag.failed i (next i))
      ((test_res_generator i).map String.toList ++ [stop]) ++ (closing i).map String.toList)

/-! ## The scripts -/

/-- The message of the party that is `k` ahead of the anchor `s`. -/
def data (s : ℕ) : ℕ → String
  | 0 => "" ++ "->" ++ nodeName s
  | k + 1 => "" ++ data s k ++ "->" ++ nodeName (s + (k + 1))

def msg (s k : ℕ) : MessageFormat := ⟨false, nodeName (s + k), "HelloMsg", data s k⟩

/-- The line that the party prints when it sends. -/
def sendLine (s k d : ℕ) : String :=
  nodeName (s + k) ++ " sending msg:" ++ "\"" ++ data s k ++ "\"" ++ " to " ++ nodeName d

/-- The line that it prints when it receives. -/
def recvLine (s k a : ℕ) : String := "Got: " ++ "\"" ++ data s k ++ "\"" ++ " from " ++ nodeName a

/-- What the party that is `k` ahead of the anchor does, if its first `n` attempts fail. -/
def role (s n : ℕ) : ℕ → Script ℕ MessageFormat String
  | 0 => [(0, .noted (endl (sendLine s 0 (s + 1))))] ++ (connects 0 (s + 1) (msg s 0) n ++
      [(5, .got (s + 2) (.got (msg s 2))), (5, .noted (endl (recvLine s 2 (s + 2))))])
  | 1 => [(1, .got s (.got (msg s 0))), (1, .noted (endl (recvLine s 0 s))),
      (2, .noted (endl (sendLine s 1 (s + 2))))] ++ connects 2 (s + 2) (msg s 1) n
  | _ => [(3, .got (s + 1) (.got (msg s 1))), (3, .noted (endl (recvLine s 1 (s + 1)))),
      (4, .noted (endl (sendLine s 2 s)))] ++ connects 4 s (msg s 2) n

theorem role_two (s n : ℕ) : role s n 2 =
    [(3, .got (s + 1) (.got (msg s 1))), (3, .noted (endl (recvLine s 1 (s + 1)))),
      (4, .noted (endl (sendLine s 2 s)))] ++ connects 4 s (msg s 2) n := rfl

def script (N : ℕ) (lag : Lag) (i : ℕ) : Script ℕ MessageFormat String :=
  if i < N then role (i - i % 3) (lag.failed i (next i)) (i % 3) else []

variable {N i s n : ℕ} {lag : Lag}

/-- The place of a party in its cycle. -/
theorem place_cases (i : ℕ) : ∃ s, s % 3 = 0 ∧ (s = i ∨ s + 1 = i ∨ s + 2 = i) :=
  ⟨i - i % 3, by omega, by omega⟩

theorem script_anchor (hs : s % 3 = 0) (h : s < N) :
    script N lag s = role s (lag.failed s (next s)) 0 := by
  unfold script
  rw [if_pos h, hs, Nat.sub_zero]

theorem script_one (hs : s % 3 = 0) (h : s + 1 < N) :
    script N lag (s + 1) = role s (lag.failed (s + 1) (next (s + 1))) 1 := by
  unfold script
  rw [if_pos h, show (s + 1) % 3 = 1 by omega, Nat.add_sub_cancel]

theorem script_two (hs : s % 3 = 0) (h : s + 2 < N) :
    script N lag (s + 2) = role s (lag.failed (s + 2) (next (s + 2))) 2 := by
  unfold script
  rw [if_pos h, show (s + 2) % 3 = 2 by omega, Nat.add_sub_cancel]

theorem sents_script (a b : ℕ) : sents (script N lag a) b =
    if a < N ∧ b = next a then [(2 * (a % 3), msg (a - a % 3) (a % 3), false)] else [] := by
  by_cases ha : a < N
  · obtain ⟨s, hs, rfl | rfl | rfl⟩ := place_cases a
    · rw [script_anchor hs ha]
      simp [role, next, hs, ha, eq_comm]
    · have h1 : (s + 1) % 3 = 1 := by omega
      rw [script_one hs ha]
      simp [role, next, h1, ha, eq_comm]
    · have h2 : (s + 2) % 3 = 2 := by omega
      rw [script_two hs ha]
      simp [role, next, h2, ha, eq_comm]
  · simp [script, ha]

theorem takes_script (a b : ℕ) : takes (script N lag b) a =
    if b < N ∧ b = next a then [(2 * (a % 3) + 1, .got (msg (a - a % 3) (a % 3)))] else [] := by
  by_cases hb : b < N
  · obtain ⟨s, hs, rfl | rfl | rfl⟩ := place_cases b
    · rw [script_anchor hs hb]
      by_cases ha : s + 2 = a
      · subst ha
        have h2 : (s + 2) % 3 = 2 := by omega
        simp [role, next, h2, hb]
      · have hne : s ≠ next a := by
          unfold next
          split <;> omega
        simp [role, ha, hne]
    · rw [script_one hs hb]
      by_cases ha : s = a
      · subst ha
        simp [role, next, hs, hb]
      · have hne : s + 1 ≠ next a := by
          unfold next
          split <;> omega
        simp [role, ha, hne]
    · rw [script_two hs hb]
      by_cases ha : s + 1 = a
      · subst ha
        have h1 : (s + 1) % 3 = 1 := by omega
        simp [role, next, h1, hb]
      · have hne : s + 2 ≠ next a := by
          unfold next
          split <;> omega
        simp [role, ha, hne]
  · simp [script, hb]

theorem role_sorted (s n k : ℕ) : (role s n k).Pairwise (·.1 ≤ ·.1) := by
  have hsends : ∀ t d m, (connects t d m n).Pairwise (·.1 ≤ ·.1) := fun t d m =>
    sorted_of_eq fun _ he => (mem_connects he).1
  unfold role
  split
  · rw [List.singleton_append]
    refine List.pairwise_cons.mpr ⟨fun e _ => Nat.zero_le _, ?_⟩
    refine List.pairwise_append.mpr ⟨hsends _ _ _, by simp, fun e he e' he' => ?_⟩
    rw [(mem_connects he).1]
    exact Nat.zero_le _
  · refine List.pairwise_append.mpr ⟨by simp, hsends _ _ _, fun e he e' he' => ?_⟩
    rw [(mem_connects he').1]
    simp only [List.mem_cons, List.not_mem_nil, or_false] at he
    rcases he with rfl | rfl | rfl <;> simp
  · refine List.pairwise_append.mpr ⟨by simp, hsends _ _ _, fun e he e' he' => ?_⟩
    rw [(mem_connects he').1]
    simp only [List.mem_cons, List.not_mem_nil, or_false] at he
    rcases he with rfl | rfl | rfl <;> simp

theorem role_bound {k : ℕ} {e : ℕ × Event ℕ MessageFormat String} (he : e ∈ role s n k) :
    e.1 < 6 := by
  unfold role at he
  split at he
  · simp only [List.mem_cons, List.mem_append, List.not_mem_nil, or_false] at he
    rcases he with rfl | he | rfl | rfl
    · simp
    · rw [(mem_connects he).1]
      simp
    · simp
    · simp
  all_goals
    rcases List.mem_append.mp he with he | he
    · simp only [List.mem_cons, List.not_mem_nil, or_false] at he
      rcases he with rfl | rfl | rfl <;> simp
    · rw [(mem_connects he).1]
      simp

theorem script_phase (h3 : 3 ∣ N) (lag : Lag) : Phase (script N lag) 6 := by
  refine ⟨fun i => ?_, fun i e he => ?_, fun a b => ?_⟩
  · unfold script
    split
    · exact role_sorted _ _ _
    · exact .nil
  · unfold script at he
    split at he
    · exact role_bound he
    · cases he
  · rw [sents_script, takes_script]
    by_cases hb : b = next a
    · -- The parties of a cycle are all there, or none is.
      have hN : a < N ↔ b < N := by
        subst hb
        unfold next
        split <;> omega
      simp only [hN]
      split
      · exact .cons ⟨Nat.lt_succ_self _, rfl⟩ .nil
      · exact .nil
    · simp [hb]

/-! ## The programs -/

variable {failed : ℕ → ℕ} {est : Connections}

theorem turn_eq {y : ℕ} (hy : y % 3 = 0) (hne : y ≠ i - i % 3) :
    turn failed (nodeName i) est y = pure est := by
  have h0 : nodeName i ≠ nodeName y := fun h => by have := nodeName_inj h; omega
  have h1 : nodeName i ≠ nodeName (y + 1) := fun h => by have := nodeName_inj h; omega
  have h2 : nodeName i ≠ nodeName (y + 2) := fun h => by have := nodeName_inj h; omega
  unfold turn
  rw [if_neg h0, if_neg h1, if_neg h2]

theorem cycles_eq (h : i < N) : cycles failed N (nodeName i) =
    turn failed (nodeName i) (fun _ => false) (i - i % 3) := by
  have hmem : i - i % 3 ∈ List.range' 0 (N / CYCLE_SIZE + 1) CYCLE_SIZE := by
    rw [List.mem_range']
    refine ⟨i / 3, ?_, ?_⟩
    · have hdiv := Nat.div_le_div_right (c := 3) h.le
      unfold CYCLE_SIZE
      omega
    · unfold CYCLE_SIZE
      omega
  have hinner : ∀ est : Connections, (List.range' 0 (N / CYCLE_SIZE + 1) CYCLE_SIZE).foldlM
      (turn failed (nodeName i)) est = turn failed (nodeName i) est (i - i % 3) := by
    intro est
    have hnodup : (List.range' 0 (N / CYCLE_SIZE + 1) CYCLE_SIZE).Nodup :=
      List.nodup_range' _ (by decide)
    refine foldlM_only hnodup hmem (fun y hy hne _ => ?_) est
    obtain ⟨q, -, rfl⟩ := List.mem_range'.mp hy
    exact turn_eq (by unfold CYCLE_SIZE; omega) hne
  unfold cycles NUM_REPS
  simp only [hinner, List.range_one, List.foldlM_cons, List.foldlM_nil, bind_pure]

theorem follows_turn (failed : ℕ → ℕ) (i : ℕ) :
    Follows (turn failed (nodeName i) (fun _ => false) (i - i % 3))
      (role (i - i % 3) (failed (next i)) (i % 3)).events
      (.ret (Function.update (fun _ => false) (next i) true)) := by
  have hsend : ∀ t d m, Follows (sendMsg failed (fun _ => false) d m)
      (connects t d m (failed d)).events (.ret (Function.update (fun _ => false) d true)) :=
    fun t d m => follows_sendMsg_first rfl t 0
  obtain ⟨s, hs, rfl | rfl | rfl⟩ := place_cases i
  · have hnext : next s = s + 1 := if_neg (by omega)
    rw [hs, Nat.sub_zero, hnext, role, events_append, events_append]
    unfold turn sendData recvData
    simp only [if_true]
    exact .note ((hsend 0 (s + 1) (msg s 0)).bind (.recv rfl (.note (.nil _))))
  · have h1 : (s + 1) % 3 = 1 := by omega
    have h0 : nodeName (s + 1) ≠ nodeName s := fun h => by have := nodeName_inj h; omega
    have hnext : next (s + 1) = s + 2 := if_neg (by omega)
    rw [h1, Nat.add_sub_cancel, hnext]
    unfold turn sendData recvData
    simp only [if_true, h0, if_false]
    exact .recv rfl (.note (.note (hsend 2 (s + 2) (msg s 1))))
  · have h2 : (s + 2) % 3 = 2 := by omega
    have h0 : nodeName (s + 2) ≠ nodeName s := fun h => by have := nodeName_inj h; omega
    have h1 : nodeName (s + 2) ≠ nodeName (s + 1) := fun h => by have := nodeName_inj h; omega
    have hnext : next (s + 2) = s := if_pos h2
    rw [h2, Nat.add_sub_cancel, hnext]
    unfold turn sendData recvData
    simp only [if_true, h0, h1, if_false]
    exact .recv rfl (.note (.note (hsend 4 s (msg s 2))))

theorem follows_network (lag : Lag) (i : ℕ) : Follows (network N lag i)
    (framed (before N) (after N) 6 (script N lag) i).events (.ret ()) := by
  unfold network
  split
  · next h =>
    have hturn := follows_turn (lag.failed i) i
    rw [← cycles_eq h] at hturn
    have hscript : script N lag i = role (i - i % 3) (lag.failed i (next i)) (i % 3) := if_pos h
    rw [← hscript] at hturn
    exact follows_framed h hturn 6
  · next h =>
    rw [framed, script, if_neg h, before, if_neg h, after, if_neg h]
    exact .nil _

/-! ## What the parties print -/

theorem nodeName_pos {k : ℕ} (h : k ≠ 0) : nodeName k = "Client" ++ toString k := if_neg h

theorem nodeName_if (k : ℕ) : (if k ≠ 0 then "Client" ++ toString k else "Server") = nodeName k := by
  unfold nodeName
  rw [ite_not]

theorem send_arrow (x : String) : " sending msg:\"" ++ ("->" ++ x) = " sending msg:\"->" ++ x := by
  rw [← String.append_assoc]
  rfl

theorem got_arrow (x : String) : "Got: \"" ++ ("->" ++ x) = "Got: \"->" ++ x := by
  rw [← String.append_assoc]
  rfl

/-- The lines of the generator. -/
theorem test_res_generator_eq (i : ℕ) : test_res_generator i =
    if i % 3 = 0 then [sendLine i 0 (i + 1), recvLine i 2 (i + 2)]
    else if i % 3 = 1 then [recvLine (i - 1) 0 (i - 1), sendLine (i - 1) 1 (i + 1)]
    else [recvLine (i - 2) 1 (i - 1), sendLine (i - 2) 2 (i - 2)] := by
  obtain ⟨s, hs, rfl | rfl | rfl⟩ := place_cases i
  · unfold test_res_generator
    dsimp only
    rw [if_pos hs, if_pos hs, nodeName_if, ← nodeName_pos (Nat.succ_ne_zero s),
      ← nodeName_pos (by omega)]
    simp [sendLine, recvLine, data, String.append_assoc, send_arrow, got_arrow]
  · have h1 : (s + 1) % 3 = 1 := by omega
    have hif : (if s + 1 ≠ 1 then "Client" ++ toString s else "Server") = nodeName s := by
      rw [← nodeName_if]
      simp
    unfold test_res_generator
    simp only [h1, one_ne_zero, if_true, if_false, Nat.add_sub_cancel, hif]
    rw [← nodeName_pos (Nat.succ_ne_zero s), ← nodeName_pos (Nat.succ_ne_zero (s + 1))]
    simp [sendLine, recvLine, data, String.append_assoc, send_arrow, got_arrow]
  · have h2 : (s + 2) % 3 = 2 := by omega
    have hif : (if s + 2 ≠ 2 then "Client" ++ toString s else "Server") = nodeName s := by
      rw [← nodeName_if]
      simp
    have hone : s + 2 - 1 = s + 1 := by omega
    unfold test_res_generator
    simp only [h2, OfNat.ofNat_ne_zero, OfNat.ofNat_ne_one, if_false, Nat.add_sub_cancel, hif, hone]
    rw [← nodeName_pos (Nat.succ_ne_zero (s + 1)), ← nodeName_pos (Nat.succ_ne_zero s)]
    simp [sendLine, recvLine, data, String.append_assoc, send_arrow, got_arrow]

theorem isPart_data (s k : ℕ) : IsPart (data s k) := by
  induction k with
  | zero =>
    have harrow : IsPart ("" ++ "->") := by decide
    exact harrow.append (isPart_nodeName s)
  | succ k ih =>
    have hempty : IsPart "" := by decide
    have harrow : IsPart "->" := by decide
    exact ((hempty.append ih).append harrow).append (isPart_nodeName _)

theorem plain_sendLine (s k d : ℕ) : Plain (sendLine s k d) :=
  ((((((plain_nodeName _).append (by decide)).append (by decide)).append (isPart_data s k)).append
    (by decide)).append (by decide)).append (isPart_nodeName d)

theorem plain_recvLine (s k a : ℕ) : Plain (recvLine s k a) :=
  (((((show Plain "Got: " by decide).append (by decide)).append (isPart_data s k)).append
    (by decide)).append (by decide)).append (isPart_nodeName a)

theorem plain_generator (i : ℕ) : ∀ a ∈ test_res_generator i, Plain a := by
  intro a ha
  rw [test_res_generator_eq] at ha
  split at ha
  · simp only [List.mem_cons, List.not_mem_nil, or_false] at ha
    rcases ha with rfl | rfl
    · exact plain_sendLine _ _ _
    · exact plain_recvLine _ _ _
  · split at ha
    all_goals
      simp only [List.mem_cons, List.not_mem_nil, or_false] at ha
      rcases ha with rfl | rfl
      · exact plain_recvLine _ _ _
      · exact plain_sendLine _ _ _

theorem length_generator (i : ℕ) : (test_res_generator i).length = 2 := by
  rw [test_res_generator_eq]
  split
  · rfl
  · split <;> rfl

theorem stdout_script (lag : Lag) (h : i < N) : stdout (script N lag i).events ++ stop ++ ['\n'] =
    text (spun (if i % 3 = 0 then 1 else 2) (lag.failed i (next i))
      ((test_res_generator i).map String.toList ++ [stop])) := by
  rw [script, if_pos h, test_res_generator_eq]
  obtain ⟨s, hs, rfl | rfl | rfl⟩ := place_cases i
  · rw [hs, Nat.sub_zero, if_pos rfl, if_pos rfl, role, events_append, stdout_append, events_append,
      stdout_append, stdout_connects]
    simp [text, spun]
  · have h1 : (s + 1) % 3 = 1 := by omega
    rw [h1, Nat.add_sub_cancel, if_neg (by decide), if_neg (by decide), if_pos rfl, role, events_append,
      stdout_append, stdout_connects]
    simp [text, spun]
  · have h2 : (s + 2) % 3 = 2 := by omega
    rw [h2, Nat.add_sub_cancel, if_neg (by decide), if_neg (by decide), if_neg (by decide), role_two,
      events_append, stdout_append, stdout_connects]
    simp [text, spun]

/-- What the verifier says of a party. -/
theorem agrees_iff (lag : Lag) (i : ℕ) :
    agrees same (stdout_list (output lag i)) (test_res_generator i) = true ↔
      (i % 3 = 0 → lag.failed i (i + 1) ≤ 1) := by
  unfold output
  by_cases hi : i % 3 = 0
  · have hnext : next i = i + 1 := if_neg (by omega)
    have hlt : 1 < (test_res_generator i).length := by rw [length_generator]; decide
    rw [if_pos hi, hnext]
    exact (agrees_spun_iff (isLine_opening i) (plain_generator i) (isLine_closing i) hlt).trans
      ⟨fun h _ => h, fun h => h hi⟩
  · have hstop := agrees_spun_stop (isLine_opening i) (plain_generator i) (isLine_closing i)
      (lag.failed i (next i))
    rw [length_generator] at hstop
    rw [if_neg hi]
    exact iff_of_true hstop fun h => absurd h hi

/-- **The network of the cycles**, in every interleaving, for every number of parties that is a multiple
of 3 and however late they start: what it prints, and when the verifier accepts it. -/
theorem cycle_passes (h3 : 3 ∣ N) (lag : Lag) : Prints N (network N lag) (output lag) ∧
    (run_test N (fun i => stdout_list (output lag i)) = true ↔
      ∀ i < N, i % 3 = 0 → lag.failed i (i + 1) ≤ 1) := by
  constructor
  · have hruns := (script_phase h3 lag).frame (r := fun _ => .ret ()) (fun _ => rfl)
      (fun i hi => if_neg fun h => hi (Finset.mem_range.mpr h)) (fun i hi => frame_outside hi)
      (follows_network lag)
    exact prints_of_runs hruns (fun _ _ => rfl) fun i hi => stdout_framed hi (stdout_script lag hi) 6
  · unfold run_test
    simp only [List.all_eq_true, List.mem_range, agrees_iff]

/-- The network of the test has 60 parties. If they are all up, the verifier accepts it; a second attempt
that fails is one too many. -/
theorem cycle_passes_sixty :
    let lag (n : ℕ) (hn : n ≤ 1000) : Lag := ⟨fun _ _ => n, fun _ _ => hn⟩
    Prints 60 (network 60 (lag 0 (by decide))) (output (lag 0 (by decide))) ∧
      run_test 60 (fun i => stdout_list (output (lag 0 (by decide)) i)) = true ∧
      run_test 60 (fun i => stdout_list (output (lag 2 (by decide)) i)) = false := by
  intro lag
  obtain ⟨hprints, hup⟩ := cycle_passes (N := 60) ⟨20, rfl⟩ (lag 0 (by decide))
  obtain ⟨-, hlate⟩ := cycle_passes (N := 60) ⟨20, rfl⟩ (lag 2 (by decide))
  refine ⟨hprints, hup.mpr fun _ _ _ => Nat.zero_le 1, ?_⟩
  rw [← Bool.not_eq_true, hlate]
  intro h
  exact absurd (h 0 (by decide) rfl) (by decide)

end TestNets.Cycle

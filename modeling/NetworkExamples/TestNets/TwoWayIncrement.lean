import NetworkExamples.TestNets.Scripts

/-!
# The test network of pairs

In `large_two_way_increment.cpp` each party of the first half sends a message to its party of the second
half and gets one back, five times over. The verifier of the same name generates what each party is to
print. With its first message a party writes a spinner until its receiver is up.

* `two_way_passes`: what the parties print, for every even number of them and however late they start,
  and when the verifier accepts it.
-/

namespace TestNets.TwoWay

open Fifo PeerToPeer

/-! ## The target -/

/-- A party that is not `partyIdx` sends nothing. -/
def sendData (failed : ℕ → ℕ) (est : Connections) (partyIdx numParties : ℕ) (NodeName : String)
    (reverse : Bool) : Node Connections :=
  let myName := nodeName partyIdx
  if NodeName = myName then do
    let newMsg : MessageFormat := ⟨false, NodeName, "HelloMsg", "Ping from " ++ myName⟩
    let sendToNode :=
      if reverse then if partyIdx = numParties / 2 then 0 else partyIdx - numParties / 2
      else partyIdx + numParties / 2
    cout (endl (myName ++ " sending msg:" ++ "\"" ++ newMsg.Data ++ "\"" ++ " and sending to " ++
      nodeName sendToNode))
    sendMsg failed est sendToNode newMsg
  else pure est

def recvData (partyIdx numParties : ℕ) (NodeName : String) (recvCount : ℕ) (reverse : Bool) :
    Node ℕ :=
  let myName := nodeName partyIdx
  if NodeName = myName then do
    let getFromNode :=
      if reverse then if partyIdx = numParties / 2 then 0 else partyIdx + numParties / 2
      else if partyIdx = numParties / 2 then 0 else partyIdx - numParties / 2
    let reply1 ← getMsgLoop getFromNode
    cout (endl ("Got message: #" ++ toString recvCount ++ " where contents were " ++ "\"" ++
      reply1.Data ++ "\"" ++ " from " ++ nodeName getFromNode))
    pure (recvCount + 1)
  else pure recvCount

def NUM_REPS : ℕ := 5

/-- What the loops change: the connections, and `recvCount`. -/
abbrev State := Connections × ℕ

/-- The body of the first loop over the parties. -/
def there (failed : ℕ → ℕ) (numParties : ℕ) (NodeName : String) (s : State) (partyIdx : ℕ) :
    Node State :=
  let myName := nodeName partyIdx
  if NodeName = myName then
    if partyIdx < numParties / 2 then do
      let est ← sendData failed s.1 partyIdx numParties NodeName false
      pure (est, s.2)
    else do
      let recvCount ← recvData partyIdx numParties NodeName s.2 false
      pure (s.1, recvCount)
  else pure s

/-- The body of the second loop, which goes down. -/
def back (failed : ℕ → ℕ) (numParties : ℕ) (NodeName : String) (s : State) (partyIdx : ℕ) :
    Node State :=
  let myName := nodeName partyIdx
  if NodeName = myName then
    if partyIdx < numParties / 2 then do
      let recvCount ← recvData partyIdx numParties NodeName s.2 true
      pure (s.1, recvCount)
    else do
      let est ← sendData failed s.1 partyIdx numParties NodeName true
      pure (est, s.2)
  else pure s

def rep (failed : ℕ → ℕ) (numParties : ℕ) (NodeName : String) (s : State) : Node State := do
  let s ← (List.range numParties).foldlM (there failed numParties NodeName) s
  (List.range numParties).reverse.foldlM (back failed numParties NodeName) s

def reps (failed : ℕ → ℕ) (numParties : ℕ) (NodeName : String) : Node State :=
  (List.range NUM_REPS).foldlM (fun s _ => rep failed numParties NodeName s) (fun _ => false, 0)

def main (failed : ℕ → ℕ) (numParties i : ℕ) : Node Unit := do
  Register i
  Start i
  cout (endl "DEMARCATE START")
  let _ ← reps failed numParties (nodeName i)
  cout (endl "DEMARCATE END")
  Stop i

/-- The parties `0, …, N - 1`. -/
def network (N : ℕ) (lag : Lag) (i : ℕ) : Node Unit :=
  if i < N then main (lag.failed i) N i else pure ()

/-- The generator of the verifier. -/
def test_res_generator (node_idx total_nodes : ℕ) : List String :=
  let name (i : ℕ) : String := if i = 0 then "Server" else "Client" ++ toString i
  let party := name node_idx
  let sending_to (sending_party : String) : String :=
    party ++ " sending msg:\"Ping from " ++ party ++ "\" and sending to " ++ sending_party
  let recv_from (i : ℕ) (sending_party : String) : String :=
    "Got message: #" ++ toString i ++ " where contents were \"Ping from " ++ sending_party ++
      "\" from " ++ sending_party
  (List.range NUM_REPS).flatMap fun i =>
    if node_idx < total_nodes / 2 then
      let sending_party := name (node_idx + total_nodes / 2)
      [sending_to sending_party, recv_from i sending_party]
    else
      let sending_party := name (node_idx - total_nodes / 2)
      [recv_from i sending_party, sending_to sending_party]

/-- The verifier. -/
def run_test (total_nodes : ℕ) (cout : ℕ → List (List Char)) : Bool :=
  (List.range total_nodes).all fun party_idx =>
    agrees same (cout party_idx) (test_res_generator party_idx total_nodes)

/-- The party that the party `i` of `2 * h` sends to and gets from. -/
def peer (h i : ℕ) : ℕ := if i < h then i + h else i - h

/-- **What a party prints**: the lines of the generator, with the spinner in front of the line after its
first send. The first half sends first. -/
def output (N : ℕ) (lag : Lag) (i : ℕ) : List Char :=
  printed ((opening i).map String.toList)
    (spun (if i < N / 2 then 1 else 2) (lag.failed i (peer (N / 2) i))
      ((test_res_generator i N).map String.toList ++ [stop]) ++ (closing i).map String.toList)

/-! ## The scripts -/

def msg (i : ℕ) : MessageFormat := ⟨false, nodeName i, "HelloMsg", "Ping from " ++ nodeName i⟩

/-- The line that a party prints when it sends. -/
def sendLine (h i : ℕ) : String :=
  nodeName i ++ " sending msg:" ++ "\"" ++ (msg i).Data ++ "\"" ++ " and sending to " ++
    nodeName (peer h i)

/-- The line that it prints when it receives. -/
def recvLine (h r i : ℕ) : String :=
  "Got message: #" ++ toString r ++ " where contents were " ++ "\"" ++ (msg (peer h i)).Data ++ "\"" ++
    " from " ++ nodeName (peer h i)

/-- The send of the turn `r`, of whose attempts the first `n` fail if it is the first. -/
def sends (r n t d : ℕ) (m : MessageFormat) : Script ℕ MessageFormat String :=
  if r = 0 then connects t d m n else [(t, .sent d m false)]

/-- A party of the first half sends first. -/
def repScript (h n r i : ℕ) : Script ℕ MessageFormat String :=
  if i < h then
    [(0, .noted (endl (sendLine h i)))] ++ (sends r n 0 (peer h i) (msg i) ++
      [(3, .got (peer h i) (.got (msg (peer h i)))), (3, .noted (endl (recvLine h r i)))])
  else if i < 2 * h then
    [(1, .got (peer h i) (.got (msg (peer h i)))), (1, .noted (endl (recvLine h r i))),
      (2, .noted (endl (sendLine h i)))] ++ sends r n 2 (peer h i) (msg i)
  else []

def script (h : ℕ) (lag : Lag) (i : ℕ) : Script ℕ MessageFormat String :=
  loop (fun r i => repScript h (lag.failed i (peer h i)) r i) 4 (List.range NUM_REPS) i

variable {h i r n n' : ℕ} {lag : Lag}

/-- A party of the first half, of the second, or none. -/
theorem half_cases (h i : ℕ) : i < h ∨ (h ≤ i ∧ i < 2 * h) ∨ 2 * h ≤ i := by omega

@[simp] theorem sents_sends (r n t d d' : ℕ) (m : MessageFormat) :
    sents (sends r n t d m) d' = if d = d' then [(t, m, false)] else [] := by
  unfold sends
  split
  · exact sents_connects t d d' m n
  · exact sents_cons_sent t d' d m false []

@[simp] theorem takes_sends (r n t d a : ℕ) (m : MessageFormat) :
    takes (sends r n t d m) a = [] := by
  unfold sends
  split
  · exact takes_connects t d a m n
  · rfl

theorem mem_sends {t d : ℕ} {m : MessageFormat} {e : ℕ × Event ℕ MessageFormat String}
    (he : e ∈ sends r n t d m) : e.1 = t := by
  unfold sends at he
  split at he
  · exact (mem_connects he).1
  · rw [List.mem_singleton.mp he]

theorem repScript_fst (hi : i < h) : repScript h n r i =
    [(0, .noted (endl (sendLine h i)))] ++ (sends r n 0 (i + h) (msg i) ++
      [(3, .got (i + h) (.got (msg (i + h)))), (3, .noted (endl (recvLine h r i)))]) := by
  have hp : peer h i = i + h := if_pos hi
  rw [repScript, if_pos hi, hp]

theorem repScript_snd (hi : h ≤ i) (h2 : i < 2 * h) : repScript h n r i =
    [(1, .got (i - h) (.got (msg (i - h)))), (1, .noted (endl (recvLine h r i))),
      (2, .noted (endl (sendLine h i)))] ++ sends r n 2 (i - h) (msg i) := by
  have hp : peer h i = i - h := if_neg hi.not_gt
  rw [repScript, if_neg hi.not_gt, if_pos h2, hp]

theorem repScript_outside (hi : 2 * h ≤ i) : repScript h n r i = [] := by
  have h1 : ¬ i < h := by omega
  rw [repScript, if_neg h1, if_neg hi.not_gt]

theorem wire_repScript (r n n' a b : ℕ) :
    Wire (sents (repScript h n r a) b) (takes (repScript h n' r b) a) := by
  rcases half_cases h a with ha | ⟨ha, ha'⟩ | ha
  · rw [repScript_fst ha]
    by_cases hb : b = a + h
    · have h1 : h ≤ b := by omega
      have h2 : b < 2 * h := by omega
      have hsub : b - h = a := by omega
      rw [repScript_snd h1 h2, hsub, hb]
      simp
    · rcases half_cases h b with h1 | ⟨h1, h2⟩ | h1
      · have hne : b + h ≠ a := by omega
        simp [repScript_fst h1, hne, Ne.symm hb]
      · have hne : b - h ≠ a := by omega
        simp [repScript_snd h1 h2, hne, Ne.symm hb]
      · simp [repScript_outside h1, Ne.symm hb]
  · rw [repScript_snd ha ha']
    by_cases hb : b = a - h
    · have h1 : b < h := by omega
      have hadd : b + h = a := by omega
      rw [repScript_fst h1, hadd, hb]
      simp
    · rcases half_cases h b with h1 | ⟨h1, h2⟩ | h1
      · have hne : b + h ≠ a := by omega
        simp [repScript_fst h1, hne, Ne.symm hb]
      · have hne : b - h ≠ a := by omega
        simp [repScript_snd h1 h2, hne, Ne.symm hb]
      · simp [repScript_outside h1, Ne.symm hb]
  · rw [repScript_outside ha]
    rcases half_cases h b with h1 | ⟨h1, h2⟩ | h1
    · have hne : b + h ≠ a := by omega
      simp [repScript_fst h1, hne]
    · have hne : b - h ≠ a := by omega
      simp [repScript_snd h1 h2, hne]
    · simp [repScript_outside h1]

theorem repScript_sorted (h n r i : ℕ) : (repScript h n r i).Pairwise (·.1 ≤ ·.1) := by
  have hsends : ∀ t d m, (sends r n t d m).Pairwise (·.1 ≤ ·.1) := fun t d m =>
    sorted_of_eq fun _ he => mem_sends he
  unfold repScript
  split
  · rw [List.singleton_append]
    refine List.pairwise_cons.mpr ⟨fun e _ => Nat.zero_le _, ?_⟩
    refine List.pairwise_append.mpr ⟨hsends _ _ _, by simp, fun e he e' he' => ?_⟩
    rw [mem_sends he]
    exact Nat.zero_le _
  · split
    · refine List.pairwise_append.mpr ⟨by simp, hsends _ _ _, fun e he e' he' => ?_⟩
      rw [mem_sends he']
      simp only [List.mem_cons, List.not_mem_nil, or_false] at he
      rcases he with rfl | rfl | rfl <;> simp
    · exact .nil

theorem repScript_bound {e : ℕ × Event ℕ MessageFormat String} (he : e ∈ repScript h n r i) :
    e.1 < 4 := by
  unfold repScript at he
  split at he
  · simp only [List.mem_cons, List.mem_append, List.not_mem_nil, or_false] at he
    rcases he with rfl | he | rfl | rfl
    · simp
    · rw [mem_sends he]
      simp
    · simp
    · simp
  · split at he
    · rcases List.mem_append.mp he with he | he
      · simp only [List.mem_cons, List.not_mem_nil, or_false] at he
        rcases he with rfl | rfl | rfl <;> simp
      · rw [mem_sends he]
        simp
    · cases he

theorem repScript_phase (h : ℕ) (lag : Lag) (r : ℕ) :
    Phase (fun i => repScript h (lag.failed i (peer h i)) r i) 4 :=
  ⟨fun _ => repScript_sorted _ _ _ _, fun _ _ he => repScript_bound he,
    fun _ _ => wire_repScript _ _ _ _ _⟩

/-! ## The programs -/

theorem half_eq (h : ℕ) : 2 * h / 2 = h := Nat.mul_div_cancel_left h (by decide)

variable {failed : ℕ → ℕ}

theorem loop_there (hi : i < 2 * h) (s : State) :
    (List.range (2 * h)).foldlM (there failed (2 * h) (nodeName i)) s =
      there failed (2 * h) (nodeName i) s i := by
  refine foldlM_only List.nodup_range (List.mem_range.mpr hi) (fun y _ hne b => ?_) s
  unfold there
  exact if_neg fun h => hne (nodeName_inj h).symm

theorem loop_back (hi : i < 2 * h) (s : State) :
    (List.range (2 * h)).reverse.foldlM (back failed (2 * h) (nodeName i)) s =
      back failed (2 * h) (nodeName i) s i := by
  have hmem : i ∈ (List.range (2 * h)).reverse := List.mem_reverse.mpr (List.mem_range.mpr hi)
  refine foldlM_only (List.nodup_reverse.mpr List.nodup_range) hmem (fun y _ hne b => ?_) s
  unfold back
  exact if_neg fun h => hne (nodeName_inj h).symm

theorem rep_eq (hi : i < 2 * h) (s : State) : rep failed (2 * h) (nodeName i) s =
    there failed (2 * h) (nodeName i) s i >>= fun s => back failed (2 * h) (nodeName i) s i := by
  unfold rep
  simp only [loop_there hi, loop_back hi]

theorem if_half (i h : ℕ) : (if i = h then 0 else i - h) = i - h := by
  split
  · next hi => rw [hi, Nat.sub_self]
  · rfl

/-- The connections before the turn `r`. -/
def connected (h i r : ℕ) : Connections :=
  if r = 0 then fun _ => false else Function.update (fun _ => false) (peer h i) true

theorem follows_sends (failed : ℕ → ℕ) (h i r t : ℕ) (m : MessageFormat) :
    Follows (sendMsg failed (connected h i r) (peer h i) m)
      (sends r (failed (peer h i)) t (peer h i) m).events (.ret (connected h i (r + 1))) := by
  have hnext : connected h i (r + 1) = Function.update (connected h i r) (peer h i) true := by
    unfold connected
    rw [if_neg (Nat.succ_ne_zero r)]
    split
    · rfl
    · rw [Function.update_idem]
  rw [hnext]
  unfold sends
  split
  · next hr => exact follows_sendMsg_first (by rw [connected, if_pos hr]) t 0
  · next hr => exact follows_sendMsg (by rw [connected, if_neg hr, Function.update_self]) 0

theorem follows_rep (hi : i < 2 * h) (failed : ℕ → ℕ) (r : ℕ) :
    Follows (rep failed (2 * h) (nodeName i) (connected h i r, r))
      (repScript h (failed (peer h i)) r i).events (.ret (connected h i (r + 1), r + 1)) := by
  rw [rep_eq hi]
  unfold there back sendData recvData
  simp only [if_true, half_eq, if_half]
  rcases half_cases h i with h1 | ⟨h1, h2⟩ | h1
  · have hp : peer h i = i + h := if_pos h1
    have hsend := follows_sends failed h i r 0 (msg i)
    simp only [if_pos h1, if_neg h1.ne, Bool.false_eq_true, if_false]
    unfold repScript
    rw [if_pos h1, events_append, events_append, ← hp]
    have hpair := (hsend.bind (f := fun est => pure (est, r)) (.nil _)).congr (List.append_nil _)
    exact .note (hpair.bind (.recv rfl (.note (.nil _))))
  · have hp : peer h i = i - h := if_neg h1.not_gt
    have hsend := follows_sends failed h i r 2 (msg i)
    simp only [if_neg h1.not_gt, Bool.false_eq_true, if_false]
    unfold repScript
    rw [if_neg h1.not_gt, if_pos h2, events_append, ← hp]
    exact .recv rfl (.note (.note ((hsend.bind (.nil _)).congr (List.append_nil _))))
  · exact absurd hi h1.not_gt

theorem script_outside (hi : 2 * h ≤ i) : script h lag i = [] := by
  have hturn : ∀ r ∈ List.range NUM_REPS, repScript h (lag.failed i (peer h i)) r i = [] :=
    fun _ _ => repScript_outside hi
  exact loop_eq_nil (σ := fun r i => repScript h (lag.failed i (peer h i)) r i) hturn 4

theorem follows_network (h : ℕ) (lag : Lag) (i : ℕ) : Follows (network (2 * h) lag i)
    (framed (before (2 * h)) (after (2 * h)) (NUM_REPS * 4) (script h lag) i).events (.ret ()) := by
  unfold network
  split
  · next hi =>
    have hloop : Follows (reps (lag.failed i) (2 * h) (nodeName i))
        ((List.range NUM_REPS).flatMap fun r => (repScript h (lag.failed i (peer h i)) r i).events)
        (.ret (connected h i NUM_REPS, NUM_REPS)) :=
      Follows.range (g := fun r => (connected h i r, r)) fun r _ => follows_rep hi (lag.failed i) r
    rw [← events_loop (fun r i => repScript h (lag.failed i (peer h i)) r i) 4] at hloop
    exact follows_framed (σ := script h lag) hi hloop (NUM_REPS * 4)
  · next hi =>
    rw [framed, script_outside (not_lt.mp hi), before, if_neg hi, after, if_neg hi]
    exact .nil _

/-! ## What the parties print -/

theorem sending_msg (me you : String) :
    me ++ " sending msg:" ++ "\"" ++ ("Ping from " ++ me) ++ "\"" ++ " and sending to " ++ you =
      me ++ " sending msg:\"Ping from " ++ me ++ "\" and sending to " ++ you := by
  have hmsg : " sending msg:\"Ping from " = " sending msg:" ++ "\"" ++ "Ping from " := by simp
  have hto : "\" and sending to " = "\"" ++ " and sending to " := by simp
  rw [hmsg, hto]
  simp only [String.append_assoc, -String.reduceAppend]

theorem got_message (count you : String) :
    "Got message: #" ++ count ++ " where contents were " ++ "\"" ++ ("Ping from " ++ you) ++ "\"" ++
        " from " ++ you =
      "Got message: #" ++ count ++ " where contents were \"Ping from " ++ you ++ "\" from " ++ you := by
  have hmsg : " where contents were \"Ping from " =
      " where contents were " ++ "\"" ++ "Ping from " := by simp
  have hfrom : "\" from " = "\"" ++ " from " := by simp
  rw [hmsg, hfrom]
  simp only [String.append_assoc, -String.reduceAppend]

/-- The lines of the generator. -/
theorem test_res_generator_eq (h i : ℕ) : test_res_generator i (2 * h) =
    (List.range NUM_REPS).flatMap fun r =>
      if i < h then [sendLine h i, recvLine h r i] else [recvLine h r i, sendLine h i] := by
  unfold test_res_generator
  apply List.flatMap_congr
  intro r _
  have hsend : sendLine h i = _ := sending_msg (nodeName i) (nodeName (peer h i))
  have hrecv : recvLine h r i = _ := got_message (toString r) (nodeName (peer h i))
  rw [hsend, hrecv, half_eq, peer]
  split
  · rfl
  · rfl

theorem isPart_msg (i : ℕ) : IsPart (msg i).Data :=
  (show IsPart "Ping from " by decide).append (isPart_nodeName i)

theorem plain_sendLine (h i : ℕ) : Plain (sendLine h i) :=
  (((((plain_nodeName i).append (by decide)).append (by decide)).append (isPart_msg i)).append
    (by decide)).append (by decide) |>.append (isPart_nodeName _)

theorem plain_recvLine (h r i : ℕ) : Plain (recvLine h r i) := by
  have hgot : Plain "Got message: #" := by decide
  have hcount := (hgot.append (isPart_toString r)).append (b := " where contents were ") (by decide)
  have hdata := (hcount.append (b := "\"") (by decide)).append (isPart_msg (peer h i))
  exact ((hdata.append (by decide)).append (by decide)).append (isPart_nodeName _)

theorem plain_generator (h i : ℕ) : ∀ a ∈ test_res_generator i (2 * h), Plain a := by
  intro a ha
  rw [test_res_generator_eq] at ha
  obtain ⟨r, -, ha⟩ := List.mem_flatMap.mp ha
  split at ha
  all_goals
    simp only [List.mem_cons, List.not_mem_nil, or_false] at ha
    rcases ha with rfl | rfl
  · exact plain_sendLine h i
  · exact plain_recvLine h r i
  · exact plain_recvLine h r i
  · exact plain_sendLine h i

theorem stdout_sends (r n t d : ℕ) (m : MessageFormat) :
    stdout (sends r n t d m).events = if r = 0 then spinner n else [] := by
  unfold sends
  split
  · exact stdout_connects t d m n
  · rfl

/-- What is written in a turn. -/
theorem stdout_repScript (hi : i < 2 * h) (n r : ℕ) : stdout (repScript h n r i).events =
    if i < h then
      (sendLine h i).toList ++ '\n' :: ((if r = 0 then spinner n else []) ++
        (recvLine h r i).toList ++ ['\n'])
    else (recvLine h r i).toList ++ '\n' :: ((sendLine h i).toList ++ '\n' ::
      if r = 0 then spinner n else []) := by
  unfold repScript
  split
  · rw [events_append, stdout_append, events_append, stdout_append, stdout_sends]
    simp
  · rw [events_append, stdout_append, stdout_sends]
    simp

theorem stdout_script (hi : i < 2 * h) (lag : Lag) :
    stdout (script h lag i).events ++ stop ++ ['\n'] =
      text (spun (if i < h then 1 else 2) (lag.failed i (peer h i))
        ((test_res_generator i (2 * h)).map String.toList ++ [stop])) := by
  rw [script, events_loop, stdout_flatMap, test_res_generator_eq]
  simp only [stdout_repScript hi]
  unfold NUM_REPS
  split
  · simp [List.range_succ, text, spun]
  · simp [List.range_succ, text, spun]

/-- What the verifier says of a party. -/
theorem agrees_iff (h : ℕ) (lag : Lag) (i : ℕ) :
    agrees same (stdout_list (output (2 * h) lag i)) (test_res_generator i (2 * h)) = true ↔
      lag.failed i (peer h i) ≤ 1 := by
  have hlength : (test_res_generator i (2 * h)).length = 10 := by
    rw [test_res_generator_eq]
    split
    · rfl
    · rfl
  unfold output
  rw [half_eq]
  refine agrees_spun_iff (isLine_opening i) (plain_generator h i) (isLine_closing i) ?_
  rw [hlength]
  split
  · decide
  · decide

/-- **The network of the pairs**, in every interleaving, for every even number of parties and however
late they start: what it prints, and when the verifier accepts it. -/
theorem two_way_passes {N : ℕ} (h2 : 2 ∣ N) (lag : Lag) : Prints N (network N lag) (output N lag) ∧
    (run_test N (fun i => stdout_list (output N lag i)) = true ↔
      ∀ i < N, lag.failed i (peer (N / 2) i) ≤ 1) := by
  obtain ⟨h, rfl⟩ := h2
  constructor
  · have hphase : Phase (script h lag) ((List.range NUM_REPS).length * 4) :=
      Phase.loop fun r _ => repScript_phase h lag r
    have hruns := hphase.frame (r := fun _ => .ret ()) (fun _ => rfl)
      (fun i hi => script_outside (not_lt.mp fun h => hi (Finset.mem_range.mpr h)))
      (fun i hi => frame_outside hi) (follows_network h lag)
    refine prints_of_runs hruns (fun _ _ => rfl) fun i hi => ?_
    have hstdout := stdout_script hi lag
    unfold output
    rw [half_eq]
    exact stdout_framed hi hstdout _
  · unfold run_test
    simp only [List.all_eq_true, List.mem_range, agrees_iff, half_eq]

/-- The network of the test has 50 parties. If they are all up, the verifier accepts it; a second attempt
that fails is one too many. -/
theorem two_way_passes_fifty :
    let lag (n : ℕ) (hn : n ≤ 1000) : Lag := ⟨fun _ _ => n, fun _ _ => hn⟩
    Prints 50 (network 50 (lag 0 (by decide))) (output 50 (lag 0 (by decide))) ∧
      run_test 50 (fun i => stdout_list (output 50 (lag 0 (by decide)) i)) = true ∧
      run_test 50 (fun i => stdout_list (output 50 (lag 2 (by decide)) i)) = false := by
  intro lag
  obtain ⟨hprints, hup⟩ := two_way_passes (N := 50) ⟨25, rfl⟩ (lag 0 (by decide))
  obtain ⟨-, hlate⟩ := two_way_passes (N := 50) ⟨25, rfl⟩ (lag 2 (by decide))
  refine ⟨hprints, hup.mpr fun _ _ => Nat.zero_le 1, ?_⟩
  rw [← Bool.not_eq_true, hlate]
  intro h
  exact absurd (h 0 (by decide)) (by decide)

end TestNets.TwoWay

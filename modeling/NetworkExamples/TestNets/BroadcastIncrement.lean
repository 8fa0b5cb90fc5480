import NetworkExamples.TestNets.NmapGenerator
import NetworkExamples.TestNets.Scripts

/-!
# The test network of broadcasts

In `large_broadcast_increment.cpp` every party first sends a message to all, which waits until it is
received; then the parties take turns, twice around: in its turn a party broadcasts without waiting, and
the others get a message of it. They get the messages one broadcast late, and the last stays unread.
The verifier of the same name generates what each party is to print. The spinners of the first broadcast
come before the mark, and the verifier does not see them.

* `broadcast_passes`: what the parties print, which the verifier accepts, for every number of them, every
  order of the peers, and however late they start.
-/

namespace TestNets.Broadcast

open Fifo PeerToPeer

/-! ## The target -/

/-- The body of the loop. -/
def turn (numParties : ℕ) (NodeName : String) (connectedAddresses : List ℕ) (recvCount i : ℕ) :
    Node ℕ :=
  let wrapAround := i % numParties
  let formattedName := nodeName wrapAround
  if NodeName = formattedName then do
    let newMsg : MessageFormat :=
      ⟨false, NodeName, "HelloMsg", "Async broadcast from: " ++ toString wrapAround⟩
    cout (endl (formattedName ++ " sending data" ++ newMsg.Data))
    broadcastMsgNoWait connectedAddresses newMsg
    pure recvCount
  else do
    let reply1 ← getMsgLoop wrapAround
    cout (endl ("Got message: #" ++ toString recvCount ++ " where contents were " ++ reply1.Data))
    pure (recvCount + 1)

/-- The line before the mark. -/
def asterisks : String := "**********************************************************"

def main (failed : ℕ → ℕ) (numParties i : ℕ) (connectedAddresses : List ℕ) : Node Unit := do
  Register i
  Start i
  let _ ← broadcastMsg failed (fun _ => false) connectedAddresses
    ⟨false, nodeName i, "HelloMsg", "Inital blocking setup connection from: " ++ nodeName i⟩
  cout (endl asterisks)
  cout (endl "DEMARCATE START")
  let _ ← (List.range (numParties * 2)).foldlM (turn numParties (nodeName i) connectedAddresses) 0
  cout (endl "DEMARCATE END")
  Stop i

/-- The parties `0, …, N - 1`, with the parties that each broadcasts to. -/
def network (N : ℕ) (connectedAddresses : ℕ → List ℕ) (lag : Lag) (i : ℕ) : Node Unit :=
  if i < N then main (lag.failed i) N i (connectedAddresses i) else pure ()

/-- The generator of the verifier. -/
def test_res_generator (node_idx total_nodes : ℕ) : List String :=
  let party (i : ℕ) : String := if i = 0 then "Server" else "Client" ++ toString i
  let offset_idx (i : ℕ) : ℕ := if i < node_idx then i else i - 1
  let msg (i : ℕ) : String := party i ++ " sending dataAsync broadcast from: " ++ toString i
  let sync_container := (List.range total_nodes).map fun i =>
    if i = node_idx then msg i
    else "Got message: #" ++ toString (offset_idx i) ++
      " where contents were Inital blocking setup connection from: " ++ party i
  let async_container := (List.range total_nodes).map fun i =>
    if i = node_idx then msg i
    else "Got message: #" ++ toString (total_nodes - 1 + offset_idx i) ++
      " where contents were Async broadcast from: " ++ toString i
  sync_container ++ async_container

/-- The verifier. -/
def run_test (total_nodes : ℕ) (cout : ℕ → List (List Char)) : Bool :=
  (List.range total_nodes).all fun party_idx =>
    agrees (fun actual expected => actual = expected.toList) (cout party_idx)
      (test_res_generator party_idx total_nodes)

/-- **What a party prints**: the spinners before the mark, and the lines of the generator after it. -/
def output (N : ℕ) (connectedAddresses : ℕ → List ℕ) (lag : Lag) (i : ℕ) : List Char :=
  printed ((opening i).map String.toList ++
      [spinners (connectedAddresses i) (lag.failed i) ++ asterisks.toList])
    ((test_res_generator i N).map String.toList ++ stop :: (closing i).map String.toList)

/-! ## The scripts -/

/-- The first message of a party. -/
def hello (i : ℕ) : MessageFormat :=
  ⟨false, nodeName i, "HelloMsg", "Inital blocking setup connection from: " ++ nodeName i⟩

/-- The message of its turns. -/
def async (i : ℕ) : MessageFormat :=
  ⟨false, nodeName i, "HelloMsg", "Async broadcast from: " ++ toString i⟩

/-- What the others get in the turn `k`: the message that was broadcast before. -/
def reply (N k : ℕ) : MessageFormat := if k < N then hello (k % N) else async (k % N)

/-- How many messages the party `i` has got before the turn `k`. -/
def recvCount (N i k : ℕ) : ℕ := if k ≤ i then k else if k ≤ N + i then k - 1 else k - 2

/-- The line of a party that broadcasts. -/
def sendLine (i : ℕ) : String := nodeName i ++ " sending data" ++ (async i).Data

/-- The line of a party that receives in the turn `k`. -/
def recvLine (N i k : ℕ) : String :=
  "Got message: #" ++ toString (recvCount N i k) ++ " where contents were " ++ (reply N k).Data

/-- The turn `k` of the party `i`. -/
def turnScript (N : ℕ) (L : List ℕ) (i k : ℕ) : Script ℕ MessageFormat String :=
  if k % N = i then (2 * k + 1, .noted (endl (sendLine i))) :: broadcasts (2 * k + 1) L (async i) true
  else [(2 * k + 2, .got (k % N) (.got (reply N k))), (2 * k + 2, .noted (endl (recvLine N i k)))]

/-- The two lines between the first broadcast and the turns. -/
def marks : Script ℕ MessageFormat String :=
  [(0, .noted (endl asterisks)), (0, .noted (endl "DEMARCATE START"))]

def script (N : ℕ) (L : ℕ → List ℕ) (lag : Lag) (i : ℕ) : Script ℕ MessageFormat String :=
  if i < N then
    greets 0 (L i) (hello i) (lag.failed i) ++
      (marks ++ (List.range (N * 2)).flatMap (turnScript N (L i) i))
  else []

variable {N i k : ℕ} {L : List ℕ} {lag : Lag}

/-! ### The queues -/

/-- The turns of the party `p`: the two in which it broadcasts. -/
theorem flatMap_turns {γ : Type} {f : ℕ → List γ} {p : ℕ} (hp : p < N)
    (hf : ∀ k, k % N ≠ p → f k = []) : (List.range (N * 2)).flatMap f = f p ++ f (N + p) := by
  have hmem : p ∈ List.range N := List.mem_range.mpr hp
  rw [Nat.mul_two, List.range_add, List.flatMap_append, List.flatMap_map]
  have hfst : (List.range N).flatMap f = f p := by
    apply flatMap_only List.nodup_range hmem
    intro k hk hne
    apply hf
    rwa [Nat.mod_eq_of_lt (List.mem_range.mp hk)]
  have hsnd : (List.range N).flatMap (fun k => f (N + k)) = f (N + p) := by
    apply flatMap_only (f := fun k => f (N + k)) List.nodup_range hmem
    intro k hk hne
    apply hf
    rwa [Nat.add_mod_left, Nat.mod_eq_of_lt (List.mem_range.mp hk)]
  rw [hfst, hsnd]

theorem sents_turn (hL : L.Nodup) (d : ℕ) : sents (turnScript N L i k) d =
    if k % N = i ∧ d ∈ L then [(2 * k + 1, async i, true)] else [] := by
  unfold turnScript broadcasts
  by_cases hk : k % N = i
  · rw [if_pos hk, sents_cons_noted, sents_map hL]
    simp [hk]
  · simp [hk]

theorem takes_turn (a : ℕ) : takes (turnScript N L i k) a =
    if k % N ≠ i ∧ k % N = a then [(2 * k + 2, .got (reply N k))] else [] := by
  unfold turnScript broadcasts
  by_cases hk : k % N = i
  · rw [if_pos hk, takes_cons_noted, takes_map_sent]
    simp [hk]
  · rw [if_neg hk]
    by_cases ha : k % N = a
    · simp [← ha, hk]
    · simp [ha]

/-- Every party broadcasts to all others, once. -/
structure Mesh (N : ℕ) (L : ℕ → List ℕ) : Prop where
  nodup : ∀ i < N, (L i).Nodup
  mem : ∀ i < N, ∀ v, v ∈ L i ↔ v < N ∧ v ≠ i

variable {P : ℕ → List ℕ}

theorem script_outside (h : ¬ i < N) : script N P lag i = [] := if_neg h

theorem mod_fst {a : ℕ} (ha : a < N) : a % N = a := Nat.mod_eq_of_lt ha

theorem mod_snd {a : ℕ} (ha : a < N) : (N + a) % N = a := by rw [Nat.add_mod_left, mod_fst ha]

theorem sents_script (h : Mesh N P) {a : ℕ} (ha : a < N) (b : ℕ) : sents (script N P lag a) b =
    if b < N ∧ b ≠ a then
      [(0, hello a, false), (2 * a + 1, async a, true), (2 * (N + a) + 1, async a, true)]
    else [] := by
  have hnil : ∀ k, k % N ≠ a → sents (turnScript N (P a) a k) b = [] := by
    intro k hk
    rw [sents_turn (h.nodup a ha), if_neg fun h => hk h.1]
  have hmarks : sents marks b = [] := rfl
  unfold script
  rw [if_pos ha, sents_append, sents_append, sents_greets (h.nodup a ha), hmarks, sents_turns,
    flatMap_turns ha hnil, sents_turn (h.nodup a ha), sents_turn (h.nodup a ha), mod_fst ha, mod_snd ha]
  simp only [true_and, h.mem a ha b]
  split
  · rfl
  · rfl

theorem takes_script {b : ℕ} (hb : b < N) (a : ℕ) : takes (script N P lag b) a =
    if a < N ∧ b ≠ a then
      [(2 * a + 2, .got (hello a)), (2 * (N + a) + 2, .got (async a))]
    else [] := by
  have hmarks : takes marks a = [] := rfl
  unfold script
  rw [if_pos hb, takes_append, takes_append, takes_greets, hmarks, List.nil_append, List.nil_append,
    takes_turns]
  by_cases ha : a < N
  · have hnil : ∀ k, k % N ≠ a → takes (turnScript N (P b) b k) a = [] := by
      intro k hk
      rw [takes_turn, if_neg fun h => hk h.2]
    rw [flatMap_turns ha hnil, takes_turn, takes_turn, mod_fst ha, mod_snd ha]
    by_cases hab : b = a
    · simp [hab]
    · simp [ha, hab, Ne.symm hab, reply, mod_fst ha, mod_snd ha]
  · rw [if_neg fun h => ha h.1]
    apply List.flatMap_eq_nil_iff.mpr
    intro k _
    rw [takes_turn, if_neg]
    rintro ⟨-, rfl⟩
    exact ha (Nat.mod_lt k (Nat.zero_lt_of_lt hb))

/-- A queue is read up to its last message, whose send gives up if its receiver has ended. -/
theorem chan_script (h : Mesh N P) (lag : Lag) (a b : ℕ) :
    Chan none (sents (script N P lag a) b) (takes (script N P lag b) a) := by
  by_cases ha : a < N
  · by_cases hb : b < N
    · rw [sents_script h ha, takes_script hb]
      by_cases hab : b = a
      · simp only [hab, ne_eq, not_true_eq_false, and_false, if_false]
        exact .nil fun x hx => absurd hx List.not_mem_nil
      · rw [if_pos ⟨hb, hab⟩, if_pos ⟨ha, hab⟩]
        refine .got (by omega) (.got (by omega) (.nil ?_))
        intro x hx
        rw [List.mem_singleton.mp hx]
    · rw [sents_script h ha, if_neg fun h => hb h.1, script_outside hb]
      exact .nil fun x hx => absurd hx List.not_mem_nil
  · rw [script_outside ha]
    by_cases hb : b < N
    · rw [takes_script hb, if_neg fun h => ha h.1]
      exact .nil fun x hx => absurd hx List.not_mem_nil
    · rw [script_outside hb]
      exact .nil fun x hx => absurd hx List.not_mem_nil

/-! ### The times -/

theorem mem_turn {e : ℕ × Event ℕ MessageFormat String} (he : e ∈ turnScript N L i k) :
    (e.1 = 2 * k + 1 ∨ e.1 = 2 * k + 2) ∧ ∀ a, e.2 ≠ .got a .timedOut := by
  unfold turnScript at he
  split at he
  · rcases List.mem_cons.mp he with rfl | he
    · exact ⟨.inl rfl, fun _ => nofun⟩
    · obtain ⟨ht, d, hd⟩ := mem_broadcasts he
      rw [hd]
      exact ⟨.inl ht, fun _ => nofun⟩
  · rcases List.mem_cons.mp he with rfl | he
    · exact ⟨.inr rfl, fun _ => nofun⟩
    · rw [List.mem_singleton.mp he]
      exact ⟨.inr rfl, fun _ => nofun⟩

theorem sorted_turn (N : ℕ) (L : List ℕ) (i k : ℕ) :
    (turnScript N L i k).Pairwise (·.1 ≤ ·.1) := by
  unfold turnScript
  split
  · refine List.pairwise_cons.mpr ⟨fun e he => ?_, sorted_broadcasts _ L _ true⟩
    rw [(mem_broadcasts he).1]
  · simp

/-- All before the turns is at the time 0. -/
theorem mem_script {e : ℕ × Event ℕ MessageFormat String} (he : e ∈ script N P lag i) :
    (e.1 = 0 ∧ ∀ a, e.2 ≠ .got a .timedOut) ∨ ∃ k < N * 2, e ∈ turnScript N (P i) i k := by
  unfold script at he
  split at he
  · rcases List.mem_append.mp he with he | he
    · obtain ⟨ht, ⟨d, hd⟩ | ⟨k, hk⟩⟩ := mem_greets he
      · rw [hd]
        exact .inl ⟨ht, fun _ => nofun⟩
      · rw [hk]
        exact .inl ⟨ht, fun _ => nofun⟩
    · rcases List.mem_append.mp he with he | he
      · simp only [marks, List.mem_cons, List.not_mem_nil, or_false] at he
        rcases he with rfl | rfl
        · exact .inl ⟨rfl, fun _ => nofun⟩
        · exact .inl ⟨rfl, fun _ => nofun⟩
      · obtain ⟨k, hk, he⟩ := List.mem_flatMap.mp he
        exact .inr ⟨k, List.mem_range.mp hk, he⟩
  · cases he

theorem sorted_script (N : ℕ) (P : ℕ → List ℕ) (lag : Lag) (i : ℕ) :
    (script N P lag i).Pairwise (·.1 ≤ ·.1) := by
  unfold script
  split
  · refine List.pairwise_append.mpr ⟨sorted_greets 0 (P i) (hello i) _, ?_, fun e he e' _ => ?_⟩
    · refine List.pairwise_append.mpr ⟨by simp [marks], ?_, fun e he e' _ => ?_⟩
      · apply sorted_turns List.pairwise_lt_range (sorted_turn N (P i) i)
        intro k k' hk e he e' he'
        have h1 := (mem_turn he).1
        have h2 := (mem_turn he').1
        omega
      · simp only [marks, List.mem_cons, List.not_mem_nil, or_false] at he
        rcases he with rfl | rfl <;> simp
    · rw [(mem_greets he).1]
      exact Nat.zero_le _
  · exact .nil

theorem script_bound (e : ℕ × Event ℕ MessageFormat String) (he : e ∈ script N P lag i) :
    e.1 < 4 * N + 1 := by
  rcases mem_script he with ⟨ht, -⟩ | ⟨k, hk, he⟩
  · omega
  · have ht := (mem_turn he).1
    omega

theorem late_notMem (i u a : ℕ) : (u, .got a .timedOut) ∉ script N P lag i := by
  intro hmem
  rcases mem_script hmem with ⟨-, hne⟩ | ⟨k, -, he⟩
  · exact hne a rfl
  · exact (mem_turn he).2 a rfl

/-! ## The programs -/

/-- The two turns of a party. -/
theorem mod_eq_iff (h : i < N) (hk : k < N * 2) : k % N = i ↔ k = i ∨ k = N + i := by
  rcases Nat.lt_or_ge k N with hlt | hge
  · rw [Nat.mod_eq_of_lt hlt]
    omega
  · rw [Nat.mod_eq_sub_mod hge, Nat.mod_eq_of_lt (by omega)]
    omega

theorem recvCount_self (h : i < N) (hk : k < N * 2) (hi : k % N = i) :
    recvCount N i (k + 1) = recvCount N i k := by
  unfold recvCount
  rcases (mod_eq_iff h hk).mp hi with rfl | rfl
  · rw [if_neg (by omega), if_pos (by omega), if_pos le_rfl]
    rfl
  · rw [if_neg (by omega), if_neg (by omega), if_neg (by omega), if_pos le_rfl]
    rfl

theorem recvCount_ne (h : i < N) (hk : k < N * 2) (hi : k % N ≠ i) :
    recvCount N i (k + 1) = recvCount N i k + 1 := by
  have hne := (not_congr (mod_eq_iff h hk)).mp hi
  unfold recvCount
  split_ifs <;> omega

theorem follows_turn (h : i < N) (hk : k < N * 2) (L : List ℕ) :
    Follows (turn N (nodeName i) L (recvCount N i k) k) (turnScript N L i k).events
      (.ret (recvCount N i (k + 1))) := by
  unfold turn turnScript
  by_cases hi : k % N = i
  · have hsend : Follows (broadcastMsgNoWait L (async i))
        (broadcasts (2 * k + 1) L (async i) true).events (.ret ()) := follows_broadcastMsgNoWait _ L _
    rw [recvCount_self h hk hi]
    simp only [hi, if_true]
    exact .note ((hsend.bind (.nil (.ret (recvCount N i k)))).congr (List.append_nil _))
  · have hname : nodeName i ≠ nodeName (k % N) := fun h => hi (nodeName_inj h).symm
    rw [recvCount_ne h hk hi]
    simp only [if_neg hname, if_neg hi]
    exact .recv rfl (.note (.nil _))

/-- The lines before the first broadcast. -/
def heading (N i : ℕ) : List String := if i < N then (opening i).map endl else []

theorem follows_network {P : ℕ → List ℕ} (h : Mesh N P) (lag : Lag) (i : ℕ) :
    Follows (network N P lag i)
      (framed (heading N) (after N) (4 * N + 1) (script N P lag) i).events (.ret ()) := by
  unfold network
  split
  · next hi =>
    have hhello : Follows (broadcastMsg (lag.failed i) (fun _ => false) (P i) (hello i))
        (greets 0 (P i) (hello i) (lag.failed i)).events (.ret (greeted (fun _ => false) (P i))) :=
      follows_greets (h.nodup i hi) (fun _ _ => rfl) 0 0
    have hstart : recvCount N i 0 = 0 := if_pos (Nat.zero_le i)
    have hloop := Follows.range (g := recvCount N i) fun k hk => follows_turn hi hk (P i)
    rw [hstart, ← events_flatMap] at hloop
    have hturns := hloop.bind (f := fun _ => do cout (endl "DEMARCATE END"); Stop i) (follows_after hi)
    have hscript : (script N P lag i).events = (greets 0 (P i) (hello i) (lag.failed i)).events ++
        ([.noted (endl asterisks), .noted (endl "DEMARCATE START")] ++
          Script.events ((List.range (N * 2)).flatMap (turnScript N (P i) i))) := by
      rw [script, if_pos hi, events_append, events_append]
      rfl
    rw [events_framed, heading, if_pos hi, hscript, List.append_assoc, List.append_assoc]
    exact follows_opening i (hhello.bind (.note (.note hturns)))
  · next hi =>
    rw [framed, script_outside hi, heading, if_neg hi, after, if_neg hi]
    exact .nil _

theorem runs {P : ℕ → List ℕ} (h : Mesh N P) (lag : Lag) : Plan.Runs
    ⟨framed (heading N) (after N) (4 * N + 1) (script N P lag), fun _ => .ret (), fun _ _ => none⟩
    (Finset.range N) (network N P lag) := by
  have hfits : Plan.Fits ⟨script N P lag, fun _ => (.ret () : Node Unit), fun _ _ => none⟩
      (fun _ _ => []) (script N P lag) :=
    ⟨sorted_script N P lag, fun a b => chan_script h lag a b,
      fun i u a hu => absurd hu (late_notMem i u a)⟩
  have hout : ∀ i, i ∉ Finset.range N → ¬ i < N := fun i hi h => hi (Finset.mem_range.mpr h)
  exact hfits.frame (fun _ _ => rfl) (fun i => script_bound) (fun i u a hu => absurd hu (late_notMem i u a))
    (fun _ => rfl) (fun i hi => script_outside (hout i hi))
    (fun i hi => ⟨if_neg (hout i hi), if_neg (hout i hi)⟩) (follows_network h lag)

/-! ## What the parties print -/

theorem stdout_turn (N : ℕ) (L : List ℕ) (i k : ℕ) : stdout (turnScript N L i k).events =
    (if k % N = i then sendLine i else recvLine N i k).toList ++ ['\n'] := by
  unfold turnScript
  split
  · have hevents : Script.events ((2 * k + 1, .noted (endl (sendLine i))) ::
        broadcasts (2 * k + 1) L (async i) true) =
        .noted (endl (sendLine i)) :: (broadcasts (2 * k + 1) L (async i) true).events := rfl
    rw [hevents, stdout_noted, stdout_broadcasts, List.append_nil, toList_endl]
  · have hevents : Script.events [(2 * k + 2, .got (k % N) (.got (reply N k))),
        (2 * k + 2, .noted (endl (recvLine N i k)))] =
        [.got (k % N) (.got (reply N k)), .noted (endl (recvLine N i k))] := rfl
    rw [hevents, stdout_got, stdout_noted, stdout_nil, List.append_nil, toList_endl]

theorem sending_data (party count : String) :
    party ++ " sending data" ++ ("Async broadcast from: " ++ count) =
      party ++ " sending dataAsync broadcast from: " ++ count := by
  have hdata : " sending dataAsync broadcast from: " = " sending data" ++ "Async broadcast from: " := by
    simp
  rw [hdata]
  simp only [String.append_assoc, -String.reduceAppend]

theorem got_hello (count party : String) :
    "Got message: #" ++ count ++ " where contents were " ++
        ("Inital blocking setup connection from: " ++ party) =
      "Got message: #" ++ count ++ " where contents were Inital blocking setup connection from: " ++
        party := by
  have hdata : " where contents were Inital blocking setup connection from: " =
      " where contents were " ++ "Inital blocking setup connection from: " := by simp
  rw [hdata]
  simp only [String.append_assoc, -String.reduceAppend]

theorem got_async (count party : String) :
    "Got message: #" ++ count ++ " where contents were " ++ ("Async broadcast from: " ++ party) =
      "Got message: #" ++ count ++ " where contents were Async broadcast from: " ++ party := by
  have hdata : " where contents were Async broadcast from: " =
      " where contents were " ++ "Async broadcast from: " := by simp
  rw [hdata]
  simp only [String.append_assoc, -String.reduceAppend]

theorem recvLine_fst (hk : k < N) : recvLine N i k =
    "Got message: #" ++ toString (if k ≤ i then k else k - 1) ++
      " where contents were Inital blocking setup connection from: " ++ nodeName k := by
  have hcount : recvCount N i k = if k ≤ i then k else k - 1 := by
    unfold recvCount
    rw [if_pos (show k ≤ N + i by omega)]
  rw [recvLine, hcount, reply, if_pos hk, Nat.mod_eq_of_lt hk]
  exact got_hello _ _

theorem recvLine_snd (hk : k < N) (hi : i < N) (hne : k ≠ i) : recvLine N i (N + k) =
    "Got message: #" ++ toString (N - 1 + if k < i then k else k - 1) ++
      " where contents were Async broadcast from: " ++ toString k := by
  have hcount : recvCount N i (N + k) = N - 1 + if k < i then k else k - 1 := by
    unfold recvCount
    split_ifs <;> omega
  have hN : ¬ N + k < N := Nat.not_lt.mpr (Nat.le_add_right N k)
  rw [recvLine, hcount, reply, if_neg hN, mod_snd hk]
  exact got_async _ _

/-- The lines of the generator. -/
theorem test_res_generator_eq (h : i < N) : test_res_generator i N =
    (List.range (N * 2)).map fun k => if k % N = i then sendLine i else recvLine N i k := by
  have hsend : sendLine i = _ := sending_data (nodeName i) (toString i)
  symm
  rw [Nat.mul_two, List.range_add, List.map_append, List.map_map]
  unfold test_res_generator
  congr 1
  · apply List.map_congr_left
    intro k hk
    have hkN := List.mem_range.mp hk
    rw [Nat.mod_eq_of_lt hkN, hsend]
    split
    · next hki => rw [hki]; rfl
    · next hki =>
      have hlt : (if k ≤ i then k else k - 1) = if k < i then k else k - 1 :=
        if_congr ⟨fun h => Nat.lt_of_le_of_ne h hki, Nat.le_of_lt⟩ rfl rfl
      rw [recvLine_fst hkN, hlt]
      rfl
  · apply List.map_congr_left
    intro k hk
    have hkN := List.mem_range.mp hk
    rw [Function.comp_apply, mod_snd hkN, hsend]
    split
    · next hki => rw [hki]; rfl
    · next hki =>
      rw [recvLine_snd hkN h hki]

theorem stdout_script (h : i < N) (P : ℕ → List ℕ) (lag : Lag) : stdout (script N P lag i).events =
    spinners (P i) (lag.failed i) ++ asterisks.toList ++ ['\n'] ++ (start ++ ['\n']) ++
      text ((test_res_generator i N).map String.toList) := by
  have hmarks : stdout marks.events = asterisks.toList ++ ['\n'] ++ (start ++ ['\n']) := by
    have hevents : marks.events = [.noted (endl asterisks), .noted (endl "DEMARCATE START")] := rfl
    rw [hevents, stdout_noted, stdout_noted, stdout_nil, List.append_nil, toList_endl, toList_endl]
    rfl
  have hturns : stdout (Script.events ((List.range (N * 2)).flatMap (turnScript N (P i) i))) =
      text ((test_res_generator i N).map String.toList) := by
    rw [stdout_turns, test_res_generator_eq h, List.map_map, text, List.flatMap_map]
    apply List.flatMap_congr
    intro k _
    exact stdout_turn N (P i) i k
  rw [script, if_pos h, events_append, stdout_append, events_append, stdout_append, stdout_greets, hmarks,
    hturns]
  simp only [List.append_assoc]

theorem stdout_party (h : i < N) (P : ℕ → List ℕ) (lag : Lag) :
    stdout (framed (heading N) (after N) (4 * N + 1) (script N P lag) i).events = output N P lag i := by
  have hclosing : text (stop :: (closing i).map String.toList) =
      stop ++ ['\n'] ++ text ((closing i).map String.toList) := rfl
  have hline : text [spinners (P i) (lag.failed i) ++ asterisks.toList] =
      spinners (P i) (lag.failed i) ++ asterisks.toList ++ ['\n'] := List.append_nil _
  rw [events_framed, stdout_append, stdout_append, heading, if_pos h, stdout_endl, stdout_script h,
    stdout_after h, output, printed_eq, text_append, text_append, hclosing, hline]
  simp only [List.append_assoc]

theorem isPart_reply (N k : ℕ) : IsPart (reply N k).Data := by
  unfold reply
  split
  · exact (show IsPart "Inital blocking setup connection from: " by decide).append (isPart_nodeName _)
  · exact (show IsPart "Async broadcast from: " by decide).append (isPart_toString _)

theorem plain_generator (h : i < N) : ∀ a ∈ test_res_generator i N, Plain a := by
  intro a ha
  rw [test_res_generator_eq h] at ha
  obtain ⟨k, -, rfl⟩ := List.mem_map.mp ha
  split
  · have hdata : IsPart (async i).Data :=
      (show IsPart "Async broadcast from: " by decide).append (isPart_toString i)
    exact ((plain_nodeName i).append (by decide)).append hdata
  · have hgot : Plain "Got message: #" := by decide
    exact ((hgot.append (isPart_toString _)).append (by decide)).append (isPart_reply N k)

/-- What the verifier says of a party. -/
theorem agrees_output (h : i < N) (P : ℕ → List ℕ) (lag : Lag) :
    agrees (fun actual expected => actual = expected.toList) (stdout_list (output N P lag i))
      (test_res_generator i N) = true := by
  have hspinners : IsLine (spinners (P i) (lag.failed i) ++ asterisks.toList) := by
    have hstar : '*' ∈ spinners (P i) (lag.failed i) ++ asterisks.toList :=
      List.mem_append_right _ (by decide)
    refine ⟨fun hmem => ?_, fun heq => ?_, fun heq => ?_⟩
    · exact (List.mem_append.mp hmem).elim (notMem_spinners _ _) (by decide)
    · rw [heq] at hstar
      exact absurd hstar (by decide)
    · rw [heq] at hstar
      exact absurd hstar (by decide)
  have hbefore : ∀ ln ∈ (opening i).map String.toList ++
      [spinners (P i) (lag.failed i) ++ asterisks.toList], IsLine ln := by
    intro ln hln
    rcases List.mem_append.mp hln with hln | hln
    · exact isLine_opening i ln hln
    · rw [List.mem_singleton.mp hln]
      exact hspinners
  unfold output
  rw [stdout_list_eq hbefore (map_isLine (plain_generator h)) (isLine_closing i)]
  exact agrees_self (fun a => decide_eq_true rfl) _

/-- **The network of the broadcasts**, in every interleaving, for every number of parties that load the
generated map, in whatever order it lists them, and however late they start: what it prints, and that
the verifier accepts it. -/
theorem broadcast_passes (h2 : 2 ≤ N) {connectedAddresses : ℕ → List ℕ}
    (hload : ∀ i < N, Loads N i (connectedAddresses i)) (lag : Lag) :
    Prints N (network N connectedAddresses lag) (output N connectedAddresses lag) ∧
      run_test N (fun i => stdout_list (output N connectedAddresses lag i)) = true := by
  have hmesh : Mesh N connectedAddresses :=
    ⟨fun i hi => ((hload i hi).nodup_mem h2 hi).1, fun i hi => ((hload i hi).nodup_mem h2 hi).2⟩
  constructor
  · exact prints_of_runs (runs hmesh lag) (fun _ _ => rfl) fun i hi =>
      stdout_party hi connectedAddresses lag
  · unfold run_test
    rw [List.all_eq_true]
    intro i hi
    exact agrees_output (List.mem_range.mp hi) connectedAddresses lag

/-- The network of the test has 50 parties. They are accepted with two attempts that fail, too. -/
theorem broadcast_passes_fifty : ∃ connectedAddresses : ℕ → List ℕ,
    let lag : Lag := ⟨fun _ _ => 2, fun _ _ => by decide⟩
    Prints 50 (network 50 connectedAddresses lag) (output 50 connectedAddresses lag) ∧
      run_test 50 (fun i => stdout_list (output 50 connectedAddresses lag i)) = true := by
  have hload : ∀ i, ∃ L, i < 50 → Loads 50 i L := by
    intro i
    by_cases hi : i < 50
    · obtain ⟨L, hL⟩ := exists_loads (by decide) hi
      exact ⟨L, fun _ => hL⟩
    · exact ⟨[], fun h => absurd h hi⟩
  choose connectedAddresses hL using hload
  exact ⟨connectedAddresses, broadcast_passes (by decide) hL _⟩

end TestNets.Broadcast

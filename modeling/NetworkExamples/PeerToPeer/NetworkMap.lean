import NetworkExamples.PeerToPeer.Queue
import NetworkExamples.PeerToPeer.SplitString
import NetworkExamples.Rpc.Retry
import Std.Data.ExtTreeMap

/-!
# The network map

A node learns its peers and their addresses from a text with a line `Node-Peer1@addr1,Peer2@addr2`
for each node (`node.h`). `LookUpNetworkMap` reads the words of the text until it ends and the node
is found.

* `LookUp.run`: the loop, turn by turn; it may go on for ever.
* `run_readAll`: it reads all lines of the map, in their order.
* `lookUp_iff`: when the look-up returns and reports.
-/

namespace PeerToPeer

open Pre (Text isspace words)

/-- A `std::map` from names. -/
abbrev Map (α : Type) : Type := Std.ExtTreeMap Text α

theorem Map.getElem?_insert {α : Type} (m : Map α) (name name' : Text) (v : α) :
    (m.insert name v)[name']? = if name = name' then some v else m[name']? := by
  simp only [Std.ExtTreeMap.getElem?_insert, Std.compare_eq_iff_eq]

/-- The message queue of a sender. -/
structure TsQueue where
  NodeName : Text
  NodeAddress : Text
  Queue : List MessageFormat

/-- What the node knows of its peers. -/
structure NodeImpl where
  connectedNodes : List Text
  connectedAddresses : Map Text
  establishedConnections : Map Bool
  msgQueues : Map TsQueue

/-- A default-constructed node. -/
def NodeImpl.default : NodeImpl := ⟨[], ∅, ∅, ∅⟩

/-! ## The look-up -/

/-- `stream >> data`: the next word and the rest of the stream. `none`: there is none, and `data`
stays what it is. -/
def extract (stream : Text) : Option (Text × Text) :=
  match stream.dropWhile isspace with
  | [] => none
  | c :: rest => some ((c :: rest).takeWhile (!isspace ·), (c :: rest).dropWhile (!isspace ·))

/-- The body of the inner loop. `none`: `nodeSplit[1]` is out of range. -/
def addPeer (node : NodeImpl) (peer : Text) : Option NodeImpl := do
  let (nodeSplit, _) ← SplitString peer "@".toList
  let name ← nodeSplit[0]?
  let address ← nodeSplit[1]?
  return { node with
    connectedNodes := node.connectedNodes ++ [name]
    connectedAddresses := node.connectedAddresses.insert name address
    establishedConnections := node.establishedConnections.insert name false }

/-- The body of the loop: `data`, `node_found` and the node. `none`: an index is out of range. -/
def readData (NodeName data : Text) (node_found : Bool) (node : NodeImpl) :
    Option (Text × Bool × NodeImpl) := do
  let (datasplit, data) ← SplitString data "-".toList
  if NodeName = (← datasplit[0]?) then
    let (nodes, _) ← SplitString (← datasplit[1]?) ",".toList
    let node ← nodes.foldlM addPeer node
    return (data, true, node)
  else return (data, node_found, node)

/-- The state of a look-up. -/
inductive LookUp where
  /-- At the head of the loop. -/
  | reading (NetworkMap data : Text) (node_found : Bool) (node : NodeImpl)
  /-- The look-up has returned, and has reported an error or not. -/
  | returned (error : Option Text) (node : NodeImpl)
  | outOfRange

/-- The error for a node without a line. -/
def notInMap (NodeName : Text) : Text :=
  "Node ".toList ++ NodeName ++ "is not in the network map".toList

namespace LookUp

/-- After the body of the loop. -/
def ofData (NetworkMap : Text) : Option (Text × Bool × NodeImpl) → LookUp
  | some (data, node_found, node) => reading NetworkMap data node_found node
  | none => outOfRange

/-- One turn of the loop. -/
def next (NodeName : Text) : LookUp → LookUp
  | reading NetworkMap data node_found node =>
    match extract NetworkMap with
    | some (data, NetworkMap) => ofData NetworkMap (readData NodeName data node_found node)
    | none =>
      if !node_found then ofData NetworkMap (readData NodeName data node_found node)
      else returned (if !node_found then some (notInMap NodeName) else none) node
  | s => s

/-- The state after `k` turns. -/
def run (NodeName NetworkMapfile : Text) (node : NodeImpl) (k : ℕ) : LookUp :=
  (next NodeName)^[k] (reading NetworkMapfile [] false node)

end LookUp

/-- The line is for the node. -/
def IsFor (NodeName line : Text) : Prop := (line.splitOn '-')[0]? = some NodeName

instance (NodeName line : Text) : Decidable (IsFor NodeName line) :=
  inferInstanceAs (Decidable (_ = _))

/-- After its node the line has peers, and each of them has an address. -/
def Complete (line : Text) : Prop :=
  ∃ nodes, (line.splitOn '-')[1]? = some nodes ∧ ∀ peer ∈ nodes.splitOn ',', '@' ∈ peer

/-- What a look-up is expected to do: it returns, and if no line of the map is for the node, then it
reports the error and leaves the node as it is. -/
def Reports (NetworkMapfile NodeName : Text) (node : NodeImpl) : Prop :=
  ∃ k error node', LookUp.run NodeName NetworkMapfile node k = .returned error node' ∧
    ((∀ line ∈ words NetworkMapfile, ¬ IsFor NodeName line) →
      error = some (notInMap NodeName) ∧ node' = node)

variable {NodeName NetworkMap data rest line : Text} {node_found : Bool} {node : NodeImpl}

/-! ## The words of the stream -/

theorem words_dropWhile (stream : Text) : words (stream.dropWhile isspace) = words stream := by
  induction stream with
  | nil => rfl
  | cons c stream ih =>
    cases hc : isspace c with
    | true =>
      rw [List.dropWhile_cons_of_pos hc, ih]
      simp [words, List.splitOnP_cons_eq_if_modifyHead, hc]
    | false => rw [List.dropWhile_cons_of_neg (by simp [hc])]

theorem words_append {token : Text} (htoken : ∀ c ∈ token, isspace c = false) (hne : token ≠ [])
    (hrest : ∀ c ∈ rest.head?, isspace c = true) : words (token ++ rest) = token :: words rest := by
  cases rest with
  | nil => simp [words, List.splitOnP_eq_singleton htoken, hne]
  | cons c rest =>
    have hc : isspace c = true := hrest c rfl
    rw [← words_dropWhile (c :: rest), List.dropWhile_cons_of_pos hc, words_dropWhile]
    simp [words, List.splitOnP_append_cons_of_forall_mem htoken c hc, hne]

theorem words_of_extract (h : extract NetworkMap = some (data, rest)) :
    words NetworkMap = data :: words rest := by
  rw [← words_dropWhile]
  unfold extract at h
  cases hdrop : NetworkMap.dropWhile isspace with
  | nil =>
    rw [hdrop] at h
    cases h
  | cons c l =>
    have hc : isspace c = false := by
      have hhead := List.head?_dropWhile_not isspace NetworkMap
      rw [hdrop] at hhead
      simpa using hhead
    simp only [hdrop, Option.some.injEq, Prod.mk.injEq] at h
    obtain ⟨rfl, rfl⟩ := h
    have htoken : ∀ x ∈ (c :: l).takeWhile (!isspace ·), isspace x = false := by
      intro x hx
      simpa using List.all_eq_true.mp List.all_takeWhile x hx
    rw [← words_append htoken, List.takeWhile_append_dropWhile]
    · simp [hc]
    · intro x hx
      have hhead := List.head?_dropWhile_not (!isspace ·) (c :: l)
      rw [Option.mem_def.mp hx] at hhead
      simpa using hhead

theorem words_eq_nil (h : extract NetworkMap = none) : words NetworkMap = [] := by
  rw [← words_dropWhile]
  unfold extract at h
  cases hdrop : NetworkMap.dropWhile isspace with
  | nil => rfl
  | cons c l =>
    rw [hdrop] at h
    cases h

/-! ## One line -/

theorem exists_peer (node : NodeImpl) {peer : Text} (h : '@' ∈ peer) :
    ∃ node', addPeer node peer = some node' := by
  obtain ⟨name, rest, rfl, hname⟩ := List.eq_append_cons_of_mem h
  obtain ⟨address, l, hl⟩ := List.exists_cons_of_ne_nil (List.splitOn_ne_nil '@' rest)
  unfold addPeer
  rw [show "@".toList = ['@'] from rfl, splitString_char,
    List.splitOn_append_cons_self_of_not_mem hname, hl]
  exact ⟨_, rfl⟩

theorem addPeer_eq_none (node : NodeImpl) {peer : Text} (h : '@' ∉ peer) :
    addPeer node peer = none := by
  unfold addPeer
  rw [show "@".toList = ['@'] from rfl, splitString_char, List.splitOn_eq_singleton h]
  rfl

theorem foldlM_addPeer_eq_none {peers : List Text} (node : NodeImpl)
    (h : ∃ peer ∈ peers, '@' ∉ peer) : peers.foldlM addPeer node = none := by
  induction peers generalizing node with
  | nil => simp at h
  | cons peer peers ih =>
    rw [List.foldlM_cons]
    cases hpeer : addPeer node peer with
    | none => rfl
    | some node' =>
      apply ih
      obtain ⟨p, hp, hat⟩ := h
      rcases List.mem_cons.mp hp with rfl | hp
      · rw [addPeer_eq_none node hat] at hpeer
        cases hpeer
      · exact ⟨p, hp, hat⟩

theorem exists_peers {peers : List Text} (node : NodeImpl) (h : ∀ peer ∈ peers, '@' ∈ peer) :
    ∃ node', peers.foldlM addPeer node = some node' := by
  induction peers generalizing node with
  | nil => exact ⟨node, rfl⟩
  | cons peer peers ih =>
    obtain ⟨node', hnode⟩ := exists_peer node (h peer List.mem_cons_self)
    rw [List.foldlM_cons, hnode]
    exact ih node' fun p hp => h p (List.mem_cons_of_mem peer hp)

theorem readData_of_not_isFor (h : ¬ IsFor NodeName data) :
    readData NodeName data node_found node = some (lastPiece data '-', node_found, node) := by
  obtain ⟨name, l, hl⟩ := List.exists_cons_of_ne_nil (List.splitOn_ne_nil '-' data)
  have hname : NodeName ≠ name := by
    rintro rfl
    exact h (by simp [IsFor, hl])
  unfold readData
  rw [show "-".toList = ['-'] from rfl, splitString_char, hl]
  simp [hname]

/-- A line for the node. -/
theorem readData_of_isFor (h : IsFor NodeName data) :
    readData NodeName data node_found node = ((data.splitOn '-')[1]?).bind fun nodes =>
      ((nodes.splitOn ',').foldlM addPeer node).map fun node => (lastPiece data '-', true, node) := by
  unfold readData
  rw [show "-".toList = ['-'] from rfl, show ",".toList = [','] from rfl, splitString_char]
  have h0 : (data.splitOn '-')[0]? = some NodeName := h
  cases h1 : (data.splitOn '-')[1]? with
  | none => simp [h0, h1]
  | some nodes =>
    cases hfold : (nodes.splitOn ',').foldlM addPeer node with
    | none => simp [h0, h1, splitString_char, hfold]
    | some node' => simp [h0, h1, splitString_char, hfold]

theorem readData_of_complete (h : IsFor NodeName data) (hc : Complete data) :
    ∃ node', readData NodeName data node_found node = some (lastPiece data '-', true, node') := by
  obtain ⟨nodes, hnodes, hpeers⟩ := hc
  obtain ⟨node', hnode⟩ := exists_peers node hpeers
  rw [readData_of_isFor h, hnodes, Option.bind_some, hnode]
  exact ⟨node', rfl⟩

theorem readData_of_not_complete (h : IsFor NodeName data) (hc : ¬ Complete data) :
    readData NodeName data node_found node = none := by
  rw [readData_of_isFor h]
  cases hnodes : (data.splitOn '-')[1]? with
  | none => rfl
  | some nodes =>
    have hpeer : ∃ peer ∈ nodes.splitOn ',', '@' ∉ peer := by
      by_contra hno
      push Not at hno
      exact hc ⟨nodes, hnodes, hno⟩
    rw [Option.bind_some, foldlM_addPeer_eq_none node hpeer]
    rfl

/-! ## All lines -/

/-- The bodies of the loop for the lines. -/
def readAll (NodeName : Text) (lines : List Text) (s : Text × Bool × NodeImpl) :
    Option (Text × Bool × NodeImpl) :=
  lines.foldlM (fun s line => readData NodeName line s.2.1 s.2.2) s

theorem readAll_cons (lines : List Text) (s : Text × Bool × NodeImpl) :
    readAll NodeName (line :: lines) s =
      (readData NodeName line s.2.1 s.2.2).bind (readAll NodeName lines) := List.foldlM_cons

/-- The lines for the node can be read. -/
theorem exists_readAll {lines : List Text}
    (h : ∀ line ∈ lines, IsFor NodeName line → Complete line) (s : Text × Bool × NodeImpl)
    (hdata : '-' ∉ s.1) : ∃ data node', '-' ∉ data ∧
      readAll NodeName lines s = some (data, s.2.1 || lines.any (IsFor NodeName ·), node') := by
  induction lines generalizing s with
  | nil => exact ⟨s.1, s.2.2, hdata, by simp [readAll]⟩
  | cons line lines ih =>
    have hlines := fun l hl => h l (List.mem_cons_of_mem line hl)
    rw [readAll_cons]
    by_cases hfor : IsFor NodeName line
    · obtain ⟨node', hread⟩ : ∃ node', readData NodeName line s.2.1 s.2.2 =
          some (lastPiece line '-', true, node') :=
        readData_of_complete hfor (h line List.mem_cons_self hfor)
      obtain ⟨data, node'', hd, hall⟩ := ih hlines (lastPiece line '-', true, node')
        (notMem_lastPiece line '-')
      exact ⟨data, node'', hd, by rw [hread, Option.bind_some, hall]; simp [hfor]⟩
    · obtain ⟨data, node'', hd, hall⟩ := ih hlines (lastPiece line '-', s.2.1, s.2.2)
        (notMem_lastPiece line '-')
      refine ⟨data, node'', hd, ?_⟩
      rw [readData_of_not_isFor hfor, Option.bind_some, hall]
      simp [hfor]

theorem readAll_eq_none {lines : List Text}
    (h : ∃ line ∈ lines, IsFor NodeName line ∧ ¬ Complete line) (s : Text × Bool × NodeImpl) :
    readAll NodeName lines s = none := by
  induction lines generalizing s with
  | nil => simp at h
  | cons line lines ih =>
    rw [readAll_cons]
    obtain ⟨l, hl, hfor, hc⟩ := h
    rcases List.mem_cons.mp hl with rfl | hl
    · rw [readData_of_not_complete hfor hc]
      rfl
    · cases readData NodeName line s.2.1 s.2.2 with
      | none => rfl
      | some s' => exact ih ⟨l, hl, hfor, hc⟩ s'

namespace LookUp

/-- The loop reads all lines. -/
theorem run_readAll (NodeName NetworkMap data : Text) (node_found : Bool) (node : NodeImpl) :
    ∃ k rest, extract rest = none ∧
      (next NodeName)^[k] (reading NetworkMap data node_found node) =
        ofData rest (readAll NodeName (words NetworkMap) (data, node_found, node)) := by
  induction hlines : words NetworkMap generalizing NetworkMap data node_found node with
  | nil =>
    have hnone : extract NetworkMap = none := by
      cases hex : extract NetworkMap with
      | none => rfl
      | some w =>
        rw [words_of_extract hex] at hlines
        cases hlines
    exact ⟨0, NetworkMap, hnone, rfl⟩
  | cons line lines ih =>
    cases hex : extract NetworkMap with
    | none =>
      rw [words_eq_nil hex] at hlines
      cases hlines
    | some w =>
      obtain ⟨line', rest⟩ := w
      rw [words_of_extract hex] at hlines
      obtain ⟨rfl, hrest⟩ := List.cons.inj hlines
      have hnext : next NodeName (reading NetworkMap data node_found node) =
          ofData rest (readData NodeName line' node_found node) := by simp [next, hex]
      rw [readAll_cons]
      cases hread : readData NodeName line' node_found node with
      | none => exact ⟨1, [], rfl, by rw [Function.iterate_one, hnext, hread]; rfl⟩
      | some s =>
        obtain ⟨k, rest', hr, hk⟩ := ih rest s.1 s.2.1 s.2.2 hrest
        exact ⟨k + 1, rest', hr, by rw [Function.iterate_succ_apply, hnext, hread]; exact hk⟩

/-- After the last line the loop ends if the node has been found. -/
theorem next_found (h : extract rest = none) :
    next NodeName (reading rest data true node) = returned none node := by
  simp [next, h]

/-- Otherwise it splits the last piece again and again, which stays what it is. -/
theorem next_notFound (h : extract rest = none) (hdata : '-' ∉ data) :
    next NodeName (reading rest data false node) = reading rest data false node ∨
      next NodeName (reading rest data false node) = outOfRange := by
  by_cases hfor : IsFor NodeName data
  · have hc : ¬ Complete data := by
      rintro ⟨nodes, hnodes, -⟩
      simp [List.splitOn_eq_singleton hdata] at hnodes
    right
    simp [next, h, readData_of_not_complete hfor hc, ofData]
  · left
    simp [next, h, readData_of_not_isFor hfor, lastPiece_of_notMem hdata, ofData]

end LookUp

open LookUp

/-- A run comes to rest in the state of the return, and in no other one. -/
theorem LookUp.eq_of_rest {NetworkMapfile : Text} {node' : NodeImpl} {error : Option Text} {k m : ℕ}
    (hk : run NodeName NetworkMapfile node k = returned error node')
    (hm : next NodeName (run NodeName NetworkMapfile node m) = run NodeName NetworkMapfile node m) :
    run NodeName NetworkMapfile node m = returned error node' := by
  rw [← hk]
  exact Retry.iterate_eq_of_fixed hm (congrArg (next NodeName) hk ▸ hk.symm)

/-- If the look-up returns, then it has read all lines for the node. -/
theorem LookUp.complete_of_returned {NetworkMapfile : Text} {node' : NodeImpl}
    {error : Option Text} {k : ℕ}
    (hk : run NodeName NetworkMapfile node k = returned error node') :
    ∀ line ∈ words NetworkMapfile, IsFor NodeName line → Complete line := by
  obtain ⟨m, rest, -, hm⟩ := run_readAll NodeName NetworkMapfile [] false node
  by_contra hno
  push Not at hno
  rw [readAll_eq_none hno] at hm
  have hrun : run NodeName NetworkMapfile node m = outOfRange := hm
  have hend := eq_of_rest hk (m := m) (by rw [hrun]; rfl)
  rw [hrun] at hend
  cases hend

/-- Without a line for the node the loop does not end. -/
theorem LookUp.exists_isFor_of_returned {NetworkMapfile : Text} {node' : NodeImpl}
    {error : Option Text} {k : ℕ}
    (hk : run NodeName NetworkMapfile node k = returned error node') :
    ∃ line ∈ words NetworkMapfile, IsFor NodeName line := by
  obtain ⟨m, rest, hrest, hm⟩ := run_readAll NodeName NetworkMapfile [] false node
  obtain ⟨data, node₁, hdata, hall⟩ :=
    exists_readAll (complete_of_returned hk) ([], false, node) (by simp)
  by_contra hno
  have hany : (words NetworkMapfile).any (IsFor NodeName ·) = false := by
    simpa using hno
  rw [hall, hany] at hm
  have hrun : run NodeName NetworkMapfile node m = reading rest data false node₁ := hm
  have hnext : next NodeName (reading rest data false node₁) = reading rest data false node₁ ∨
      next NodeName (reading rest data false node₁) = outOfRange := next_notFound hrest hdata
  rcases hnext with hstay | hout
  · have hend := eq_of_rest hk (m := m) (by rw [hrun]; exact hstay)
    rw [hrun] at hend
    cases hend
  · have hrun' : run NodeName NetworkMapfile node (m + 1) = outOfRange := by
      rw [run, Function.iterate_succ_apply', ← run, hrun, hout]
    have hend := eq_of_rest hk (m := m + 1) (by rw [hrun']; rfl)
    rw [hrun'] at hend
    cases hend

/-- The look-up returns the node with all that its lines say. -/
theorem LookUp.exists_returned {NetworkMapfile : Text} {node' : NodeImpl}
    (h : readAll NodeName (words NetworkMapfile) ([], false, node) = some (data, true, node')) :
    ∃ k, run NodeName NetworkMapfile node k = returned none node' := by
  obtain ⟨m, rest, hrest, hm⟩ := run_readAll NodeName NetworkMapfile [] false node
  rw [h] at hm
  refine ⟨m + 1, ?_⟩
  rw [run, Function.iterate_succ_apply', hm]
  exact next_found hrest

/-- **When a look-up reports**: if the node has a line, and every line for it is complete. Otherwise
it splits its last word for ever, or reads past the end of a vector. -/
theorem lookUp_iff (NetworkMapfile NodeName : Text) (node : NodeImpl) :
    Reports NetworkMapfile NodeName node ↔
      (∃ line ∈ words NetworkMapfile, IsFor NodeName line) ∧
        ∀ line ∈ words NetworkMapfile, IsFor NodeName line → Complete line := by
  constructor
  · rintro ⟨k, error, node', hk, -⟩
    exact ⟨exists_isFor_of_returned hk, complete_of_returned hk⟩
  · rintro ⟨⟨line, hline, hfor⟩, hcomplete⟩
    obtain ⟨data, node', -, hall⟩ := exists_readAll hcomplete ([], false, node) (by simp)
    have hany : (words NetworkMapfile).any (IsFor NodeName ·) = true := by
      simpa using ⟨line, hline, hfor⟩
    rw [hany] at hall
    obtain ⟨k, hk⟩ := exists_returned hall
    exact ⟨k, none, node', hk, fun hno => absurd hfor (hno line hline)⟩

/-- A node that the map does not name is looked for without end. -/
theorem not_lookUp : ¬ Reports "Node1-Node2@localhost:50052\n".toList "Node3".toList .default := by
  rintro ⟨k, error, node', hk, -⟩
  obtain ⟨line, hline, hfor⟩ := exists_isFor_of_returned hk
  have hwords : words "Node1-Node2@localhost:50052\n".toList =
      ["Node1-Node2@localhost:50052".toList] := by decide
  rw [hwords, List.mem_singleton] at hline
  subst hline
  exact absurd hfor (by decide)

end PeerToPeer

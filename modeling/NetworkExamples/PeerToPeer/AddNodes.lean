import NetworkExamples.Lists.Loops
import NetworkExamples.PeerToPeer.NetworkMap

/-!
# Peers from a network map

`AddNodes` (`node.h`) looks a node up in the network map and makes a message queue for each of its
peers. The map has a line `Node-Peer1@addr1,Peer2@addr2` for each node; a line is cut at every `-`,
also at one in an address.

* `readAll_map`: what the look-up reads from a map.
* `addNodes_iff`: when the node gets the peers and addresses that were written.
-/

namespace PeerToPeer

open Pre (Text isspace words)

/-! ## The code -/

/-- A default-constructed queue is assigned, which takes over the names only. -/
def AddNode (node : NodeImpl) (NodeName socket_address : Text) : NodeImpl :=
  let Queue := (node.msgQueues[NodeName]?.map TsQueue.Queue).getD []
  { node with msgQueues := node.msgQueues.insert NodeName ⟨NodeName, socket_address, Queue⟩ }

/-- The body of the loop of `AddNodes`. -/
def addConnected (node : NodeImpl) (name : Text) : NodeImpl :=
  -- `connectedAddresses[name]` makes an entry if there is none.
  let node := { node with connectedAddresses := node.connectedAddresses.insertIfNew name [] }
  AddNode node name (node.connectedAddresses.getD name [])

/-- `none`: the look-up has not returned after `fuel` turns. -/
def AddNodes (fuel : ℕ) (NodeName NetworkMapFile : Text) (node : NodeImpl) : Option NodeImpl :=
  match LookUp.run NodeName NetworkMapFile node fuel with
  | .returned _ node => some (node.connectedNodes.foldl addConnected node)
  | _ => none

/-! ## Maps -/

/-- A node of the map, and its peers with their addresses. -/
structure MapLine where
  node : Text
  peers : List (Text × Text)
  deriving DecidableEq

/-- A peer in a line. -/
def peerData (peer : Text × Text) : Text := peer.1 ++ '@' :: peer.2

def MapLine.data (l : MapLine) : Text := l.node ++ '-' :: [','].intercalate (l.peers.map peerData)

/-- The map, one line for each node. -/
def renderMap (map : List MapLine) : Text := map.flatMap fun l => l.data ++ ['\n']

/-- The peers that the map gives a node. -/
def peersOf (map : List MapLine) (NodeName : Text) : List (Text × Text) :=
  (map.filter (·.node = NodeName)).flatMap (·.peers)

/-- A name of a node. -/
def IsName (name : Text) : Prop := ∀ c ∈ name, isspace c = false ∧ c ≠ '-' ∧ c ≠ ',' ∧ c ≠ '@'

/-- An address, as `host:port`. -/
def IsAddress (address : Text) : Prop := ∀ c ∈ address, isspace c = false ∧ c ≠ ',' ∧ c ≠ '@'

instance (name : Text) : Decidable (IsName name) :=
  List.decidableBAll (fun c => isspace c = false ∧ c ≠ '-' ∧ c ≠ ',' ∧ c ≠ '@') name

instance (address : Text) : Decidable (IsAddress address) :=
  List.decidableBAll (fun c => isspace c = false ∧ c ≠ ',' ∧ c ≠ '@') address

/-- A line that can be written. -/
structure MapLine.Ok (l : MapLine) : Prop where
  node : IsName l.node
  peers : ∀ peer ∈ l.peers, IsName peer.1 ∧ IsAddress peer.2

instance (l : MapLine) : Decidable l.Ok :=
  decidable_of_iff (IsName l.node ∧ ∀ peer ∈ l.peers, IsName peer.1 ∧ IsAddress peer.2)
    ⟨fun h => ⟨h.1, h.2⟩, fun h => ⟨h.node, h.peers⟩⟩

/-- The node has exactly these peers, each with its address and an empty message queue. -/
structure Connected (peers : List (Text × Text)) (node : NodeImpl) : Prop where
  connectedNodes : node.connectedNodes = peers.map Prod.fst
  connectedAddresses : ∀ name address,
    node.connectedAddresses[name]? = some address ↔ (name, address) ∈ peers
  msgQueues : ∀ name queue, node.msgQueues[name]? = some queue ↔
    ∃ address, (name, address) ∈ peers ∧ queue = ⟨name, address, []⟩

/-- `AddNodes` on the written map returns the peers of the node. -/
def RoundTrip (map : List MapLine) (NodeName : Text) : Prop :=
  ∃ fuel node, AddNodes fuel NodeName (renderMap map) .default = some node ∧
    Connected (peersOf map NodeName) node

/-- The peers that the look-up finds in a line: it is cut at the first `-` of an address. -/
def cut : List (Text × Text) → List (Text × Text)
  | [] => []
  | (name, address) :: peers =>
    if '-' ∈ address then [(name, firstPiece address '-')] else (name, address) :: cut peers

variable {NodeName : Text} {l : MapLine} {map : List MapLine} {node : NodeImpl}
  {peers : List (Text × Text)}

/-! ## Names and addresses -/

namespace IsName

variable {name : Text}

theorem space (h : IsName name) : ∀ c ∈ name, isspace c = false := fun c hc => (h c hc).1
theorem dash (h : IsName name) : '-' ∉ name := fun hc => (h _ hc).2.1 rfl
theorem comma (h : IsName name) : ',' ∉ name := fun hc => (h _ hc).2.2.1 rfl
theorem at_sign (h : IsName name) : '@' ∉ name := fun hc => (h _ hc).2.2.2 rfl

end IsName

namespace IsAddress

variable {address : Text}

theorem space (h : IsAddress address) : ∀ c ∈ address, isspace c = false := fun c hc => (h c hc).1
theorem comma (h : IsAddress address) : ',' ∉ address := fun hc => (h _ hc).2.1 rfl
theorem at_sign (h : IsAddress address) : '@' ∉ address := fun hc => (h _ hc).2.2 rfl

theorem firstPiece (h : IsAddress address) (c : Char) : IsAddress (PeerToPeer.firstPiece address c) :=
  fun x hx => h x ((List.takeWhile_prefix (· != c)).subset hx)

end IsAddress

/-! ## A line of the map -/

theorem cut_ne_nil (h : peers ≠ []) : cut peers ≠ [] := by
  cases peers with
  | nil => exact absurd rfl h
  | cons peer peers =>
    unfold cut
    split <;> exact List.cons_ne_nil _ _

theorem cut_eq_self (h : ∀ peer ∈ peers, '-' ∉ peer.2) : cut peers = peers := by
  induction peers with
  | nil => rfl
  | cons peer peers ih =>
    rw [cut, if_neg (h peer List.mem_cons_self), ih fun p hp => h p (List.mem_cons_of_mem peer hp)]

theorem cut_ok (h : ∀ peer ∈ peers, IsName peer.1 ∧ IsAddress peer.2) :
    ∀ peer ∈ cut peers, IsName peer.1 ∧ IsAddress peer.2 := by
  induction peers with
  | nil => exact h
  | cons peer peers ih =>
    intro p hp
    unfold cut at hp
    split at hp
    · obtain rfl := List.mem_singleton.mp hp
      exact ⟨(h peer List.mem_cons_self).1, (h peer List.mem_cons_self).2.firstPiece '-'⟩
    · rcases List.mem_cons.mp hp with rfl | hp
      · exact h _ List.mem_cons_self
      · exact ih (fun p hp => h p (List.mem_cons_of_mem peer hp)) p hp

theorem map_fst_cut_sublist (peers : List (Text × Text)) :
    ((cut peers).map Prod.fst).Sublist (peers.map Prod.fst) := by
  induction peers with
  | nil => exact .slnil
  | cons peer peers ih =>
    unfold cut
    split
    · exact (List.nil_sublist _).cons_cons _
    · exact ih.cons_cons _

/-- A dash in an address leaves a peer with another address. -/
theorem exists_cut (h : ∃ peer ∈ peers, '-' ∈ peer.2) :
    ∃ peer ∈ peers, (peer.1, firstPiece peer.2 '-') ∈ cut peers ∧ '-' ∈ peer.2 := by
  induction peers with
  | nil => simp at h
  | cons peer peers ih =>
    by_cases hd : '-' ∈ peer.2
    · exact ⟨peer, List.mem_cons_self, by simp [cut, hd], hd⟩
    · obtain ⟨p, hp, hdash⟩ := h
      have hp' : p ∈ peers := by
        rcases List.mem_cons.mp hp with rfl | hp'
        · exact absurd hdash hd
        · exact hp'
      obtain ⟨q, hq, hcut, hdash⟩ := ih ⟨p, hp', hdash⟩
      refine ⟨q, List.mem_cons_of_mem peer hq, ?_, hdash⟩
      rw [cut, if_neg hd]
      exact List.mem_cons_of_mem peer hcut

/-- The peers of a line, up to its second dash. -/
theorem firstPiece_peers (h : ∀ peer ∈ peers, IsName peer.1 ∧ IsAddress peer.2) :
    firstPiece ([','].intercalate (peers.map peerData)) '-' =
      [','].intercalate ((cut peers).map peerData) := by
  induction peers with
  | nil => rfl
  | cons peer peers ih =>
    have hname : '-' ∉ peer.1 ++ ['@'] := by
      simp [(h peer List.mem_cons_self).1.dash]
    have ih := ih fun p hp => h p (List.mem_cons_of_mem peer hp)
    have hpeer : peerData peer = (peer.1 ++ ['@']) ++ peer.2 := by simp [peerData]
    by_cases hd : '-' ∈ peer.2
    · obtain ⟨token, rest, hp2, htoken⟩ := List.eq_append_cons_of_mem hd
      have hcut : cut (peer :: peers) = [(peer.1, token)] := by
        rw [cut, if_pos hd, hp2, firstPiece_append_cons htoken]
      have hrest : ∃ rest', [','].intercalate ((peer :: peers).map peerData) =
          (peer.1 ++ ['@']) ++ (token ++ '-' :: rest') := by
        cases peers with
        | nil => exact ⟨rest, by simp [hpeer, hp2]⟩
        | cons q peers =>
          exact ⟨rest ++ [','] ++ [','].intercalate ((q :: peers).map peerData), by simp [hpeer, hp2]⟩
      obtain ⟨rest', hrest⟩ := hrest
      rw [hrest, firstPiece_append hname, firstPiece_append_cons htoken, hcut]
      simp [peerData]
    · have hcut : cut (peer :: peers) = peer :: cut peers := by rw [cut, if_neg hd]
      have hdata : '-' ∉ peerData peer := by
        rw [hpeer]
        exact fun hm => (List.mem_append.mp hm).elim hname hd
      cases peers with
      | nil =>
        rw [hcut]
        simpa [cut] using firstPiece_of_notMem hdata
      | cons q peers =>
        obtain ⟨r, rs, hrs⟩ := List.exists_cons_of_ne_nil (cut_ne_nil (List.cons_ne_nil q peers))
        rw [hrs] at hcut ih
        have hdata' : '-' ∉ peerData peer ++ [','] := by simp [hdata]
        rw [hcut, List.map_cons, List.map_cons, List.map_cons, List.map_cons,
          List.intercalate_cons_cons, List.intercalate_cons_cons, firstPiece_append hdata']
        exact congrArg (peerData peer ++ [','] ++ ·) ih

theorem splitOn_data (hok : l.Ok) : l.data.splitOn '-' =
    l.node :: ([','].intercalate (l.peers.map peerData)).splitOn '-' :=
  List.splitOn_append_cons_self_of_not_mem hok.node.dash _

theorem isFor_data (hok : l.Ok) : IsFor NodeName l.data ↔ l.node = NodeName := by
  unfold IsFor
  rw [splitOn_data hok]
  simp

theorem nodes_data (hok : l.Ok) :
    (l.data.splitOn '-')[1]? = some ([','].intercalate ((cut l.peers).map peerData)) := by
  rw [splitOn_data hok, List.getElem?_cons_succ, splitOn_zero, firstPiece_peers hok.peers]

theorem splitOn_peers (h : ∀ peer ∈ peers, IsName peer.1 ∧ IsAddress peer.2) (hne : peers ≠ []) :
    ([','].intercalate (peers.map peerData)).splitOn ',' = peers.map peerData := by
  apply List.splitOn_intercalate
  · intro data hdata
    obtain ⟨peer, hpeer, rfl⟩ := List.mem_map.mp hdata
    simp [peerData, (h peer hpeer).1.comma, (h peer hpeer).2.comma]
  · simpa using hne

/-- A line without peers is not complete: its one peer is empty. -/
theorem not_complete_data (hok : l.Ok) (h : l.peers = []) : ¬ Complete l.data := by
  rintro ⟨nodes, hnodes, hpeers⟩
  rw [nodes_data hok, h] at hnodes
  cases hnodes
  exact absurd (hpeers [] (by decide)) (by decide)

/-! ## The peers of a node -/

/-- The node with these peers too. -/
def NodeImpl.addPeers (node : NodeImpl) (peers : List (Text × Text)) : NodeImpl :=
  { node with
    connectedNodes := node.connectedNodes ++ peers.map Prod.fst
    connectedAddresses := peers.foldl (fun m peer => m.insert peer.1 peer.2) node.connectedAddresses
    establishedConnections :=
      peers.foldl (fun m peer => m.insert peer.1 false) node.establishedConnections }

theorem addPeers_append (node : NodeImpl) (l₁ l₂ : List (Text × Text)) :
    node.addPeers (l₁ ++ l₂) = (node.addPeers l₁).addPeers l₂ := by
  simp [NodeImpl.addPeers]

theorem addPeer_peerData (node : NodeImpl) {peer : Text × Text} (hname : IsName peer.1)
    (haddress : IsAddress peer.2) : addPeer node (peerData peer) = some (node.addPeers [peer]) := by
  unfold addPeer peerData
  rw [show "@".toList = ['@'] from rfl, splitString_char,
    List.splitOn_append_cons_self_of_not_mem hname.at_sign,
    List.splitOn_eq_singleton haddress.at_sign]
  rfl

theorem foldlM_addPeer (node : NodeImpl)
    (h : ∀ peer ∈ peers, IsName peer.1 ∧ IsAddress peer.2) :
    (peers.map peerData).foldlM addPeer node = some (node.addPeers peers) := by
  induction peers generalizing node with
  | nil => simp [NodeImpl.addPeers]
  | cons peer peers ih =>
    have hpeer := h peer List.mem_cons_self
    rw [List.map_cons, List.foldlM_cons, addPeer_peerData node hpeer.1 hpeer.2]
    exact (ih _ fun p hp => h p (List.mem_cons_of_mem peer hp)).trans
      (congrArg some (addPeers_append node [peer] peers).symm)

theorem readData_data (hok : l.Ok) (hnode : l.node = NodeName) (hne : l.peers ≠ [])
    (node_found : Bool) (node : NodeImpl) : readData NodeName l.data node_found node =
      some (lastPiece l.data '-', true, node.addPeers (cut l.peers)) := by
  have hcut := cut_ok hok.peers
  rw [readData_of_isFor ((isFor_data hok).mpr hnode), nodes_data hok, Option.bind_some,
    splitOn_peers hcut (cut_ne_nil hne), foldlM_addPeer node hcut]
  rfl

/-- The peers that the look-up finds for a node. -/
def found (map : List MapLine) (NodeName : Text) : List (Text × Text) :=
  (map.filter (·.node = NodeName)).flatMap fun l => cut l.peers

theorem readAll_map (hok : ∀ l ∈ map, l.Ok) (hne : ∀ l ∈ map, l.node = NodeName → l.peers ≠ [])
    (s : Text × Bool × NodeImpl) : ∃ data, readAll NodeName (map.map MapLine.data) s =
      some (data, s.2.1 || map.any (·.node = NodeName), s.2.2.addPeers (found map NodeName)) := by
  induction map generalizing s with
  | nil => exact ⟨s.1, by simp [readAll, found, NodeImpl.addPeers]⟩
  | cons l map ih =>
    have hl := hok l List.mem_cons_self
    have ih := ih (fun l' hl' => hok l' (List.mem_cons_of_mem l hl'))
      (fun l' hl' => hne l' (List.mem_cons_of_mem l hl'))
    rw [List.map_cons, readAll_cons]
    by_cases hnode : l.node = NodeName
    · obtain ⟨data, hdata⟩ := ih (lastPiece l.data '-', true, s.2.2.addPeers (cut l.peers))
      refine ⟨data, ?_⟩
      rw [readData_data hl hnode (hne l List.mem_cons_self hnode), Option.bind_some, hdata]
      simp [found, hnode, addPeers_append]
    · obtain ⟨data, hdata⟩ := ih (lastPiece l.data '-', s.2.1, s.2.2)
      refine ⟨data, ?_⟩
      rw [readData_of_not_isFor (mt (isFor_data hl).mp hnode), Option.bind_some, hdata]
      simp [found, hnode]

theorem isspace_peerData {peer : Text × Text} (hname : IsName peer.1) (haddress : IsAddress peer.2) :
    ∀ c ∈ peerData peer, isspace c = false := by
  intro c hc
  rcases List.mem_append.mp hc with hc | hc
  · exact hname.space c hc
  rcases List.mem_cons.mp hc with rfl | hc
  · decide
  · exact haddress.space c hc

theorem isspace_data (hok : l.Ok) : ∀ c ∈ l.data, isspace c = false := by
  intro c hc
  rcases List.mem_append.mp hc with hc | hc
  · exact hok.node.space c hc
  rcases List.mem_cons.mp hc with rfl | hc
  · decide
  rcases Lists.mem_intercalate hc with hc | ⟨data, hdata, hc⟩
  · obtain rfl := List.mem_singleton.mp hc
    decide
  · obtain ⟨peer, hpeer, rfl⟩ := List.mem_map.mp hdata
    exact isspace_peerData (hok.peers peer hpeer).1 (hok.peers peer hpeer).2 c hc

theorem words_renderMap (hok : ∀ l ∈ map, l.Ok) :
    words (renderMap map) = map.map MapLine.data := by
  induction map with
  | nil => rfl
  | cons l map ih =>
    have hl := isspace_data (hok l List.mem_cons_self)
    have hne : l.data ≠ [] := by simp [MapLine.data]
    have hrender : renderMap (l :: map) = l.data ++ '\n' :: renderMap map := by simp [renderMap]
    have hbreak : words ('\n' :: renderMap map) = words (renderMap map) := by
      rw [← words_dropWhile, List.dropWhile_cons_of_pos (by decide), words_dropWhile]
    rw [hrender, words_append hl hne (by simp [isspace]), hbreak,
      ih fun l' hl' => hok l' (List.mem_cons_of_mem l hl'), List.map_cons]

/-! ## The maps of the node -/

theorem getElem?_foldl_insert {α : Type} {entries : List (Text × α)}
    (h : (entries.map Prod.fst).Nodup) (m : Map α) (name : Text) (v : α) :
    (entries.foldl (fun m entry => m.insert entry.1 entry.2) m)[name]? = some v ↔
      (name, v) ∈ entries ∨ name ∉ entries.map Prod.fst ∧ m[name]? = some v := by
  induction entries generalizing m with
  | nil => simp
  | cons entry entries ih =>
    obtain ⟨hnot, hnodup⟩ := List.nodup_cons.mp h
    rw [List.foldl_cons, ih hnodup, Map.getElem?_insert]
    by_cases hname : entry.1 = name
    · subst hname
      have hentry : (entry.1, v) ∉ entries := fun hm =>
        hnot (List.mem_map.mpr ⟨_, hm, rfl⟩)
      rw [if_pos rfl]
      simp only [hentry, hnot, not_false_eq_true, true_and, false_or, Option.some.injEq,
        List.mem_cons, List.map_cons, not_true, false_and, or_false]
      constructor
      · rintro rfl
        rfl
      · intro hv
        exact (congrArg Prod.snd hv).symm
    · rw [if_neg hname]
      have hne : (name, v) ≠ entry := fun hv => hname (congrArg Prod.fst hv).symm
      simp [hne, Ne.symm hname]

theorem getElem?_addConnected (node : NodeImpl) (name name' : Text) :
    (addConnected node name).msgQueues[name']? = if name = name' then
      some ⟨name, (node.connectedAddresses[name]?).getD [],
        (node.msgQueues[name]?.map TsQueue.Queue).getD []⟩
    else node.msgQueues[name']? := by
  unfold addConnected AddNode
  simp only [Map.getElem?_insert, Std.ExtTreeMap.getD_eq_getD_getElem?,
    Std.ExtTreeMap.getElem?_insertIfNew]
  by_cases hmem : name ∈ node.connectedAddresses
  · simp [hmem]
  · simp [hmem]

theorem addresses_addConnected {name : Text} (h : name ∈ node.connectedAddresses) :
    (addConnected node name).connectedAddresses = node.connectedAddresses := by
  apply Std.ExtTreeMap.ext_getElem?
  intro name'
  have hins : (addConnected node name).connectedAddresses =
    node.connectedAddresses.insertIfNew name [] := rfl
  rw [hins, Std.ExtTreeMap.getElem?_insertIfNew, if_neg fun hn => hn.2 h]

/-- The queues of the peers, and no others. -/
theorem foldl_addConnected {names : List Text}
    (h : ∀ name ∈ names, name ∈ node.connectedAddresses) :
    (names.foldl addConnected node).connectedNodes = node.connectedNodes ∧
    (names.foldl addConnected node).connectedAddresses = node.connectedAddresses ∧
    ∀ name, (names.foldl addConnected node).msgQueues[name]? = if name ∈ names then
        some ⟨name, (node.connectedAddresses[name]?).getD [],
          (node.msgQueues[name]?.map TsQueue.Queue).getD []⟩
      else node.msgQueues[name]? := by
  induction names generalizing node with
  | nil => exact ⟨rfl, rfl, fun name => by simp⟩
  | cons name names ih =>
    have haddr := addresses_addConnected (h name List.mem_cons_self)
    have hmem : ∀ n ∈ names, n ∈ (addConnected node name).connectedAddresses := by
      intro n hn
      rw [haddr]
      exact h n (List.mem_cons_of_mem name hn)
    obtain ⟨hnodes, haddresses, hqueues⟩ := ih hmem
    refine ⟨hnodes, haddresses.trans haddr, fun name' => ?_⟩
    rw [List.foldl_cons, hqueues, getElem?_addConnected, haddr]
    by_cases hname : name = name'
    · subst hname
      simp
    · by_cases hmem : name' ∈ names
      · simp [hmem, hname]
      · simp [hmem, hname, Ne.symm hname]

/-! ## The round trip -/

/-- A node with new peers, and what `AddNodes` makes of it. -/
theorem connected_addPeers (h : (peers.map Prod.fst).Nodup) :
    Connected peers ((peers.map Prod.fst).foldl addConnected (NodeImpl.default.addPeers peers)) := by
  let node := NodeImpl.default.addPeers peers
  have haddress : ∀ name address, node.connectedAddresses[name]? = some address ↔
      (name, address) ∈ peers := fun name address => by
    exact (getElem?_foldl_insert h ∅ name address).trans (by simp)
  have hmem : ∀ name ∈ peers.map Prod.fst, name ∈ node.connectedAddresses := by
    intro name hname
    obtain ⟨peer, hpeer, rfl⟩ := List.mem_map.mp hname
    have hsome := (haddress peer.1 peer.2).mpr hpeer
    exact Std.ExtTreeMap.mem_iff_isSome_getElem?.mpr (by rw [hsome]; rfl)
  obtain ⟨hnodes, haddresses, hqueues⟩ := foldl_addConnected hmem
  refine ⟨hnodes.trans (List.nil_append _), fun name address => ?_, fun name queue => ?_⟩
  · rw [haddresses]
    exact haddress name address
  · rw [hqueues]
    have hempty : node.msgQueues[name]? = none := Std.ExtTreeMap.getElem?_empty
    by_cases hname : name ∈ peers.map Prod.fst
    · obtain ⟨peer, hpeer, rfl⟩ := List.mem_map.mp hname
      rw [if_pos hname, hempty, (haddress peer.1 peer.2).mpr hpeer]
      constructor
      · intro hq
        exact ⟨peer.2, hpeer, (Option.some.inj hq).symm⟩
      · rintro ⟨address, haddr, rfl⟩
        have heq := ((haddress peer.1 peer.2).mpr hpeer).symm.trans ((haddress peer.1 address).mpr haddr)
        obtain rfl := Option.some.inj heq
        rfl
    · rw [if_neg hname, hempty]
      constructor
      · intro hq
        cases hq
      · rintro ⟨address, haddr, -⟩
        exact absurd (List.mem_map_of_mem (f := Prod.fst) haddr) hname

/-- The look-up of a node with a line, all of whose lines have peers. -/
theorem exists_addNodes (hok : ∀ l ∈ map, l.Ok) (hlisted : ∃ l ∈ map, l.node = NodeName)
    (hne : ∀ l ∈ map, l.node = NodeName → l.peers ≠ []) :
    ∃ fuel, AddNodes fuel NodeName (renderMap map) .default =
      some (((found map NodeName).map Prod.fst).foldl addConnected
        (NodeImpl.default.addPeers (found map NodeName))) := by
  obtain ⟨data, hread⟩ := readAll_map hok hne ([], false, .default)
  have hany : map.any (·.node = NodeName) = true := by
    obtain ⟨l, hl, hnode⟩ := hlisted
    exact List.any_eq_true.mpr ⟨l, hl, decide_eq_true hnode⟩
  rw [hany, ← words_renderMap hok] at hread
  obtain ⟨k, hk⟩ := LookUp.exists_returned hread
  refine ⟨k, ?_⟩
  unfold AddNodes
  rw [hk]
  rfl

theorem map_fst_found_sublist (map : List MapLine) (NodeName : Text) :
    ((found map NodeName).map Prod.fst).Sublist ((peersOf map NodeName).map Prod.fst) := by
  unfold found peersOf
  induction map.filter (·.node = NodeName) with
  | nil => exact .slnil
  | cons l lines ih =>
    rw [List.flatMap_cons, List.flatMap_cons, List.map_append, List.map_append]
    exact (map_fst_cut_sublist l.peers).append ih

/-- `AddNodes` returns once. -/
theorem eq_of_addNodes {NetworkMapFile : Text} {node₁ node₂ : NodeImpl} {k m : ℕ}
    (hk : AddNodes k NodeName NetworkMapFile node = some node₁)
    (hm : AddNodes m NodeName NetworkMapFile node = some node₂) : node₁ = node₂ := by
  unfold AddNodes at hk hm
  cases hrun : LookUp.run NodeName NetworkMapFile node k with
  | returned error node' =>
    cases hrun' : LookUp.run NodeName NetworkMapFile node m with
    | returned error' node'' =>
      have heq := LookUp.eq_of_rest hrun (m := m) (by rw [hrun']; rfl)
      rw [hrun] at hk
      rw [heq] at hm
      exact Option.some.inj (hk.symm.trans hm)
    | _ => simp [hrun'] at hm
  | _ => simp [hrun] at hk

/-- A node without peers has a line that cannot be read. -/
theorem RoundTrip.peers_ne_nil (h : RoundTrip map NodeName) (hok : ∀ l ∈ map, l.Ok) (hl : l ∈ map)
    (hnode : l.node = NodeName) : l.peers ≠ [] := by
  intro hnil
  obtain ⟨fuel, node, hadd, -⟩ := h
  cases hrun : LookUp.run NodeName (renderMap map) .default fuel with
  | returned error node' =>
    refine not_complete_data (hok l hl) hnil (LookUp.complete_of_returned hrun l.data ?_
      ((isFor_data (hok l hl)).mpr hnode))
    rw [words_renderMap hok]
    exact List.mem_map_of_mem hl
  | _ => simp [AddNodes, hrun] at hadd

/-- An address with a dash is cut. -/
theorem RoundTrip.dash_notMem (h : RoundTrip map NodeName) (hok : ∀ l ∈ map, l.Ok)
    (hdistinct : ((peersOf map NodeName).map Prod.fst).Nodup) (hl : l ∈ map)
    (hnode : l.node = NodeName) : ∀ peer ∈ l.peers, '-' ∉ peer.2 := by
  intro peer hpeer hdash
  obtain ⟨p, hp, hcut, hdash⟩ := exists_cut ⟨peer, hpeer, hdash⟩
  obtain ⟨m, hm⟩ := exists_addNodes hok ⟨l, hl, hnode⟩ fun l hl hnode => h.peers_ne_nil hok hl hnode
  obtain ⟨fuel, node, hadd, hconn⟩ := h
  obtain rfl := eq_of_addNodes hadd hm
  -- The cut address is in the node, where the whole one should be.
  have hmem : l ∈ map.filter (·.node = NodeName) := List.mem_filter.mpr ⟨hl, decide_eq_true hnode⟩
  have hfound : (p.1, firstPiece p.2 '-') ∈ found map NodeName :=
    List.mem_flatMap.mpr ⟨l, hmem, hcut⟩
  have hpeers : p ∈ peersOf map NodeName := List.mem_flatMap.mpr ⟨l, hmem, hp⟩
  have hnodup := hdistinct.sublist (map_fst_found_sublist map NodeName)
  have hgot := ((connected_addPeers hnodup).connectedAddresses _ _).mpr hfound
  have hgot' := (hconn.connectedAddresses p.1 p.2).mpr hpeers
  obtain ⟨token, rest, hp2, htoken⟩ := List.eq_append_cons_of_mem hdash
  have heq : firstPiece p.2 '-' = p.2 := Option.some.inj (hgot.symm.trans hgot')
  rw [hp2, firstPiece_append_cons htoken] at heq
  exact absurd heq (by simp)

/-- **When a network map comes back**: if the node has peers in each of its lines, and there is no
dash in their addresses. -/
theorem addNodes_iff (hok : ∀ l ∈ map, l.Ok) (hlisted : ∃ l ∈ map, l.node = NodeName)
    (hdistinct : ((peersOf map NodeName).map Prod.fst).Nodup) :
    RoundTrip map NodeName ↔
      ∀ l ∈ map, l.node = NodeName → l.peers ≠ [] ∧ ∀ peer ∈ l.peers, '-' ∉ peer.2 := by
  constructor
  · intro h l hl hnode
    exact ⟨h.peers_ne_nil hok hl hnode, h.dash_notMem hok hdistinct hl hnode⟩
  · intro h
    have hfound : found map NodeName = peersOf map NodeName := by
      unfold found peersOf
      apply List.flatMap_congr
      intro l hl
      obtain ⟨hl, hnode⟩ := List.mem_filter.mp hl
      exact cut_eq_self (h l hl (of_decide_eq_true hnode)).2
    obtain ⟨fuel, hadd⟩ := exists_addNodes hok hlisted fun l hl hnode => (h l hl hnode).1
    rw [hfound] at hadd
    exact ⟨fuel, _, hadd, connected_addPeers hdistinct⟩

/-- Two nodes, the first with two peers. -/
def twoNodes : List MapLine :=
  [⟨"Node1".toList, [("Node2".toList, "localhost:50052".toList),
    ("Node5".toList, "localhost:50055".toList)]⟩,
    ⟨"Node2".toList, [("Node1".toList, "localhost:50051".toList)]⟩]

theorem addNodes_two : RoundTrip twoNodes "Node1".toList :=
  (addNodes_iff (by decide) (by decide) (by decide)).mpr (by decide)

/-- The name of a host may have a dash. -/
theorem not_addNodes : ¬ ∀ (map : List MapLine) (NodeName : Text), (∀ l ∈ map, l.Ok) →
    (∃ l ∈ map, l.node = NodeName) → ((peersOf map NodeName).map Prod.fst).Nodup →
      RoundTrip map NodeName := by
  intro h
  have htrip := h [⟨"Node1".toList, [("Node2".toList, "my-host:50052".toList)]⟩] "Node1".toList
    (by decide) (by decide) (by decide)
  exact htrip.dash_notMem (by decide) (by decide) List.mem_cons_self rfl _ List.mem_cons_self
    (by decide)

end PeerToPeer

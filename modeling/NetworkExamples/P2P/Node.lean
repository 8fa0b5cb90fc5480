import NetworkExamples.P2P.JointKeys
import NetworkExamples.Fifo.Patterns
import NetworkExamples.PeerToPeer.Queue

/-!
# The node of the peer-to-peer framework

The communication of a node (`node.h`): its message queues, one per sender, and the calls that
send to and receive from other nodes.

* `getMsg`: one look into a queue; `getMsgWait` repeats it until a message is there or the
  time-out has passed. `getMsg_eq_scan` says that the receive of a program (`Prog.recv`) is
  `getMsg` on a queue that is not empty.
* `getMsg_wire`: it is the `getMsg` of `PeerToPeer/Queue.lean`, whose messages carry serialized texts.
* `sendMsg` repeats its attempts until the message is in the receiver's queue; with a time-out it
  gives up. The attempts themselves and their times are left out: a message to a node that has
  not ended arrives.
* `getSerialMsgWait` ignores its message type: it takes the front of the queue, whatever it is.
-/

namespace P2P

open Fifo

/-- The name of a node. The model names nodes by their numbers, the controller by 0. -/
def nodeName : ℕ → String
  | 0 => "Controller"
  | i + 1 => "Node" ++ toString (i + 1)

/-- The field `Data` of a message: nothing, a text, or a serialized object. -/
inductive Payload (F : OpenFHE) where
  | empty
  | text (s : String)
  | cryptoContext (x : F.CryptoContext)
  | publicKey (x : F.PublicKey)
  | evalKey (x : F.EvalKey)
  | evalSumKeys (x : F.EvalSumKeys)
  | poly (x : F.DCRTPoly)
  | ciphertext (x : F.Ciphertext)
  | ciphertexts (x : List F.Ciphertext)

/-- A message. Its sender is the name of the queue it is in. -/
structure MessageFormat (F : OpenFHE) where
  msgType : String
  data : Payload F

variable {F : OpenFHE} {E α T : Type}

/-! ## Queues -/

/-- A default-constructed message. -/
def MessageFormat.none : MessageFormat F := ⟨"", .empty⟩

/-- `tsqueue::pop`: the front of the queue. -/
def pop : List (MessageFormat F) → MessageFormat F × List (MessageFormat F)
  | [] => (.none, [])
  | m :: q => (m, q)

/-- `tsqueue::pop_with_type`: the first message of the type; those before it are dropped. -/
def popWithType (msgtype : String) :
    List (MessageFormat F) → MessageFormat F × List (MessageFormat F)
  | [] => (.none, [])
  | m :: q => if m.msgType = msgtype then (m, q) else popWithType msgtype q

/-- One look into a queue; `none`: a message without acknowledgement. -/
def getMsg (msgtype : String) (q : List (MessageFormat F)) :
    Option (MessageFormat F) × List (MessageFormat F) :=
  if q.isEmpty then (none, q)
  else if msgtype.length = 0 then (some (pop q).1, (pop q).2)
  else (some (popWithType msgtype q).1, (popWithType msgtype q).2)

/-- The messages that `getMsg` looks for. -/
def selects (msgtype : String) (m : MessageFormat F) : Bool :=
  msgtype.length = 0 || m.msgType = msgtype

/-- What `getMsg` makes of the reply of a receive. -/
def ofReply : Reply (MessageFormat F) → Option (MessageFormat F)
  | .got m => some m
  | .nothing => some .none
  | .timedOut => none

theorem popWithType_eq_scan {msgtype : String} (h : msgtype.length ≠ 0)
    (q : List (MessageFormat F)) :
    (some (popWithType msgtype q).1, (popWithType msgtype q).2) =
      (ofReply (scan (selects msgtype) q).1, (scan (selects msgtype) q).2) := by
  induction q with
  | nil => rfl
  | cons m q ih =>
    by_cases hm : m.msgType = msgtype
    · simp [popWithType, scan, selects, hm, ofReply]
    · have hs : selects msgtype m = false := by simp [selects, hm]; simpa using h
      simpa [popWithType, scan, hm, hs] using ih

/-- **On a queue that is not empty, `getMsg` is the receive of a program.** -/
theorem getMsg_eq_scan (msgtype : String) {q : List (MessageFormat F)} (hq : q ≠ []) :
    getMsg msgtype q = (ofReply (scan (selects msgtype) q).1, (scan (selects msgtype) q).2) := by
  obtain ⟨m, q, rfl⟩ := List.exists_cons_of_ne_nil hq
  unfold getMsg
  rw [if_neg (by simp)]
  split
  · next h => simp [pop, scan, selects, h, ofReply]
  · next h => exact popWithType_eq_scan h _

/-! ### The queues of the framework -/

section

variable {enc : Payload F → String} {name : String} {q : List (MessageFormat F)}

/-- The message as the framework has it: the payload serialized, and with the name of its sender. -/
def wire (enc : Payload F → String) (name : String) (m : MessageFormat F) :
    PeerToPeer.MessageFormat :=
  ⟨false, name, m.msgType, enc m.data⟩

/-- The message `r` is `m`, but for its sender. -/
def Carries (enc : Payload F → String) (r : PeerToPeer.MessageFormat) (m : MessageFormat F) : Prop :=
  r.msgType = m.msgType ∧ r.Data = enc m.data

/-- A default-constructed message is an empty text. -/
theorem carries_default (h0 : enc .empty = "") : Carries enc .default (MessageFormat.none (F := F)) :=
  ⟨rfl, h0.symm⟩

theorem pop_wire (h0 : enc .empty = "") (name : String) (q : List (MessageFormat F)) :
    Carries enc (PeerToPeer.pop (q.map (wire enc name))).1 (pop q).1 ∧
      (PeerToPeer.pop (q.map (wire enc name))).2 = (pop q).2.map (wire enc name) := by
  cases q with
  | nil => exact ⟨carries_default h0, rfl⟩
  | cons m q => exact ⟨⟨rfl, rfl⟩, rfl⟩

theorem popWithType_wire (h0 : enc .empty = "") (name msgtype : String) (q : List (MessageFormat F)) :
    Carries enc (PeerToPeer.popWithType msgtype (q.map (wire enc name))).1 (popWithType msgtype q).1 ∧
      (PeerToPeer.popWithType msgtype (q.map (wire enc name))).2 =
        (popWithType msgtype q).2.map (wire enc name) := by
  induction q with
  | nil => exact ⟨carries_default h0, rfl⟩
  | cons m q ih =>
    have htype : (wire enc name m).msgType = m.msgType := rfl
    rw [List.map_cons, PeerToPeer.popWithType, popWithType, htype]
    split
    · exact ⟨⟨rfl, rfl⟩, rfl⟩
    · exact ih

/-- **One look into the queue of a node is the look of the framework**, whatever the serialization. -/
theorem getMsg_wire (h0 : enc .empty = "") {msgQueues : PeerToPeer.MsgQueues}
    (hq : msgQueues name = q.map (wire enc name)) (msgtype : String) :
    let r := PeerToPeer.getMsg msgQueues name msgtype
    r.1.acknowledgement = (getMsg msgtype q).1.isSome ∧
      Carries enc r.1 ((getMsg msgtype q).1.getD .none) ∧
      r.2 = Function.update msgQueues name ((getMsg msgtype q).2.map (wire enc name)) := by
  unfold PeerToPeer.getMsg getMsg
  rw [hq, List.isEmpty_map]
  split
  · exact ⟨rfl, carries_default h0, by rw [← hq, Function.update_eq_self]⟩
  · by_cases hlen : msgtype.length = 0
    · obtain ⟨hcarries, hrest⟩ := pop_wire h0 name q
      simp only [if_pos hlen]
      exact ⟨rfl, hcarries, by rw [hrest]⟩
    · obtain ⟨hcarries, hrest⟩ := popWithType_wire h0 name msgtype q
      simp only [if_neg hlen]
      exact ⟨rfl, hcarries, by rw [hrest]⟩

end

/-! ## The place of a node in the chain -/

/-- The nodes of a network. -/
abbrev IsNode (N i : ℕ) : Prop := 1 ≤ i ∧ i ≤ N

theorem one_isNode {N : ℕ} (h : 2 ≤ N) : IsNode N 1 := ⟨le_rfl, by omega⟩

theorem last_isNode {N : ℕ} (h : 2 ≤ N) : IsNode N N := ⟨by omega, le_rfl⟩

/-- The neighbours of a node: down the chain is from `Node1` to the last node. -/
structure NodesPath where
  dsendtoNode : ℕ
  dgetfromNode : ℕ
  usendtoNode : ℕ
  ugetfromNode : ℕ

/-- The neighbours as `main` sets them; `num_of_nodes + 1`, which names no node, stands for a
name that is not set. -/
def nodesPath (num_of_nodes node_id : ℕ) : NodesPath :=
  let unset := num_of_nodes + 1
  if node_id = 1 then ⟨node_id + 1, unset, unset, node_id + 1⟩
  else if 1 < node_id ∧ node_id < num_of_nodes then
    ⟨node_id + 1, node_id - 1, node_id - 1, node_id + 1⟩
  else ⟨unset, node_id - 1, node_id - 1, unset⟩

section

variable {N i : ℕ}

theorem nodesPath_first : nodesPath N 1 = ⟨2, N + 1, N + 1, 2⟩ := rfl

theorem nodesPath_mid (h1 : 1 < i) (h2 : i < N) :
    nodesPath N i = ⟨i + 1, i - 1, i - 1, i + 1⟩ := by
  simp [nodesPath, h1, h2, h1.ne']

theorem nodesPath_last (h : 1 < N) : nodesPath N N = ⟨N + 1, N - 1, N - 1, N + 1⟩ := by
  simp [nodesPath, h.ne']

/-- The three roles in the chain. -/
theorem role_cases (hi : 1 ≤ i ∧ i ≤ N) : i = 1 ∨ (1 < i ∧ i < N) ∨ i = N := by omega

end

/-! ## The calls of a node -/

/-- The state of a node that its calls read and write. -/
structure NodeImpl (F : OpenFHE) where
  myNodeName : ℕ
  /-- The keys of `connectedAddresses`, in the order of the map. -/
  connectedAddresses : List ℕ
  keyPair : Option (KeyPair F.PublicKey F.SecretKey) := none
  finalPubKey : Option F.PublicKey := none
  evalMultFinal : Option F.EvalKey := none
  evalSumFinal : Option F.EvalSumKeys := none

/-- The code of a node, with ghost notes `E`. -/
abbrev NodeM (F : OpenFHE) (E : Type) := Prog ℕ (MessageFormat F) E

/-- Follow a pointer. -/
def nonNull : Option T → NodeM F E T
  | some x => .ret x
  | none => .fail "null pointer"

theorem nonNull_bind (x : T) (f : T → NodeM F E α) : (nonNull (some x) >>= f) = f x := rfl

theorem mapM_nonNull (l : List T) : (l.map some).mapM nonNull = (pure l : NodeM F E (List T)) := by
  induction l with
  | nil => rfl
  | cons x l ih => rw [List.map_cons, List.mapM_cons, nonNull_bind, ih, pure_bind]

/-- How the objects of a C++ type are serialized. -/
structure Kind (F : OpenFHE) (T : Type) where
  ser : T → Payload F
  des : Payload F → Option T
  des_ser : ∀ x, des (ser x) = some x
  des_empty : des .empty = none

namespace Kind

def cryptoContext : Kind F F.CryptoContext where
  ser := .cryptoContext
  des := fun | .cryptoContext x => some x | _ => none
  des_ser _ := rfl
  des_empty := rfl

def publicKey : Kind F F.PublicKey where
  ser := .publicKey
  des := fun | .publicKey x => some x | _ => none
  des_ser _ := rfl
  des_empty := rfl

def evalKey : Kind F F.EvalKey where
  ser := .evalKey
  des := fun | .evalKey x => some x | _ => none
  des_ser _ := rfl
  des_empty := rfl

def evalSumKeys : Kind F F.EvalSumKeys where
  ser := .evalSumKeys
  des := fun | .evalSumKeys x => some x | _ => none
  des_ser _ := rfl
  des_empty := rfl

def poly : Kind F F.DCRTPoly where
  ser := .poly
  des := fun | .poly x => some x | _ => none
  des_ser _ := rfl
  des_empty := rfl

def ciphertext : Kind F F.Ciphertext where
  ser := .ciphertext
  des := fun | .ciphertext x => some x | _ => none
  des_ser _ := rfl
  des_empty := rfl

def ciphertexts : Kind F (List F.Ciphertext) where
  ser := .ciphertexts
  des := fun | .ciphertexts x => some x | _ => none
  des_ser _ := rfl
  des_empty := rfl

end Kind

/-- Wait for a message of the type (of any type, if it is empty), with no time-out if
`timeoutMsec` is 0; `none`: the wait has timed out. -/
def getMsgWait (getFromNode : ℕ) (msgType : String := "") (timeoutMsec : ℕ := 0) :
    NodeM F E (Option (MessageFormat F)) :=
  .recv getFromNode (selects msgType) (timeoutMsec != 0) fun r => .ret (ofReply r)

/-- The object in a received payload. -/
def deserialize (k : Kind F T) (what : String) (data : Payload F) : NodeM F E T :=
  match data with
  | .empty => .fail ("Received empty serialized object " ++ what)
  | d =>
    match k.des d with
    | some x => .ret x
    | none => .fail "Deserialize"

/-- Wait for an object. The message type is not passed on to `getMsgWait`. -/
def getSerialMsgWait (k : Kind F T) (msgType : String) (getFromNode : ℕ) : NodeM F E T := do
  match ← getMsgWait getFromNode with
  | some m => deserialize k msgType m.data
  | none => deserialize k msgType .empty

/-- Send a message until it is acknowledged, or, with a time-out, until that has passed. -/
def sendMsg (mynode : NodeImpl F) (sendtoNode : ℕ) (msg : MessageFormat F)
    (timeoutMsec : ℕ := 0) : NodeM F E Unit :=
  if sendtoNode ∈ mynode.connectedAddresses then
    .send sendtoNode msg (timeoutMsec != 0) (.ret ())
  else .fail ("Node " ++ nodeName sendtoNode ++ "is not in the network map for Node " ++
    nodeName mynode.myNodeName)

/-- Send an object. -/
def sendSerialMsg (mynode : NodeImpl F) (k : Kind F T) (cryptoObject : T) (msgType : String)
    (sendtoNode : ℕ) (timeoutMsec : ℕ := 0) : NodeM F E Unit :=
  sendMsg mynode sendtoNode ⟨msgType, k.ser cryptoObject⟩ timeoutMsec

/-- Send a message to all connected nodes. -/
def broadcastMsg (mynode : NodeImpl F) (msg : MessageFormat F) (timeoutMsec : ℕ := 0) :
    NodeM F E Unit :=
  mynode.connectedAddresses.foldlM (fun _ nodeName => sendMsg mynode nodeName msg timeoutMsec) ()

/-- Send an object to all connected nodes. -/
def broadcastSerialMsg (mynode : NodeImpl F) (k : Kind F T) (cryptoObject : T) (msgType : String)
    (timeoutMsec : ℕ := 0) : NodeM F E Unit :=
  broadcastMsg mynode ⟨msgType, k.ser cryptoObject⟩ timeoutMsec

/-- **A full mesh** of the nodes `1, …, N`: `peers i` are the keys of `connectedAddresses` at
node `i`. -/
structure FullMesh (N : ℕ) (peers : ℕ → List ℕ) : Prop where
  nodup : ∀ i, 1 ≤ i ∧ i ≤ N → (peers i).Nodup
  mem : ∀ i, 1 ≤ i ∧ i ≤ N → ∀ j, j ∈ peers i ↔ 1 ≤ j ∧ j ≤ N ∧ j ≠ i

theorem FullMesh.self_notMem {N : ℕ} {peers : ℕ → List ℕ} (h : FullMesh N peers)
    {i : ℕ} (hi : 1 ≤ i ∧ i ≤ N) : i ∉ peers i := by
  simp [h.mem i hi]

theorem fullMesh_others (N : ℕ) : FullMesh N (others N) where
  nodup i _ := nodup_others N i
  mem _ _ _ := mem_others

/-- A node of a path that is connected to its neighbours. -/
structure Neighbours (N i : ℕ) (addresses : List ℕ) : Prop where
  next : i < N → i + 1 ∈ addresses
  prev : 1 < i → i - 1 ∈ addresses

/-! ## The messages of the key generations -/

section

variable (cc : F.CryptoContext) (r : ℕ → F.Rand) (N i : ℕ)

def publicKeyMsg : MessageFormat F :=
  ⟨"PublicKey", Kind.publicKey.ser (keyPair F cc r i).publicKey⟩

def evalMultMsg : MessageFormat F :=
  ⟨"evalmultkey", Kind.evalKey.ser (evalMultPrevandCurrent F cc r i)⟩

def evalMixMultMsg : MessageFormat F :=
  ⟨"evalmixmultkey", Kind.evalKey.ser (evalMultAddskAll F cc r N i)⟩

def evalSum0Msg : MessageFormat F :=
  ⟨"evalSumKeys0", Kind.evalSumKeys.ser (evalSumKeys0 F cc r i)⟩

def evalSum1Msg : MessageFormat F :=
  ⟨"evalSumKeys1", Kind.evalSumKeys.ser (evalSumKeys1 F cc r i)⟩

end

/-! ## What the calls do -/

section

variable {mynode : NodeImpl F} {k : Kind F T} {x : T} {ty ty' : String} {d a : ℕ} {t : ℕ}
  {m : MessageFormat F} {es : List (Event ℕ (MessageFormat F) E)} {q : NodeM F E α}

theorem Kind.deserialize_ser (k : Kind F T) (x : T) (what : String) :
    (deserialize k what (k.ser x) : NodeM F E T) = .ret x := by
  unfold deserialize
  split
  · next h =>
    have := k.des_ser x
    rw [h, k.des_empty] at this
    cases this
  · next d hd => rw [k.des_ser]

theorem follows_sendMsg {f : Unit → NodeM F E α} (hd : d ∈ mynode.connectedAddresses)
    (h : Follows (f ()) es q) :
    Follows (sendMsg mynode d m t >>= f) (.sent d m (t != 0) :: es) q := by
  rw [sendMsg, if_pos hd]
  exact .send h

theorem follows_sendSerialMsg {f : Unit → NodeM F E α} (hd : d ∈ mynode.connectedAddresses)
    (h : Follows (f ()) es q) :
    Follows (sendSerialMsg mynode k x ty d t >>= f) (.sent d ⟨ty, k.ser x⟩ (t != 0) :: es) q :=
  follows_sendMsg hd h

theorem follows_broadcastMsg {f : Unit → NodeM F E α} (h : Follows (f ()) es q) :
    Follows (broadcastMsg mynode m t >>= f)
      ((mynode.connectedAddresses.map fun d => .sent d m (t != 0)) ++ es) q := by
  refine Follows.bind (a := ()) ?_ h
  rw [List.map_eq_flatMap]
  refine Follows.foldlM (g := fun _ _ => ()) (fun d hd _ => ?_) ()
  rw [sendMsg, if_pos hd]
  exact .send (.nil _)

theorem follows_broadcastSerialMsg {f : Unit → NodeM F E α} (h : Follows (f ()) es q) :
    Follows (broadcastSerialMsg mynode k x ty t >>= f)
      ((mynode.connectedAddresses.map fun d => .sent d ⟨ty, k.ser x⟩ (t != 0)) ++ es) q :=
  follows_broadcastMsg h

theorem follows_getMsgWait {f : Option (MessageFormat F) → NodeM F E α}
    (hm : selects ty m = true) (h : Follows (f (some m)) es q) :
    Follows (getMsgWait a ty t >>= f) (.got a (.got m) :: es) q :=
  .recv hm h

theorem follows_getMsgWait_late {f : Option (MessageFormat F) → NodeM F E α} (ht : t ≠ 0)
    (h : Follows (f none) es q) :
    Follows (getMsgWait a ty t >>= f) (.got a .timedOut :: es) q := by
  have ht : (t != 0) = true := by simpa using ht
  rw [getMsgWait, ht]
  exact .late h

/-- A program that waits for an object waits with no time-out. -/
theorem waits_getSerialMsgWait (f : T → NodeM F E α) :
    (getSerialMsgWait k ty a >>= f).Waits :=
  ⟨_, _, _, rfl⟩

theorem follows_getSerialMsgWait {f : T → NodeM F E α} (h : Follows (f x) es q) :
    Follows (getSerialMsgWait k ty a >>= f) (.got a (.got ⟨ty', k.ser x⟩) :: es) q := by
  refine .recv rfl ?_
  simpa [ofReply, k.deserialize_ser] using h

end

end P2P

import Mathlib.Data.List.Basic
import Mathlib.Logic.Function.Basic

/-!
# The message queues of a node

The queues of `node_utils.h` and the receives of `node.h` on them: a node keeps one queue for each
sender, and `getMsg` looks into the queue of a sender, for any message or for one of a type.

* `getMsg`, `getMsgWait`: one look, and looks until a message is there.
* `TypedReceive`: what a look for a type is expected to do; `typedReceive_iff` says when it does.
-/

namespace PeerToPeer

/-- A message. -/
structure MessageFormat where
  acknowledgement : Bool
  NodeName : String
  msgType : String
  Data : String
  deriving DecidableEq

/-- A default-constructed message. -/
def MessageFormat.default : MessageFormat := ⟨false, "", "", ""⟩

/-- The messages of the senders that wait at a node. -/
abbrev MsgQueues : Type := String → List MessageFormat

/-! ## One queue -/

/-- The front of the queue. -/
def pop : List MessageFormat → MessageFormat × List MessageFormat
  | [] => (.default, [])
  | m :: Queue => (m, Queue)

/-- The first message of the type. The messages before it are dropped. -/
def popWithType (msgtype : String) : List MessageFormat → MessageFormat × List MessageFormat
  | [] => (.default, [])
  | m :: Queue => if m.msgType = msgtype then (m, Queue) else popWithType msgtype Queue

theorem length_popWithType_le (msgtype : String) (Queue : List MessageFormat) :
    (popWithType msgtype Queue).2.length ≤ Queue.length - 1 := by
  induction Queue with
  | nil => simp [popWithType]
  | cons m Queue ih =>
    unfold popWithType
    split
    · simp
    · simp only [List.length_cons, Nat.add_sub_cancel]
      omega

/-! ## The receives -/

/-- One look into the queue of a node. -/
def getMsg (msgQueues : MsgQueues) (getFromNode msgtype : String) : MessageFormat × MsgQueues :=
  if (msgQueues getFromNode).isEmpty then (.default, msgQueues)
  else
    let r := if msgtype.length = 0 then pop (msgQueues getFromNode)
      else popWithType msgtype (msgQueues getFromNode)
    ({ r.1 with acknowledgement := true }, Function.update msgQueues getFromNode r.2)

/-- Looks until a message is there, with no time-out. `arrivals` are the messages that are pushed
in each of the sleeps between the looks; `none`: the last look was in vain. The result comes with
the arrivals that are still to come. -/
def getMsgWait (getFromNode msgType : String) :
    MsgQueues → List (List MessageFormat) →
      Option (MessageFormat × MsgQueues × List (List MessageFormat))
  | msgQueues, arrivals =>
    let (reply, msgQueues') := getMsg msgQueues getFromNode msgType
    if reply.acknowledgement then some (reply, msgQueues', arrivals)
    else
      match arrivals with
      | [] => none
      | ms :: arrivals =>
        getMsgWait getFromNode msgType
          (Function.update msgQueues' getFromNode (msgQueues' getFromNode ++ ms)) arrivals

/-! ## A look for a type -/

/-- What a look for a message of type `msgtype` is expected to do: it finds the first one if there
is one, and leaves the others. -/
structure TypedReceive (msgQueues : MsgQueues) (getFromNode msgtype : String) : Prop where
  acknowledged : (getMsg msgQueues getFromNode msgtype).1.acknowledgement = true ↔
    ∃ m ∈ msgQueues getFromNode, m.msgType = msgtype
  first : (getMsg msgQueues getFromNode msgtype).1.acknowledgement = true →
    ∃ m, (msgQueues getFromNode).find? (·.msgType = msgtype) = some m ∧
      (getMsg msgQueues getFromNode msgtype).1 = { m with acknowledgement := true }
  others : (getMsg msgQueues getFromNode msgtype).2 getFromNode =
    (msgQueues getFromNode).eraseP (·.msgType = msgtype)

/-- What a wait for a message of type `msgtype` is expected to do: if it returns, then with the
first message of the type, and the other messages that have arrived are in the queue. -/
def TypedWait (msgQueues : MsgQueues) (arrivals : List (List MessageFormat))
    (getFromNode msgtype : String) : Prop :=
  ∀ reply msgQueues' rest,
    getMsgWait getFromNode msgtype msgQueues arrivals = some (reply, msgQueues', rest) →
      ∃ arrived, arrivals = arrived ++ rest ∧
        ∃ m, (msgQueues getFromNode ++ arrived.flatten).find? (·.msgType = msgtype) = some m ∧
          reply = { m with acknowledgement := true } ∧
          msgQueues' getFromNode =
            (msgQueues getFromNode ++ arrived.flatten).eraseP (·.msgType = msgtype)

/-- The front of the queue has the type, if there is one. -/
def FrontHasType (Queue : List MessageFormat) (msgtype : String) : Prop :=
  ∀ m, Queue.head? = some m → m.msgType = msgtype

variable {msgQueues : MsgQueues} {getFromNode msgtype : String}

theorem getMsg_of_nil (h : msgQueues getFromNode = []) :
    getMsg msgQueues getFromNode msgtype = (.default, msgQueues) := by
  simp [getMsg, h]

theorem getMsg_of_cons {m : MessageFormat} {Queue : List MessageFormat} (ht : msgtype ≠ "")
    (h : msgQueues getFromNode = m :: Queue) :
    getMsg msgQueues getFromNode msgtype =
      ({ (popWithType msgtype (m :: Queue)).1 with acknowledgement := true },
        Function.update msgQueues getFromNode (popWithType msgtype (m :: Queue)).2) := by
  have hlen : msgtype.length ≠ 0 := fun h0 => ht (String.length_eq_zero_iff.mp h0)
  simp [getMsg, h, hlen]

/-- A queue whose front has another type loses a message that is not asked for, or brings a
message that is none. -/
theorem not_typedReceive {m : MessageFormat} {Queue : List MessageFormat} (ht : msgtype ≠ "")
    (h : msgQueues getFromNode = m :: Queue) (hm : m.msgType ≠ msgtype) :
    ¬ (∃ m', (m :: Queue).find? (·.msgType = msgtype) = some m' ∧
      (getMsg msgQueues getFromNode msgtype).2 getFromNode =
        (m :: Queue).eraseP (·.msgType = msgtype)) := by
  rintro ⟨m', hfind, hrest⟩
  simp only [getMsg_of_cons ht h, Function.update_self, popWithType, if_neg hm] at hrest
  have hmem : m' ∈ Queue := by
    rw [List.find?_cons_of_neg (by simpa using hm)] at hfind
    exact List.mem_of_find?_eq_some hfind
  have hlen := congrArg List.length hrest
  rw [List.length_eraseP_of_mem (a := m') (List.mem_cons_of_mem m hmem)
    (by simpa using List.find?_some hfind)] at hlen
  have hle := length_popWithType_le msgtype Queue
  have hpos := List.length_pos_of_mem hmem
  simp only [List.length_cons] at hlen
  omega

/-- **When a look for a type does what is expected**: if the queue is empty, or its front has the
type. -/
theorem typedReceive_iff (ht : msgtype ≠ "") :
    TypedReceive msgQueues getFromNode msgtype ↔
      FrontHasType (msgQueues getFromNode) msgtype := by
  constructor
  · intro h m hm
    obtain ⟨Queue, hq⟩ := List.head?_eq_some_iff.mp hm
    by_contra hne
    have hack : (getMsg msgQueues getFromNode msgtype).1.acknowledgement = true := by
      rw [getMsg_of_cons ht hq]
    obtain ⟨m', hfind, -⟩ := h.first hack
    rw [hq] at hfind
    exact not_typedReceive ht hq hne ⟨m', hfind, hq ▸ h.others⟩
  · intro h
    cases hq : msgQueues getFromNode with
    | nil =>
      have hget : getMsg msgQueues getFromNode msgtype = (.default, msgQueues) := getMsg_of_nil hq
      constructor
      · simp [hget, hq, MessageFormat.default]
      · simp [hget, MessageFormat.default]
      · simp [hget, hq]
    | cons m Queue =>
      have hm : m.msgType = msgtype := h m (by simp [hq])
      have hget := getMsg_of_cons ht hq
      rw [popWithType, if_pos hm] at hget
      constructor
      · simp [hget, hq, hm]
      · simp [hget, hq, hm]
      · simp [hget, hq, hm]

/-! ## A wait for a type -/

theorem getMsgWait_of_nil {ms : List MessageFormat} {arrivals : List (List MessageFormat)}
    (h : msgQueues getFromNode = []) :
    getMsgWait getFromNode msgtype msgQueues (ms :: arrivals) =
      getMsgWait getFromNode msgtype (Function.update msgQueues getFromNode ms) arrivals := by
  rw [getMsgWait.eq_def]
  simp [getMsg_of_nil h, MessageFormat.default, h]

theorem getMsgWait_of_cons {m : MessageFormat} {Queue : List MessageFormat} (ht : msgtype ≠ "")
    (arrivals : List (List MessageFormat)) (h : msgQueues getFromNode = m :: Queue) :
    getMsgWait getFromNode msgtype msgQueues arrivals =
      some ((getMsg msgQueues getFromNode msgtype).1, (getMsg msgQueues getFromNode msgtype).2,
        arrivals) := by
  rw [getMsgWait.eq_def]
  simp [getMsg_of_cons ht h]

/-- A wait takes the arrivals in their order. -/
theorem length_rest_le {reply : MessageFormat} {msgQueues' : MsgQueues}
    {arrivals rest : List (List MessageFormat)}
    (h : getMsgWait getFromNode msgtype msgQueues arrivals = some (reply, msgQueues', rest)) :
    rest.length ≤ arrivals.length := by
  induction arrivals generalizing msgQueues with
  | nil =>
    rw [getMsgWait.eq_def] at h
    dsimp only at h
    split at h
    · cases h
      exact Nat.le_refl _
    · cases h
  | cons ms arrivals ih =>
    rw [getMsgWait.eq_def] at h
    dsimp only at h
    split at h
    · cases h
      exact Nat.le_refl _
    · exact Nat.le_succ_of_le (ih h)

theorem typedWait_cons {m : MessageFormat} {Queue : List MessageFormat} (ht : msgtype ≠ "")
    (arrivals : List (List MessageFormat)) (h : msgQueues getFromNode = m :: Queue) :
    TypedWait msgQueues arrivals getFromNode msgtype ↔ m.msgType = msgtype := by
  unfold TypedWait
  rw [getMsgWait_of_cons ht arrivals h]
  constructor
  · intro hw
    obtain ⟨arrived, harr, m', hfind, -, hrest⟩ := hw _ _ _ rfl
    obtain rfl : arrived = [] := by simpa using harr
    rw [List.flatten_nil, List.append_nil, h] at hfind hrest
    by_contra hm
    exact not_typedReceive ht h hm ⟨m', hfind, hrest⟩
  · rintro hm reply msgQueues' rest heq
    simp only [Option.some.injEq, Prod.mk.injEq] at heq
    obtain ⟨rfl, rfl, rfl⟩ := heq
    have hr : TypedReceive msgQueues getFromNode msgtype :=
      (typedReceive_iff ht).mpr fun m' hm' => by
        simp only [h, List.head?_cons, Option.some.injEq] at hm'
        exact hm' ▸ hm
    obtain ⟨m', hfind, heq⟩ := hr.first (by rw [getMsg_of_cons ht h])
    exact ⟨[], rfl, m', by simpa using hfind, heq, by simpa using hr.others⟩

/-- **When a wait for a type does what is expected**: if the first message that arrives has the
type. -/
theorem typedWait_iff (ht : msgtype ≠ "") (arrivals : List (List MessageFormat)) :
    TypedWait msgQueues arrivals getFromNode msgtype ↔
      FrontHasType (msgQueues getFromNode ++ arrivals.flatten) msgtype := by
  induction arrivals generalizing msgQueues with
  | nil =>
    cases hq : msgQueues getFromNode with
    | nil =>
      have hnone : getMsgWait getFromNode msgtype msgQueues [] = none := by
        rw [getMsgWait.eq_def]
        simp [getMsg_of_nil hq, MessageFormat.default]
      simp [TypedWait, hnone, FrontHasType]
    | cons m Queue => simpa [FrontHasType] using typedWait_cons ht [] hq
  | cons ms arrivals ih =>
    cases hq : msgQueues getFromNode with
    | nil =>
      have hshift : TypedWait msgQueues (ms :: arrivals) getFromNode msgtype ↔
          TypedWait (Function.update msgQueues getFromNode ms) arrivals getFromNode msgtype := by
        unfold TypedWait
        rw [getMsgWait_of_nil hq]
        refine forall_congr' fun reply => forall_congr' fun msgQueues' => forall_congr' fun rest =>
          imp_congr_right fun hw => ?_
        have hle := length_rest_le hw
        constructor
        · rintro ⟨arrived, harr, h⟩
          cases arrived with
          | nil =>
            have hlen := congrArg List.length harr
            simp only [List.length_cons, List.nil_append] at hlen
            omega
          | cons ms' arrived =>
            simp only [List.cons_append, List.cons.injEq] at harr
            obtain ⟨rfl, harr⟩ := harr
            exact ⟨arrived, harr, by simpa [hq] using h⟩
        · rintro ⟨arrived, harr, h⟩
          exact ⟨ms :: arrived, by rw [harr, List.cons_append], by simpa [hq] using h⟩
      rw [hshift, ih]
      simp
    | cons m Queue => simpa [FrontHasType] using typedWait_cons ht (ms :: arrivals) hq

/-! ## Both -/

/-- **A look and a wait for a type** do what is expected exactly if the message in front, or the
first that arrives, has the type. -/
theorem typed_receive_iff (ht : msgtype ≠ "") :
    (TypedReceive msgQueues getFromNode msgtype ↔
      FrontHasType (msgQueues getFromNode) msgtype) ∧
    ∀ arrivals, TypedWait msgQueues arrivals getFromNode msgtype ↔
      FrontHasType (msgQueues getFromNode ++ arrivals.flatten) msgtype :=
  ⟨typedReceive_iff ht, typedWait_iff ht⟩

theorem typed_receive_share :
    TypedReceive (fun _ => [⟨false, "Node2", "share", "7"⟩, ⟨false, "Node2", "key", "8"⟩])
      "Node2" "share" :=
  (typed_receive_iff (by decide)).1.mpr fun m hm => by
    simp only [List.head?_cons, Option.some.injEq] at hm
    rw [← hm]

/-- A message of another type in front is lost, and without a message of the type an empty one is
acknowledged. -/
theorem not_typed_receive_share :
    (¬ TypedReceive (fun _ => [⟨false, "Node2", "key", "8"⟩, ⟨false, "Node2", "share", "7"⟩])
      "Node2" "share") ∧
    ¬ TypedReceive (fun _ => [⟨false, "Node2", "key", "8"⟩]) "Node2" "share" := by
  constructor
  · intro h
    have hfront := (typedReceive_iff (by decide)).mp h _ rfl
    exact absurd hfront (by decide)
  · intro h
    have hfront := (typedReceive_iff (by decide)).mp h _ rfl
    exact absurd hfront (by decide)

end PeerToPeer

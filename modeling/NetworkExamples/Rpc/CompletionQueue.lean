import Mathlib.Data.List.Nodup
import Mathlib.Data.Set.Insert
import Mathlib.Logic.Function.Basic
import Mathlib.Logic.Relation

/-!
# Asynchronous servers

A server takes its work from a completion queue. For each method (of `κ`) it keeps a **servicer** on
the heap that asks the runtime for one call of the method. When a call comes, the runtime fills in the
request and puts the address of the servicer in the queue. The loop of the server takes an address
out, in any order, and lets the servicer there proceed: it makes the servicer for the next call,
handles its own, and asks the runtime to send the reply; when its address comes again, it deletes
itself. An exception of a handler, or an event that says that an operation has failed, ends the loop.

The clients wait for the replies to their calls, and may go away at any time.

* `Server.handleRpcs`: the start of the loop; `Server.turn`: one turn.
* `System`: the server, the runtime and the clients.
* `Tidy`, `Tidy.turn_cases`: no servicer is used after it was deleted; what a turn does.
* `Listening`: each method always has exactly one servicer that listens.
-/

namespace Async

variable {κ ι σ C Req : Type} {Rep : Req → Type}

inductive CallStatus where
  | CREATE
  | PROCESS
  | FINISH
  deriving DecidableEq

/-- The methods of a server, and what it does on a request: an exception, or the reply and the state
after it. -/
structure Service (κ σ : Type) {Req : Type} (Rep : Req → Type) where
  kind : Req → κ
  handle (r : Req) : σ → Except String (Rep r × σ)

/-- A call of a client, as its servicer holds it. -/
structure Call (ι : Type) {Req : Type} (Rep : Req → Type) where
  client : ι
  request_ : Req
  reply_ : Option (Rep request_)

structure Servicer (κ ι : Type) {Req : Type} (Rep : Req → Type) where
  kind : κ
  status_ : CallStatus
  call : Option (Call ι Rep)

/-- An operation of the runtime on a servicer. -/
inductive Op where
  /-- It waits for a call. -/
  | request
  /-- It sends the reply. -/
  | finish
  /-- It has ended, well or not: the event is in the queue. -/
  | done (ok : Bool)
  deriving DecidableEq

/-- The server, and the operations that it has asked the runtime for. -/
structure Server (κ ι σ : Type) {Req : Type} (Rep : Req → Type) where
  /-- What the servicers share. -/
  state : σ
  heap : ℕ → Option (Servicer κ ι Rep)
  ops : List (ℕ × Op)
  /-- `Shutdown` was called. -/
  down : Bool

/-- How the loop ends. -/
inductive Exit where
  /-- The address of no servicer, or a servicer without a request. -/
  | fault
  /-- An event that is not ok. -/
  | notOk
  | thrown (e : String)

namespace Server

variable (S : Service κ σ Rep) (s : Server κ ι σ Rep)

/-- Write at an address of the heap. -/
def put (a : ℕ) (o : Option (Servicer κ ι Rep)) : Server κ ι σ Rep :=
  { s with heap := Function.update s.heap a o }

/-- Start an operation on the servicer at `tag`. -/
def start (tag : ℕ) (op : Op) : Server κ ι σ Rep := { s with ops := (tag, op) :: s.ops }

/-- Ask for a call; after a shutdown this fails at once. -/
def request (tag : ℕ) : Server κ ι σ Rep :=
  s.start tag (if s.down then .done false else .request)

/-- The branch `CREATE` of `Proceed`. -/
def proceedCreate (this : ℕ) (o : Servicer κ ι Rep) : Server κ ι σ Rep :=
  (s.put this (some { o with status_ := .PROCESS })).request this

/-- `new` puts a servicer at the address `a`; its constructor calls `Proceed`. -/
def new (k : κ) (a : ℕ) : Server κ ι σ Rep :=
  (s.put a (some ⟨k, .CREATE, none⟩)).proceedCreate a ⟨k, .CREATE, none⟩

/-- `Proceed` of the servicer at `this`; a servicer that it makes is put at `fresh`. -/
def proceed (this fresh : ℕ) : Except Exit (Server κ ι σ Rep) :=
  match s.heap this with
  | none => .error .fault
  | some o =>
    match o.status_ with
    | .CREATE => .ok (s.proceedCreate this o)
    | .PROCESS =>
      let s := s.new o.kind fresh
      match o.call with
      | none => .error .fault
      | some call =>
        match S.handle call.request_ s.state with
        | .error e => .error (.thrown e)
        | .ok (reply, state) =>
          let call : Call ι Rep := { call with reply_ := some reply }
          .ok (({ s with state := state }.put this
            (some { o with status_ := .FINISH, call := some call })).start this .finish)
    | .FINISH => .ok (s.put this none)

/-- One turn of the loop, with the event `(tag, ok)` of the queue. -/
def turn (tag : ℕ) (ok : Bool) (fresh : ℕ) : Except Exit (Server κ ι σ Rep) :=
  let s := { s with ops := s.ops.erase (tag, .done ok) }
  if ok then s.proceed S tag fresh else .error .notOk

/-- The start of the loop: one servicer for each method, at the addresses from `a` on. -/
def spawn (a : ℕ) : List κ → Server κ ι σ Rep → Server κ ι σ Rep
  | [], s => s
  | k :: kinds, s => spawn (a + 1) kinds (s.new k a)

def handleRpcs (kinds : List κ) (state : σ) : Server κ ι σ Rep :=
  spawn 0 kinds ⟨state, fun _ => none, [], false⟩

/-- The server is to stop: no call is waited for any more. -/
def shutdown : Server κ ι σ Rep :=
  { s with
    ops := s.ops.map fun x => if x.2 = .request then (x.1, .done false) else x
    down := true }

@[simp] theorem put_heap (a : ℕ) (o : Option (Servicer κ ι Rep)) :
    (s.put a o).heap = Function.update s.heap a o := rfl
@[simp] theorem put_ops (a : ℕ) (o : Option (Servicer κ ι Rep)) : (s.put a o).ops = s.ops := rfl
@[simp] theorem put_state (a : ℕ) (o : Option (Servicer κ ι Rep)) :
    (s.put a o).state = s.state := rfl
@[simp] theorem put_down (a : ℕ) (o : Option (Servicer κ ι Rep)) : (s.put a o).down = s.down := rfl
@[simp] theorem start_heap (a : ℕ) (op : Op) : (s.start a op).heap = s.heap := rfl
@[simp] theorem start_ops (a : ℕ) (op : Op) : (s.start a op).ops = (a, op) :: s.ops := rfl
@[simp] theorem start_state (a : ℕ) (op : Op) : (s.start a op).state = s.state := rfl
@[simp] theorem start_down (a : ℕ) (op : Op) : (s.start a op).down = s.down := rfl

/-- What a new servicer asks for. -/
def requestOp : Op := if s.down then .done false else .request

@[simp] theorem new_heap (k : κ) (a : ℕ) :
    (s.new k a).heap = Function.update s.heap a (some ⟨k, .PROCESS, none⟩) := by
  simp [new, proceedCreate, request]

@[simp] theorem new_ops (k : κ) (a : ℕ) : (s.new k a).ops = (a, s.requestOp) :: s.ops := rfl

@[simp] theorem new_state (k : κ) (a : ℕ) : (s.new k a).state = s.state := rfl
@[simp] theorem new_down (k : κ) (a : ℕ) : (s.new k a).down = s.down := rfl

end Server

/-! ## The clients and the runtime -/

/-- What a client does next. -/
inductive Next (C : Type) {Req : Type} (Rep : Req → Type) where
  | stop
  | go (c : C)
  /-- It calls the server, and goes on with the reply. -/
  | call (r : Req) (k : Rep r → C)

/-- What has become of the call of a client. -/
inductive Phase where
  | idle
  | sent
  /-- It has been given to the servicer at `tag`. -/
  | taken (tag : ℕ)
  /-- The reply has got lost, as the client has gone. -/
  | lost
  deriving DecidableEq

structure System (κ ι σ C : Type) {Req : Type} (Rep : Req → Type) where
  server : Server κ ι σ Rep
  client : ι → C
  phase : ι → Phase
  gone : ι → Bool

namespace System

variable (S : Service κ σ Rep) (next : C → Next C Rep) (env : σ → σ → Prop)

def init (kinds : List κ) (state : σ) (client : ι → C) : System κ ι σ C Rep :=
  ⟨.handleRpcs kinds state, client, fun _ => .idle, fun _ => false⟩

variable [DecidableEq ι]

/-- The steps of the clients, of the runtime and of the loop; `env` is what other threads of the
server do to its state. -/
inductive Step : System κ ι σ C Rep → System κ ι σ C Rep → Prop
  | go {x : System κ ι σ C Rep} {i : ι} {c : C} (hgone : x.gone i = false)
      (hphase : x.phase i = .idle) (hnext : next (x.client i) = .go c) :
      Step x { x with client := Function.update x.client i c }
  | send {x : System κ ι σ C Rep} {i : ι} {r : Req} {k : Rep r → C} (hgone : x.gone i = false)
      (hphase : x.phase i = .idle) (hnext : next (x.client i) = .call r k) :
      Step x { x with phase := Function.update x.phase i .sent }
  /-- The runtime gives a call to a servicer of its method. -/
  | take {x : System κ ι σ C Rep} {i : ι} {r : Req} {k : Rep r → C} {a : ℕ}
      {o : Servicer κ ι Rep} (hgone : x.gone i = false) (hphase : x.phase i = .sent)
      (hnext : next (x.client i) = .call r k) (hop : (a, .request) ∈ x.server.ops)
      (ho : x.server.heap a = some o) (hkind : o.kind = S.kind r) :
      Step x { x with
        server := ({ x.server with ops := x.server.ops.erase (a, .request) }.put a
          (some { o with call := some ⟨i, r, none⟩ })).start a (.done true)
        phase := Function.update x.phase i (.taken a) }
  | turn {x : System κ ι σ C Rep} {tag : ℕ} {ok : Bool} {fresh : ℕ} {s : Server κ ι σ Rep}
      (hop : (tag, .done ok) ∈ x.server.ops) (hfresh : x.server.heap fresh = none)
      (hturn : x.server.turn S tag ok fresh = .ok s) : Step x { x with server := s }
  /-- The reply arrives. -/
  | finish {x : System κ ι σ C Rep} {a : ℕ} {o : Servicer κ ι Rep} {i : ι} {r : Req} {rep : Rep r}
      {k : Rep r → C} (hgone : x.gone i = false) (hop : (a, .finish) ∈ x.server.ops)
      (ho : x.server.heap a = some o) (hcall : o.call = some ⟨i, r, some rep⟩)
      (hnext : next (x.client i) = .call r k) :
      Step x { x with
        server := { x.server with ops := x.server.ops.erase (a, .finish) }.start a (.done true)
        client := Function.update x.client i (k rep)
        phase := Function.update x.phase i .idle }
  /-- It does not arrive, as the client has gone. -/
  | lose {x : System κ ι σ C Rep} {a : ℕ} {o : Servicer κ ι Rep} {call : Call ι Rep} {ok : Bool}
      (hgone : x.gone call.client = true) (hop : (a, .finish) ∈ x.server.ops)
      (ho : x.server.heap a = some o) (hcall : o.call = some call) :
      Step x { x with
        server := { x.server with ops := x.server.ops.erase (a, .finish) }.start a (.done ok)
        phase := Function.update x.phase call.client .lost }
  | leave {x : System κ ι σ C Rep} (i : ι) : Step x { x with gone := Function.update x.gone i true }
  | shutdown {x : System κ ι σ C Rep} : Step x { x with server := x.server.shutdown }
  | env {x : System κ ι σ C Rep} {state : σ} (henv : env x.server.state state) :
      Step x { x with server := { x.server with state := state } }

/-- The states of the runs. -/
abbrev Runs : System κ ι σ C Rep → System κ ι σ C Rep → Prop :=
  Relation.ReflTransGen (Step S next env)

end System

/-! ## The heap -/

/-- What a servicer is like while the runtime has the operation for it. -/
inductive Fits (S : Service κ σ Rep) (down : Bool) : Servicer κ ι Rep → Op → Prop
  | listens (k : κ) : Fits S down ⟨k, .PROCESS, none⟩ .request
  | refused (k : κ) (h : down = true) : Fits S down ⟨k, .PROCESS, none⟩ (.done false)
  | called (i : ι) (r : Req) : Fits S down ⟨S.kind r, .PROCESS, some ⟨i, r, none⟩⟩ (.done true)
  | replies (i : ι) (r : Req) (rep : Rep r) :
      Fits S down ⟨S.kind r, .FINISH, some ⟨i, r, some rep⟩⟩ .finish
  | ended (i : ι) (r : Req) (rep : Rep r) (ok : Bool) :
      Fits S down ⟨S.kind r, .FINISH, some ⟨i, r, some rep⟩⟩ (.done ok)

/-- **The invariant of the heap.** -/
structure Server.Tidy (S : Service κ σ Rep) (s : Server κ ι σ Rep) : Prop where
  nodup : (s.ops.map Prod.fst).Nodup
  /-- No servicer is forgotten. -/
  live : ∀ a, s.heap a ≠ none → a ∈ s.ops.map Prod.fst
  /-- No operation is for a servicer that was deleted. -/
  fits : ∀ a op, (a, op) ∈ s.ops → ∃ o, s.heap a = some o ∧ Fits S s.down o op

/-- The servicer at `a` is there for the next call of the method `k`, or has just got it. -/
def Server.Listens (s : Server κ ι σ Rep) (k : κ) (a : ℕ) : Prop :=
  ∃ call, s.heap a = some ⟨k, .PROCESS, call⟩

/-- Each method of `K` has exactly one servicer that listens. -/
def Server.Listening (K : Set κ) (s : Server κ ι σ Rep) : Prop :=
  ∃ listener : κ → ℕ, ∀ k a, s.Listens k a ↔ k ∈ K ∧ a = listener k

section

variable {S : Service κ σ Rep} {s s' : Server κ ι σ Rep} {K : Set κ} {a b fresh tag : ℕ} {op : Op}
  {o : Servicer κ ι Rep}

theorem mem_erase_ops {l : List (ℕ × Op)} (hl : (l.map Prod.fst).Nodup) (ha : (a, op) ∈ l)
    {c : ℕ} {p : Op} : (c, p) ∈ l.erase (a, op) ↔ c ≠ a ∧ (c, p) ∈ l := by
  rw [(List.Nodup.of_map _ hl).mem_erase_iff]
  constructor
  · rintro ⟨hne, hc⟩
    refine ⟨?_, hc⟩
    rintro rfl
    exact hne (List.inj_on_of_nodup_map hl hc ha rfl)
  · rintro ⟨hne, hc⟩
    refine ⟨?_, hc⟩
    intro h
    exact hne (congrArg Prod.fst h)

theorem perm_erase_ops {l : List (ℕ × Op)} (ha : (a, op) ∈ l) :
    (l.map Prod.fst).Perm (a :: (l.erase (a, op)).map Prod.fst) :=
  (List.perm_cons_erase ha).map Prod.fst

namespace Server

theorem Tidy.heap_of_mem (h : s.Tidy S) (ha : (a, op) ∈ s.ops) : s.heap a ≠ none := by
  obtain ⟨o, ho, -⟩ := h.fits a op ha
  rw [ho]
  exact Option.some_ne_none o

/-- Where nothing is, no operation is going on. -/
theorem Tidy.not_mem (h : s.Tidy S) (hb : s.heap b = none) : b ∉ s.ops.map Prod.fst := by
  intro hmem
  obtain ⟨⟨b, op⟩, hop, rfl⟩ := List.mem_map.mp hmem
  exact h.heap_of_mem hop hb

theorem Tidy.op_unique (h : s.Tidy S) {op' : Op} (ha : (a, op) ∈ s.ops)
    (ha' : (a, op') ∈ s.ops) : op = op' :=
  congrArg Prod.snd (List.inj_on_of_nodup_map h.nodup ha ha' rfl)

theorem Tidy.fits_of_heap (h : s.Tidy S) (ha : (a, op) ∈ s.ops) (ho : s.heap a = some o) :
    Fits S s.down o op := by
  obtain ⟨o', ho', hfit⟩ := h.fits a op ha
  rw [ho] at ho'
  cases ho'
  exact hfit

/-- Every servicer has an operation. -/
theorem Tidy.exists_op (h : s.Tidy S) (ho : s.heap a = some o) :
    ∃ op, (a, op) ∈ s.ops ∧ Fits S s.down o op := by
  have hmem := h.live a (by rw [ho]; exact Option.some_ne_none o)
  obtain ⟨⟨a, op⟩, hop, rfl⟩ := List.mem_map.mp hmem
  exact ⟨op, hop, h.fits_of_heap hop ho⟩

/-! ### What the server does on the heap -/

theorem Tidy.new (h : s.Tidy S) (hb : s.heap b = none) (k : κ) : (s.new k b).Tidy S where
  nodup := List.nodup_cons.mpr ⟨h.not_mem hb, h.nodup⟩
  live a ha := by
    by_cases hab : a = b
    · simp [hab]
    · exact List.mem_cons_of_mem _ (h.live a (by simpa [hab] using ha))
  fits a op ha := by
    rcases List.mem_cons.mp ha with ha | ha
    · cases ha
      refine ⟨⟨k, .PROCESS, none⟩, by simp, ?_⟩
      show Fits S s.down _ s.requestOp
      unfold requestOp
      cases hd : s.down with
      | false => exact .listens k
      | true => exact .refused k rfl
    · obtain ⟨o, ho, hfit⟩ := h.fits a op ha
      have hab : a ≠ b := by
        rintro rfl
        exact h.heap_of_mem ha hb
      exact ⟨o, by simpa [hab] using ho, hfit⟩

/-- An operation makes way for another one, and the servicer for `o`. -/
theorem Tidy.replace (h : s.Tidy S) (ha : (a, op) ∈ s.ops) {op' : Op}
    (hfit : Fits S s.down o op') :
    Tidy S (({ s with ops := s.ops.erase (a, op) }.put a (some o)).start a op') where
  nodup := (perm_erase_ops ha).nodup_iff.mp h.nodup
  live c hc := by
    by_cases hca : c = a
    · simp [hca]
    · have hmem := h.live c (by simpa [hca] using hc)
      exact (perm_erase_ops ha).mem_iff.mp hmem
  fits c p hc := by
    rcases List.mem_cons.mp hc with hc | hc
    · cases hc
      exact ⟨o, by simp, hfit⟩
    · obtain ⟨hca, hc⟩ := (mem_erase_ops h.nodup ha).mp hc
      obtain ⟨oc, hoc, hf⟩ := h.fits c p hc
      exact ⟨oc, by simpa [hca] using hoc, hf⟩

theorem Tidy.delete (h : s.Tidy S) (ha : (a, op) ∈ s.ops) :
    Tidy S ({ s with ops := s.ops.erase (a, op) }.put a none) where
  nodup := (List.nodup_cons.mp ((perm_erase_ops ha).nodup_iff.mp h.nodup)).2
  live c hc := by
    have hca : c ≠ a := by
      rintro rfl
      simp at hc
    have hmem := h.live c (by simpa [hca] using hc)
    exact (List.mem_cons.mp ((perm_erase_ops ha).mem_iff.mp hmem)).resolve_left hca
  fits c p hc := by
    obtain ⟨hca, hc⟩ := (mem_erase_ops h.nodup ha).mp hc
    obtain ⟨oc, hoc, hf⟩ := h.fits c p hc
    exact ⟨oc, by simpa [hca] using hoc, hf⟩

theorem Tidy.shutdown (h : s.Tidy S) : s.shutdown.Tidy S := by
  have hfst : s.shutdown.ops.map Prod.fst = s.ops.map Prod.fst := by
    unfold Server.shutdown
    rw [List.map_map]
    refine List.map_congr_left fun x _ => ?_
    dsimp only [Function.comp_apply]
    split <;> rfl
  refine ⟨hfst ▸ h.nodup, fun a ha => hfst ▸ h.live a ha, fun a op ha => ?_⟩
  obtain ⟨⟨a', op'⟩, hop, he⟩ := List.mem_map.mp ha
  obtain ⟨o, ho, hfit⟩ := h.fits a' op' hop
  cases hfit with
  | listens k =>
    cases he
    exact ⟨_, ho, .refused k rfl⟩
  | refused k hd =>
    cases he
    exact ⟨_, ho, .refused k rfl⟩
  | called i r =>
    cases he
    exact ⟨_, ho, .called i r⟩
  | replies i r rep =>
    cases he
    exact ⟨_, ho, .replies i r rep⟩
  | ended i r rep ok =>
    cases he
    exact ⟨_, ho, .ended i r rep ok⟩

theorem Tidy.congr (h : s.Tidy S) (hheap : s'.heap = s.heap) (hops : s'.ops = s.ops)
    (hdown : s'.down = s.down) : s'.Tidy S where
  nodup := hops ▸ h.nodup
  live a ha := hops ▸ h.live a (hheap ▸ ha)
  fits a op ha := by
    rw [hheap, hdown]
    exact h.fits a op (hops ▸ ha)

/-! ### A turn of the loop -/

/-- The servicer at `tag` has made the next one at `fresh`, and has handled its call. -/
def serve (S : Service κ σ Rep) (s : Server κ ι σ Rep) (tag fresh : ℕ) (i : ι) (r : Req)
    (rep : Rep r) (state : σ) : Server κ ι σ Rep :=
  let s := { s.new (S.kind r) fresh with
    ops := (s.new (S.kind r) fresh).ops.erase (tag, .done true), state := state }
  (s.put tag (some ⟨S.kind r, .FINISH, some ⟨i, r, some rep⟩⟩)).start tag .finish

/-- **What a turn does**: an event that is not ok ends the loop; a servicer with a call handles it,
and an exception ends the loop; a servicer whose reply was sent is deleted. -/
theorem Tidy.turn_cases (h : s.Tidy S) {ok : Bool} (hop : (tag, .done ok) ∈ s.ops)
    (fresh : ℕ) :
    (ok = false ∧ s.turn S tag ok fresh = .error .notOk) ∨
    (∃ i r, ok = true ∧ s.heap tag = some ⟨S.kind r, .PROCESS, some ⟨i, r, none⟩⟩ ∧
      ((∃ e, S.handle r s.state = .error e ∧ s.turn S tag ok fresh = .error (.thrown e)) ∨
        ∃ rep state, S.handle r s.state = .ok (rep, state) ∧
          s.turn S tag ok fresh = .ok (s.serve S tag fresh i r rep state))) ∨
    ∃ i r rep, ok = true ∧ s.heap tag = some ⟨S.kind r, .FINISH, some ⟨i, r, some rep⟩⟩ ∧
      s.turn S tag ok fresh =
        .ok ({ s with ops := s.ops.erase (tag, .done true) }.put tag none) := by
  obtain ⟨o, ho, hfit⟩ := h.fits tag _ hop
  cases hfit with
  | refused k hd => exact .inl ⟨rfl, rfl⟩
  | called i r =>
    refine .inr (.inl ⟨i, r, rfl, ho, ?_⟩)
    unfold turn proceed
    rw [if_pos rfl]
    simp only [ho]
    cases hhandle : S.handle r s.state with
    | error e =>
      refine .inl ⟨e, rfl, ?_⟩
      simp [hhandle]
    | ok x =>
      obtain ⟨rep, state⟩ := x
      refine .inr ⟨rep, state, rfl, ?_⟩
      have herase : ((fresh, s.requestOp) :: s.ops).erase (tag, Op.done true) =
          (fresh, s.requestOp) :: s.ops.erase (tag, .done true) := by
        refine List.erase_cons_tail ?_
        unfold requestOp
        split <;> simp
      simp only [new_state, hhandle, serve, new_ops, herase]
      rfl
  | ended i r rep ok =>
    cases ok with
    | false => exact .inl ⟨rfl, rfl⟩
    | true =>
      refine .inr (.inr ⟨i, r, rep, rfl, ho, ?_⟩)
      unfold turn proceed
      rw [if_pos rfl]
      simp only [ho]

/-- The turn of a servicer with a call. -/
theorem Tidy.turn_call (h : s.Tidy S) {i : ι} {r : Req} {rep : Rep r} {state : σ}
    (hop : (tag, .done true) ∈ s.ops)
    (ho : s.heap tag = some ⟨S.kind r, .PROCESS, some ⟨i, r, none⟩⟩)
    (hhandle : S.handle r s.state = .ok (rep, state)) (fresh : ℕ) :
    s.turn S tag true fresh = .ok (s.serve S tag fresh i r rep state) := by
  obtain ⟨h0, -⟩ | ⟨i', r', -, ho', hx⟩ | ⟨i', r', rep', -, ho', -⟩ := h.turn_cases hop fresh
  · cases h0
  · cases congrArg (Option.map Servicer.call) (ho.symm.trans ho')
    rcases hx with ⟨e, he, -⟩ | ⟨rep', state', he, hturn⟩
    · rw [hhandle] at he
      cases he
    · rw [hhandle] at he
      cases he
      exact hturn
  · cases congrArg (Option.map Servicer.status_) (ho.symm.trans ho')

theorem Tidy.serve (h : s.Tidy S) {i : ι} {r : Req} (hop : (tag, .done true) ∈ s.ops)
    (hb : s.heap fresh = none) (rep : Rep r) (state : σ) :
    (s.serve S tag fresh i r rep state).Tidy S :=
  ((h.new hb (S.kind r)).replace (List.mem_cons_of_mem _ hop) (.replies i r rep)).congr rfl rfl rfl

theorem Tidy.turn (h : s.Tidy S) {ok : Bool} (hop : (tag, .done ok) ∈ s.ops)
    (hb : s.heap fresh = none) (hturn : s.turn S tag ok fresh = .ok s') : s'.Tidy S := by
  obtain ⟨-, he⟩ | ⟨i, r, rfl, -, ⟨e, -, he⟩ | ⟨rep, state, -, he⟩⟩ | ⟨i, r, rep, rfl, -, he⟩ :=
    h.turn_cases hop fresh
  · rw [he] at hturn
    cases hturn
  · rw [he] at hturn
    cases hturn
  · rw [he] at hturn
    cases hturn
    exact h.serve hop hb rep state
  · rw [he] at hturn
    cases hturn
    exact h.delete hop

/-! ### The servicers that listen -/

theorem Listening.congr (h : s.Listening K) (hl : ∀ k a, s'.Listens k a ↔ s.Listens k a) :
    s'.Listening K := by
  obtain ⟨listener, hlistener⟩ := h
  exact ⟨listener, fun k a => (hl k a).trans (hlistener k a)⟩

theorem listens_new (hb : s.heap b = none) (k₀ k : κ) :
    (s.new k₀ b).Listens k a ↔ k = k₀ ∧ a = b ∨ s.Listens k a := by
  unfold Listens
  by_cases hab : a = b
  · subst hab
    simp [hb, eq_comm]
  · simp [hab]

theorem Listening.new [DecidableEq κ] (h : s.Listening K) (hb : s.heap b = none) {k₀ : κ}
    (hk : k₀ ∉ K) : (s.new k₀ b).Listening (insert k₀ K) := by
  obtain ⟨listener, hlistener⟩ := h
  refine ⟨Function.update listener k₀ b, fun k a => ?_⟩
  rw [listens_new hb, hlistener]
  by_cases hkk : k = k₀
  · subst hkk
    simp [hk]
  · simp [hkk]

/-- A servicer is deleted that does not listen. -/
theorem listens_put_none {k : κ} (ha : ∀ k, ¬ s.Listens k a) :
    (s.put a none).Listens k b ↔ s.Listens k b := by
  by_cases hb : b = a
  · subst hb
    refine iff_of_false ?_ (ha k)
    rintro ⟨call, hc⟩
    simp at hc
  · simp [Listens, hb]

/-- A servicer that listens gets its call. -/
theorem listens_put {k₀ k : κ} {call call' : Option (Call ι Rep)}
    (ho : s.heap a = some ⟨k₀, .PROCESS, call⟩) :
    (s.put a (some ⟨k₀, .PROCESS, call'⟩)).Listens k b ↔ s.Listens k b := by
  unfold Listens
  by_cases hb : b = a
  · subst hb
    simp [ho]
  · simp [hb]

@[simp] theorem serve_heap (tag fresh : ℕ) (i : ι) (r : Req) (rep : Rep r) (state : σ) :
    (s.serve S tag fresh i r rep state).heap =
      Function.update (Function.update s.heap fresh (some ⟨S.kind r, .PROCESS, none⟩)) tag
        (some ⟨S.kind r, .FINISH, some ⟨i, r, some rep⟩⟩) := by
  simp [Server.serve]

theorem listens_serve {i : ι} {r : Req}
    (ho : s.heap tag = some ⟨S.kind r, .PROCESS, some ⟨i, r, none⟩⟩) (hb : s.heap fresh = none)
    (rep : Rep r) (state : σ) (k : κ) (a : ℕ) :
    (s.serve S tag fresh i r rep state).Listens k a ↔
      k = S.kind r ∧ a = fresh ∨ a ≠ tag ∧ s.Listens k a := by
  have hne : fresh ≠ tag := by
    rintro rfl
    rw [hb] at ho
    cases ho
  unfold Listens
  rw [serve_heap]
  by_cases hat : a = tag
  · subst hat
    simp [hne.symm]
  · rw [Function.update_of_ne hat]
    by_cases haf : a = fresh
    · subst haf
      rw [Function.update_self, hb]
      constructor
      · rintro ⟨call, hc⟩
        cases hc
        exact .inl ⟨rfl, rfl⟩
      · rintro (⟨rfl, -⟩ | ⟨-, call, hc⟩)
        · exact ⟨none, rfl⟩
        · cases hc
    · simp [hat, haf]

theorem Listening.serve [DecidableEq κ] (h : s.Listening K) {i : ι} {r : Req}
    (ho : s.heap tag = some ⟨S.kind r, .PROCESS, some ⟨i, r, none⟩⟩) (hb : s.heap fresh = none)
    (rep : Rep r) (state : σ) : (s.serve S tag fresh i r rep state).Listening K := by
  obtain ⟨listener, hlistener⟩ := h
  have htag : S.kind r ∈ K ∧ tag = listener (S.kind r) := (hlistener _ _).mp ⟨_, ho⟩
  refine ⟨Function.update listener (S.kind r) fresh, fun k a => ?_⟩
  rw [listens_serve ho hb]
  by_cases hk : k = S.kind r
  · subst hk
    have hiff : (a ≠ tag ∧ s.Listens (S.kind r) a) ↔ False := by
      rw [hlistener, htag.2]
      tauto
    rw [hiff, Function.update_self]
    simp [htag.1]
  · have hiff : (a ≠ tag ∧ s.Listens k a) ↔ s.Listens k a := by
      refine and_iff_right_of_imp ?_
      rintro ⟨call, hc⟩ rfl
      rw [ho] at hc
      cases hc
      exact hk rfl
    rw [hiff, hlistener, Function.update_of_ne hk]
    simp [hk]

theorem listening_nil (state : σ) :
    (⟨state, fun _ => none, [], false⟩ : Server κ ι σ Rep).Listening ∅ :=
  ⟨fun _ => 0, fun _ _ => iff_of_false (fun ⟨_, hc⟩ => nomatch hc) fun h => h.1⟩

theorem tidy_nil (state : σ) : (⟨state, fun _ => none, [], false⟩ : Server κ ι σ Rep).Tidy S where
  nodup := List.nodup_nil
  live _ ha := absurd rfl ha
  fits _ _ ha := nomatch ha

theorem spawn_spec [DecidableEq κ] {kinds : List κ} (hnodup : kinds.Nodup)
    (hK : ∀ k ∈ kinds, k ∉ K) (hfree : ∀ b, a ≤ b → s.heap b = none) (h : s.Tidy S)
    (hl : s.Listening K) :
    (spawn a kinds s).Tidy S ∧ (spawn a kinds s).Listening (K ∪ {k | k ∈ kinds}) := by
  induction kinds generalizing a s K with
  | nil => exact ⟨h, by simpa [spawn] using hl⟩
  | cons k kinds ih =>
    obtain ⟨hk, hnodup⟩ := List.nodup_cons.mp hnodup
    have ha : s.heap a = none := hfree a le_rfl
    have hnew := hl.new ha (hK k List.mem_cons_self)
    have hih := ih (a := a + 1) hnodup (K := insert k K) ?_ ?_ (h.new ha k) hnew
    · refine ⟨hih.1, ?_⟩
      have hset : K ∪ {k' | k' ∈ k :: kinds} = insert k K ∪ {k | k ∈ kinds} := by
        ext k'
        simp only [List.mem_cons, Set.mem_union, Set.mem_insert_iff, Set.mem_ofPred_eq]
        tauto
      rw [hset]
      exact hih.2
    · intro k' hk' hmem
      rcases Set.mem_insert_iff.mp hmem with rfl | hmem
      · exact hk hk'
      · exact hK k' (List.mem_cons_of_mem k hk') hmem
    · intro b hb
      rw [new_heap, Function.update_of_ne (by omega)]
      exact hfree b (by omega)

/-- **The loop starts with one servicer for each method.** -/
theorem handleRpcs_spec [DecidableEq κ] {kinds : List κ} (hnodup : kinds.Nodup) (state : σ) :
    (handleRpcs kinds state : Server κ ι σ Rep).Tidy S ∧
      (handleRpcs kinds state : Server κ ι σ Rep).Listening {k | k ∈ kinds} := by
  have hlisten : (⟨state, fun _ => none, [], false⟩ : Server κ ι σ Rep).Listening ∅ :=
    listening_nil state
  have h := spawn_spec (S := S) (a := 0) hnodup (fun k _ => Set.notMem_empty k) (fun _ _ => rfl)
    (tidy_nil state) hlisten
  rwa [Set.empty_union] at h

theorem handleRpcs_init (kinds : List κ) (state : σ) :
    let s : Server κ ι σ Rep := handleRpcs kinds state
    s.state = state ∧ s.down = false ∧ ∀ a op, (a, op) ∈ s.ops → op = .request := by
  have hspawn : ∀ (a : ℕ) (s : Server κ ι σ Rep), (s.down = false ∧ ∀ a op, (a, op) ∈ s.ops →
      op = .request) → (spawn a kinds s).state = s.state ∧ (spawn a kinds s).down = false ∧
        ∀ a' op, (a', op) ∈ (spawn a kinds s).ops → op = .request := by
    induction kinds with
    | nil => exact fun a s h => ⟨rfl, h⟩
    | cons k kinds ih =>
      intro a s h
      refine ih (a + 1) (s.new k a) ⟨h.1, fun a' op ha' => ?_⟩
      rcases List.mem_cons.mp ha' with ha' | ha'
      · cases ha'
        simp [h.1]
      · exact h.2 a' op ha'
  exact hspawn 0 _ ⟨rfl, fun _ _ ha => nomatch ha⟩

end Server

end

end Async

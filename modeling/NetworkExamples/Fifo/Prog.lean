import Mathlib.Logic.Function.Basic
import Mathlib.Logic.Relation

/-!
# Sequential programs over FIFO queues

A **program** (`Prog`) is what one process of a network does between its communications: it sends
a message to a process, receives one from the queue of a given sender, writes a ghost note, ends
with a value, ends with an uncaught exception, or spins for ever. Programs are a free monad, so
that sequential code is written with `do`.

* A **receive** names its sender and a selection `sel`: it takes the first selected message of the
  sender's queue and drops the messages before it (`scan`). A receive that selects everything
  takes the front. A *timed* receive may give up.
* A **send** is *bounded* if it gives up when its destination has ended; an unbounded send to a
  process that has ended never returns.
-/

namespace Fifo

/-- What a receive returns. -/
inductive Reply (M : Type) where
  | got (m : M)
  /-- The queue was not empty, and the receive emptied it without a selected message. -/
  | nothing
  | timedOut

/-- A sequential process: `ι` names the processes, `M` is the type of the messages, `E` of the
ghost notes, `α` of the result. -/
inductive Prog (ι M E α : Type) where
  | ret (a : α)
  | fail (e : String)
  /-- A loop that communicates no more. -/
  | spin
  | note (x : E) (k : Prog ι M E α)
  | send (dst : ι) (m : M) (bounded : Bool) (k : Prog ι M E α)
  | recv (src : ι) (sel : M → Bool) (timed : Bool) (k : Reply M → Prog ι M E α)

namespace Prog

variable {ι M E α β γ : Type}

/-- The program `p`, then `f` of its result. -/
def bind : Prog ι M E α → (α → Prog ι M E β) → Prog ι M E β
  | ret a, f => f a
  | fail e, _ => fail e
  | spin, _ => spin
  | note x k, f => note x (k.bind f)
  | send d m b k, f => send d m b (k.bind f)
  | recv s sel t k, f => recv s sel t fun r => (k r).bind f

instance : Monad (Prog ι M E) where
  pure := ret
  bind := bind

/-- The process has ended: it reads its queues no more. -/
def halted : Prog ι M E α → Bool
  | ret _ | fail _ => true
  | _ => false

@[simp] theorem halted_ret (a : α) : (ret a : Prog ι M E α).halted = true := rfl
@[simp] theorem halted_fail (e : String) : (fail e : Prog ι M E α).halted = true := rfl
@[simp] theorem halted_spin : (spin : Prog ι M E α).halted = false := rfl
@[simp] theorem halted_note (x : E) (k : Prog ι M E α) : (note x k).halted = false := rfl
@[simp] theorem halted_send (d : ι) (m : M) (b : Bool) (k : Prog ι M E α) :
    (send d m b k).halted = false := rfl
@[simp] theorem halted_recv (s : ι) (sel : M → Bool) (t : Bool) (k : Reply M → Prog ι M E α) :
    (recv s sel t k).halted = false := rfl

/-- The process is at a receive that never gives up. -/
def Waits (p : Prog ι M E α) : Prop :=
  ∃ (a : ι) (sel : M → Bool) (k : Reply M → Prog ι M E α), p = recv a sel false k

@[simp] theorem ret_bind (a : α) (f : α → Prog ι M E β) : (ret a : Prog ι M E α).bind f = f a := rfl
@[simp] theorem fail_bind (e : String) (f : α → Prog ι M E β) :
    (fail e : Prog ι M E α).bind f = fail e := rfl
@[simp] theorem spin_bind (f : α → Prog ι M E β) : (spin : Prog ι M E α).bind f = spin := rfl
@[simp] theorem note_bind (x : E) (k : Prog ι M E α) (f : α → Prog ι M E β) :
    (note x k).bind f = note x (k.bind f) := rfl
@[simp] theorem send_bind (d : ι) (m : M) (b : Bool) (k : Prog ι M E α) (f : α → Prog ι M E β) :
    (send d m b k).bind f = send d m b (k.bind f) := rfl
@[simp] theorem recv_bind (s : ι) (sel : M → Bool) (t : Bool) (k : Reply M → Prog ι M E α)
    (f : α → Prog ι M E β) : (recv s sel t k).bind f = recv s sel t fun r => (k r).bind f := rfl

theorem Waits.bind {p : Prog ι M E α} (h : p.Waits) (f : α → Prog ι M E β) :
    (p.bind f).Waits := by
  obtain ⟨a, sel, k, rfl⟩ := h
  exact ⟨a, sel, _, rfl⟩

@[simp] theorem bind_ret (p : Prog ι M E α) : p.bind ret = p := by
  induction p with
  | ret | fail | spin => rfl
  | note x k ih => simp [ih]
  | send d m b k ih => simp [ih]
  | recv s sel t k ih => simp [ih]

theorem bind_assoc (p : Prog ι M E α) (f : α → Prog ι M E β) (g : β → Prog ι M E γ) :
    (p.bind f).bind g = p.bind fun a => (f a).bind g := by
  induction p with
  | ret | fail | spin => rfl
  | note x k ih => simp [ih]
  | send d m b k ih => simp [ih]
  | recv s sel t k ih => simp [ih]

instance : LawfulMonad (Prog ι M E) :=
  LawfulMonad.mk' _ bind_ret (fun _ _ => rfl) bind_assoc

end Prog

/-- The receive's search in the queue: the messages up to the first selected one are dropped. -/
def scan {M : Type} (sel : M → Bool) : List M → Reply M × List M
  | [] => (.nothing, [])
  | m :: q => if sel m then (.got m, q) else scan sel q

theorem scan_front {M : Type} {sel : M → Bool} {m : M} (h : sel m = true) (q : List M) :
    scan sel (m :: q) = (.got m, q) := by
  simp [scan, h]

end Fifo

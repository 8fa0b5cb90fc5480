import NetworkExamples.Rpc.Handler
import Mathlib.Logic.Relation
import Mathlib.Order.WellFounded

/-!
# Servers that answer one call at a time

The loop of a server answers a call before it takes the next one, also while the handler waits for the
reply of another server. A **task** (`Task`) is a handler with its calls of other servers. In a
**serial** system (`Serial`) a call starts only when its server is free.

* `Serial.drains`: if the calls lead down a well-founded order of the servers, all calls are answered,
  after finitely many steps in any order.
* `Serial.refines`: a run of a serial system is one of a pool of handlers.
-/

namespace Rpc

variable {C S σ ρ α β : Type}

/-- What a server does on a call: actions on the state, and calls of which it waits for the reply. -/
inductive Task (C σ ρ α : Type) where
  | ret (a : α)
  /-- An uncaught exception. -/
  | throw
  | act (f : σ → σ) (k : σ → Task C σ ρ α)
  | call (c : C) (k : ρ → Task C σ ρ α)

namespace Task

def bind : Task C σ ρ α → (α → Task C σ ρ β) → Task C σ ρ β
  | ret a, g => g a
  | throw, _ => throw
  | act f k, g => act f fun s => (k s).bind g
  | call c k, g => call c fun r => (k r).bind g

instance : Monad (Task C σ ρ) where
  pure := ret
  bind := bind

/-- A call, and its reply. -/
def ask (c : C) : Task C σ ρ ρ := call c ret

/-- A handler that makes no calls. -/
def ofHandler : Handler σ α → Task C σ ρ α
  | .ret a => ret a
  | .throw => throw
  | .act f k => act f fun s => ofHandler (k s)

/-! ### The calls of a task -/

/-- All calls of the task are in `P`. -/
def Calls (P : C → Prop) : Task C σ ρ α → Prop
  | ret _ | throw => True
  | act _ k => ∀ s, (k s).Calls P
  | call c k => P c ∧ ∀ r, (k r).Calls P

section

variable {P : C → Prop}

theorem Calls.pure (a : α) : (Pure.pure a : Task C σ ρ α).Calls P := trivial

theorem Calls.bind {t : Task C σ ρ α} {g : α → Task C σ ρ β} (ht : t.Calls P)
    (hg : ∀ a, (g a).Calls P) : (t >>= g).Calls P := by
  induction t with
  | ret a => exact hg a
  | throw => trivial
  | act f k ih => exact fun s => ih s (ht s)
  | call c k ih => exact ⟨ht.1, fun r => ih r (ht.2 r)⟩

theorem Calls.map {t : Task C σ ρ α} (ht : t.Calls P) (f : α → β) : (f <$> t).Calls P :=
  ht.bind fun _ => trivial

theorem Calls.ask {c : C} (hc : P c) : (ask c : Task C σ ρ ρ).Calls P := ⟨hc, fun _ => trivial⟩

theorem Calls.ite {c : Prop} [Decidable c] {t u : Task C σ ρ α} (ht : t.Calls P) (hu : u.Calls P) :
    (if c then t else u).Calls P := by
  split
  · exact ht
  · exact hu

theorem Calls.ofHandler (h : Handler σ α) : (ofHandler h : Task C σ ρ α).Calls P := by
  induction h with
  | ret | throw => trivial
  | act f k ih => exact ih

end

/-! ### The handler of a task -/

/-- The handler in which the calls are answered by `handle`. -/
def flat (handle : C → Handler σ ρ) : Task C σ ρ α → Handler σ α
  | ret a => .ret a
  | throw => .throw
  | act f k => .act f fun s => (k s).flat handle
  | call c k => (handle c).bind fun r => (k r).flat handle

section

variable {handle : C → Handler σ ρ}

@[simp] theorem flat_pure (a : α) : (Pure.pure a : Task C σ ρ α).flat handle = Pure.pure a := rfl

@[simp] theorem flat_bind (t : Task C σ ρ α) (g : α → Task C σ ρ β) :
    (t >>= g).flat handle = t.flat handle >>= fun a => (g a).flat handle := by
  induction t with
  | ret | throw => rfl
  | act f k ih => exact congrArg (Handler.act f) (funext ih)
  | call c k ih =>
    calc (handle c).bind (fun r => (k r >>= g).flat handle)
        = (handle c).bind (fun r => ((k r).flat handle).bind fun a => (g a).flat handle) :=
          congrArg (handle c).bind (funext ih)
      _ = _ := (Handler.bind_assoc ..).symm

@[simp] theorem flat_map (f : α → β) (t : Task C σ ρ α) :
    (f <$> t).flat handle = f <$> t.flat handle :=
  flat_bind t fun a => ret (f a)

@[simp] theorem flat_ask (c : C) : (ask c).flat handle = handle c := Handler.bind_ret _

@[simp] theorem flat_ofHandler (h : Handler σ α) : (ofHandler h).flat handle = h := by
  induction h with
  | ret | throw => rfl
  | act f k ih => exact congrArg (Handler.act f) (funext ih)

@[simp] theorem flat_ite (c : Prop) [Decidable c] (t u : Task C σ ρ α) :
    (if c then t else u).flat handle = if c then t.flat handle else u.flat handle :=
  apply_ite (flat handle) c t u

end

end Task

/-! ## Serial systems -/

/-- The servers: whom a call goes to, what it does first, whether it is taken then, and the task. An
exception ends the server. -/
structure Servers (C S σ ρ : Type) where
  server : C → S
  entry : C → σ → σ
  admits : C → σ → Bool
  body : C → σ → Task C σ ρ ρ
  down : S → σ → σ

/-- A call that waits for the reply of another one. -/
abbrev Frame (C σ ρ : Type) := C × (ρ → Task C σ ρ ρ)

/-- A call from outside, with the calls that are made for it, the latest one first. -/
inductive Thread (C σ ρ : Type) where
  | waiting (c : C)
  | running (c : C) (t : Task C σ ρ ρ) (frames : List (Frame C σ ρ))
  /-- `none`: an exception. -/
  | ended (r : Option ρ)

namespace Thread

/-- The latest call has been answered. -/
def resume (r : Option ρ) : List (Frame C σ ρ) → Thread C σ ρ
  | [] => ended r
  | (c, k) :: frames => running c (match r with | some a => k a | none => .throw) frames

section

variable (V : Servers C S σ ρ)

/-- A call is taken, or refused. -/
def enter (c : C) (frames : List (Frame C σ ρ)) (s : σ) : Thread C σ ρ :=
  if V.admits c s then running c (V.body c s) frames else resume none frames

/-- A call starts if its server is free. -/
def start (free : S → Bool) (s : σ) (c : C) (frames : List (Frame C σ ρ)) :
    Option (σ × Thread C σ ρ) :=
  if free (V.server c) then some (V.entry c s, enter V c frames s) else none

/-- The next step, if there is one. -/
def next (free : S → Bool) (s : σ) : Thread C σ ρ → Option (σ × Thread C σ ρ)
  | waiting c => start V free s c []
  | running c (.call d k) frames => start V free s d ((c, k) :: frames)
  | running c (.act f k) frames => some (f s, running c (k s) frames)
  | running _ (.ret r) frames => some (s, resume (some r) frames)
  | running c .throw frames => some (V.down (V.server c) s, resume none frames)
  | ended _ => none

/-- The server answers a call of the thread. -/
def holds [DecidableEq S] (x : S) : Thread C σ ρ → Bool
  | running c _ frames => V.server c = x || frames.any fun f => V.server f.1 = x
  | waiting _ | ended _ => false

end

/-- The call that has to start next. -/
def wants : Thread C σ ρ → Option C
  | waiting c => some c
  | running _ (.call c _) _ => some c
  | _ => none

variable {V : Servers C S σ ρ} {free : S → Bool} {s s' : σ} {th th' : Thread C σ ρ} {c : C}
  {frames : List (Frame C σ ρ)}

theorem start_eq_some : start V free s c frames = some (s', th') ↔
    free (V.server c) = true ∧ s' = V.entry c s ∧ th' = enter V c frames s := by
  unfold start
  constructor
  · intro h
    split at h
    · next hfree =>
      cases h
      exact ⟨hfree, rfl, rfl⟩
    · cases h
  · rintro ⟨hfree, rfl, rfl⟩
    rw [if_pos hfree]

theorem start_eq_none : start V free s c frames = none ↔ free (V.server c) = false := by
  unfold start
  split
  · next hfree => simp [hfree]
  · next hfree => simpa using hfree

/-- A thread that cannot go on has ended, or waits for a server. -/
theorem next_eq_none (h : th.next V free s = none) :
    (∃ r, th = .ended r) ∨ ∃ c, th.wants = some c ∧ free (V.server c) = false := by
  cases th with
  | waiting c => exact .inr ⟨c, rfl, start_eq_none.mp h⟩
  | running c t frames =>
    cases t with
    | ret | throw | act => cases h
    | call d k => exact .inr ⟨d, rfl, start_eq_none.mp h⟩
  | ended r => exact .inl ⟨r, rfl⟩

end Thread

/-- A state of the servers, and the calls from outside. -/
structure Serial (C σ ρ : Type) where
  state : σ
  threads : List (Thread C σ ρ)

namespace Serial

section

variable [DecidableEq S] (V : Servers C S σ ρ)

def free (p : Serial C σ ρ) (x : S) : Bool := !p.threads.any (·.holds V x)

/-- Thread `n` makes its next step. -/
def turn (p : Serial C σ ρ) (n : ℕ) : Option (Serial C σ ρ) :=
  (p.threads[n]?.bind (Thread.next V (p.free V) p.state)).map fun r => ⟨r.1, p.threads.set n r.2⟩

def step (p : Serial C σ ρ) : Pool.Action C → Serial C σ ρ
  | .call c => { p with threads := p.threads ++ [.waiting c] }
  | .turn n => (p.turn V n).getD p

/-- Some thread makes a step. -/
def Step (p q : Serial C σ ρ) : Prop := ∃ n, p.turn V n = some q

/-- **All calls are answered**: without new calls there are only finitely many steps, in any order, and
when no thread can go on, all have ended. -/
structure Drains (p : Serial C σ ρ) : Prop where
  finite : Acc (fun q p => Step V p q) p
  ended : ∀ q, Relation.ReflTransGen (Step V) p q → (∀ q', ¬ Step V q q') →
    ∀ th ∈ q.threads, ∃ r, th = .ended r

variable {V} {p q : Serial C σ ρ}

theorem turn_eq_some {n : ℕ} : p.turn V n = some q ↔ ∃ th s th', p.threads[n]? = some th ∧
    th.next V (p.free V) p.state = some (s, th') ∧ q = ⟨s, p.threads.set n th'⟩ := by
  unfold turn
  constructor
  · intro h
    obtain ⟨⟨s, th'⟩, hnext, rfl⟩ := Option.map_eq_some_iff.mp h
    obtain ⟨th, hth, hnext⟩ := Option.bind_eq_some_iff.mp hnext
    exact ⟨th, s, th', hth, hnext, rfl⟩
  · rintro ⟨th, s, th', hth, hnext, rfl⟩
    rw [hth, Option.bind_some, hnext, Option.map_some]

/-- A server that is not free answers a call. -/
theorem free_eq_false {x : S} (h : p.free V x = false) : ∃ th ∈ p.threads, th.holds V x = true := by
  have hany : p.threads.any (·.holds V x) = true := by simpa [free] using h
  exact List.any_eq_true.mp hany

/-- When no thread makes a step, each that has not ended waits for a server. -/
theorem stuck (h : ∀ q, ¬ Step V p q) {th : Thread C σ ρ} (hth : th ∈ p.threads) :
    (∃ r, th = .ended r) ∨ ∃ c, th.wants = some c ∧ p.free V (V.server c) = false := by
  obtain ⟨n, hn⟩ := List.mem_iff_getElem?.mp hth
  apply Thread.next_eq_none (s := p.state)
  cases hnext : th.next V (p.free V) p.state with
  | none => rfl
  | some r => exact absurd ⟨n, turn_eq_some.mpr ⟨th, r.1, r.2, hn, hnext, rfl⟩⟩ (h _)

end

end Serial

/-! ## Calls that lead down -/

section

variable (V : Servers C S σ ρ) (lt : S → S → Prop)

/-- The call goes to a server below that of the other one. -/
def Servers.Below (c : C) (d : C) : Prop := lt (V.server d) (V.server c)

/-- Calls lead down. -/
def Servers.Descends : Prop := ∀ c s, (V.body c s).Calls (V.Below lt c)

namespace Thread

/-- The waiting calls, from the call `c` on, are above each other. -/
def FramesOk : C → List (Frame C σ ρ) → Prop
  | _, [] => True
  | c, (d, k) :: frames => V.Below lt d c ∧ (∀ r, (k r).Calls (V.Below lt d)) ∧ FramesOk d frames

/-- The calls of the thread, made and to be made, lead down. -/
def Ok : Thread C σ ρ → Prop
  | running c t frames => t.Calls (V.Below lt c) ∧ FramesOk V lt c frames
  | waiting _ | ended _ => True

variable {V lt} {c : C} {frames : List (Frame C σ ρ)} {th th' : Thread C σ ρ} {free : S → Bool}
  {s s' : σ}

theorem ok_resume (h : FramesOk V lt c frames) (r : Option ρ) : (resume r frames).Ok V lt := by
  cases frames with
  | nil => trivial
  | cons f frames =>
    obtain ⟨-, hk, hframes⟩ := h
    cases r with
    | none => exact ⟨trivial, hframes⟩
    | some a => exact ⟨hk a, hframes⟩

theorem ok_enter (hV : V.Descends lt) (h : FramesOk V lt c frames) (s : σ) :
    (enter V c frames s).Ok V lt := by
  unfold enter
  split
  · exact ⟨hV c s, h⟩
  · exact ok_resume h none

theorem ok_start (hV : V.Descends lt) (h : FramesOk V lt c frames)
    (hstart : start V free s c frames = some (s', th')) : th'.Ok V lt := by
  obtain ⟨-, -, rfl⟩ := start_eq_some.mp hstart
  exact ok_enter hV h s

theorem Ok.next (hth : th.Ok V lt) (hV : V.Descends lt) (h : th.next V free s = some (s', th')) :
    th'.Ok V lt := by
  cases th with
  | waiting c =>
    have hframes : FramesOk V lt c [] := trivial
    exact ok_start hV hframes h
  | running c t frames =>
    obtain ⟨ht, hframes⟩ := hth
    cases t with
    | ret a =>
      cases h
      exact ok_resume hframes _
    | throw =>
      cases h
      exact ok_resume hframes _
    | act f k =>
      cases h
      exact ⟨ht s, hframes⟩
    | call d k =>
      have hcall : FramesOk V lt d ((c, k) :: frames) := ⟨ht.1, ht.2, hframes⟩
      exact ok_start hV hcall h
  | ended r => cases h

/-! ### Threads end -/

/-- The thread after a step. -/
def Later (V : Servers C S σ ρ) (th' th : Thread C σ ρ) : Prop :=
  ∃ free s s', th.next V free s = some (s', th')

theorem acc_ended (r : Option ρ) : Acc (Later V) (ended r) :=
  ⟨_, fun _ ⟨_, _, _, h⟩ => by cases h⟩

theorem acc_throw (h : ∀ r, Acc (Later V) (resume r frames)) :
    Acc (Later V) (running c .throw frames) := by
  refine ⟨_, ?_⟩
  rintro _ ⟨free, s, s', hnext⟩
  cases hnext
  exact h none

/-- A task ends if the calls that wait for it do. -/
theorem acc_running (hlt : WellFounded lt) (hV : V.Descends lt) (c : C) {t : Task C σ ρ ρ}
    (ht : t.Calls (V.Below lt c)) (h : ∀ r, Acc (Later V) (resume r frames)) :
    Acc (Later V) (running c t frames) := by
  induction c using (InvImage.wf V.server hlt).induction generalizing t frames with
  | h c ihc =>
  induction t with
  | ret a =>
    refine ⟨_, ?_⟩
    rintro _ ⟨free, s, s', hnext⟩
    cases hnext
    exact h (some a)
  | throw => exact acc_throw h
  | act f k ih =>
    refine ⟨_, ?_⟩
    rintro _ ⟨free, s, s', hnext⟩
    cases hnext
    exact ih s (ht s)
  | call d k ih =>
    refine ⟨_, ?_⟩
    rintro _ ⟨free, s, s', hnext⟩
    obtain ⟨-, -, rfl⟩ := start_eq_some.mp hnext
    -- the call ends since it is below, and the task after it since that is a part of the task
    have hframes : ∀ r, Acc (Later V) (resume r ((c, k) :: frames)) := by
      intro r
      cases r with
      | none => exact acc_throw h
      | some a => exact ih a (ht.2 a)
    unfold enter
    split
    · exact ihc d ht.1 (hV d s) hframes
    · exact hframes none

theorem acc_resume (hlt : WellFounded lt) (hV : V.Descends lt) (hframes : FramesOk V lt c frames)
    (r : Option ρ) : Acc (Later V) (resume r frames) := by
  induction frames generalizing c r with
  | nil => exact acc_ended r
  | cons f frames ih =>
    obtain ⟨-, hk, hframes⟩ := hframes
    cases r with
    | none => exact acc_throw fun r => ih hframes r
    | some a => exact acc_running hlt hV f.1 (hk a) fun r => ih hframes r

theorem Ok.acc (hth : th.Ok V lt) (hlt : WellFounded lt) (hV : V.Descends lt) :
    Acc (Later V) th := by
  cases th with
  | waiting c =>
    refine ⟨_, ?_⟩
    rintro _ ⟨free, s, s', hnext⟩
    obtain ⟨-, -, rfl⟩ := start_eq_some.mp hnext
    unfold enter
    split
    · exact acc_running hlt hV c (hV c s) fun r => acc_ended r
    · exact acc_ended none
  | running c t frames => exact acc_running hlt hV c hth.1 fun r => acc_resume hlt hV hth.2 r
  | ended r => exact acc_ended r

/-! ### What a thread waits for -/

theorem FramesOk.below (hframes : FramesOk V lt c frames) {f : Frame C σ ρ} (hf : f ∈ frames) :
    Relation.TransGen lt (V.server c) (V.server f.1) := by
  induction frames generalizing c with
  | nil => cases hf
  | cons g frames ih =>
    obtain ⟨hlt, -, hframes⟩ := hframes
    rcases List.mem_cons.mp hf with rfl | hf
    · exact .single hlt
    · exact .trans (.single hlt) (ih hframes hf)

/-- A thread waits for a server below all that it holds. -/
theorem Ok.below [DecidableEq S] (hth : th.Ok V lt) {x : S} (hx : th.holds V x = true)
    (hc : th.wants = some c) : Relation.TransGen lt (V.server c) x := by
  cases th with
  | waiting | ended => cases hx
  | running d t frames =>
    cases t with
    | ret | throw | act => cases hc
    | call e k =>
      cases hc
      obtain ⟨ht, hframes⟩ := hth
      rcases Bool.or_eq_true_iff.mp hx with hx | hx
      · obtain rfl := of_decide_eq_true hx
        exact .single ht.1
      · obtain ⟨f, hf, hx⟩ := List.any_eq_true.mp hx
        obtain rfl := of_decide_eq_true hx
        exact .trans (.single ht.1) (hframes.below hf)

end Thread

end

/-! ## All calls are answered -/

/-- The lists that come from a list when one element goes down. -/
def OneDown (r : α → α → Prop) (l' l : List α) : Prop :=
  ∃ n a b, l[n]? = some a ∧ r b a ∧ l' = l.set n b

theorem acc_cons {r : α → α → Prop} {x : α} {xs : List α} (hx : Acc r x)
    (hxs : Acc (OneDown r) xs) : Acc (OneDown r) (x :: xs) := by
  induction hx generalizing xs with
  | intro x _ ihx =>
  induction hxs with
  | intro xs hxs ihxs =>
  refine ⟨_, ?_⟩
  rintro _ ⟨n, a, b, hn, hb, rfl⟩
  cases n with
  | zero =>
    cases hn
    exact ihx b hb (Acc.intro xs hxs)
  | succ n => exact ihxs (xs.set n b) ⟨n, a, b, hn, hb, rfl⟩

theorem acc_list {r : α → α → Prop} {l : List α} (h : ∀ a ∈ l, Acc r a) : Acc (OneDown r) l := by
  induction l with
  | nil => exact ⟨_, fun _ ⟨n, a, b, hn, _⟩ => by simp at hn⟩
  | cons x xs ih =>
    have hxs := ih fun a ha => h a (List.mem_cons_of_mem x ha)
    exact acc_cons (h x List.mem_cons_self) hxs

namespace Serial

section

variable [DecidableEq S] {V : Servers C S σ ρ} {lt : S → S → Prop} {p q : Serial C σ ρ}
  {ok : Serial C σ ρ → Pool.Action C → Prop} {s : σ}

open Schedule

/-- The calls of all threads lead down. -/
def Ok (V : Servers C S σ ρ) (lt : S → S → Prop) (p : Serial C σ ρ) : Prop :=
  ∀ th ∈ p.threads, th.Ok V lt

theorem Ok.step (hp : p.Ok V lt) (hV : V.Descends lt) (h : Step V p q) : q.Ok V lt := by
  obtain ⟨n, h⟩ := h
  obtain ⟨th, s, th', hn, hnext, rfl⟩ := turn_eq_some.mp h
  intro u hu
  rcases List.mem_or_eq_of_mem_set hu with hu | rfl
  · exact hp u hu
  · exact (hp th (List.mem_of_getElem? hn)).next hV hnext

theorem Ok.steps (hp : p.Ok V lt) (hV : V.Descends lt) (h : Relation.ReflTransGen (Step V) p q) :
    q.Ok V lt := by
  induction h with
  | refl => exact hp
  | tail _ h ih => exact ih.step hV h

theorem ok_reach (hV : V.Descends lt) (hr : Reach (step V) ok ⟨s, []⟩ p) : p.Ok V lt := by
  have hstart : Ok V lt ⟨s, []⟩ := by
    intro th hth
    cases hth
  apply hr.invariant hstart
  · intro p a hp _
    cases a with
    | call c =>
      intro th hth
      rcases List.mem_append.mp hth with hth | hth
      · exact hp th hth
      · obtain rfl := List.mem_singleton.mp hth
        trivial
    | turn n =>
      change ((p.turn V n).getD p).Ok V lt
      cases h : p.turn V n with
      | none => exact hp
      | some q => exact hp.step hV ⟨n, h⟩

theorem Ok.finite (hp : p.Ok V lt) (hlt : WellFounded lt) (hV : V.Descends lt) :
    Acc (fun q p => Step V p q) p := by
  have hacc := acc_list fun th hth => (hp th hth).acc hlt hV
  refine Subrelation.accessible ?_ (InvImage.accessible Serial.threads hacc)
  rintro q p ⟨n, h⟩
  obtain ⟨th, s, th', hn, hnext, rfl⟩ := turn_eq_some.mp h
  exact ⟨n, th, th', hn, ⟨_, _, _, hnext⟩, rfl⟩

/-- **No deadlock**: when no thread can go on, all have ended. -/
theorem Ok.all_ended (hp : p.Ok V lt) (hlt : WellFounded lt) (h : ∀ q, ¬ Step V p q)
    {th : Thread C σ ρ} (hth : th ∈ p.threads) : ∃ r, th = .ended r := by
  -- no server is waited for: whoever held it would wait for one below
  have hwants : ∀ x, ∀ th ∈ p.threads, ∀ c, th.wants = some c → V.server c = x →
      p.free V x = false → False := by
    intro x
    induction x using hlt.transGen.induction with
    | h x ih =>
    rintro th hth c hc rfl hfree
    obtain ⟨u, hu, hholds⟩ := free_eq_false hfree
    rcases stuck h hu with ⟨r, rfl⟩ | ⟨d, hd, hdfree⟩
    · cases hholds
    · exact ih (V.server d) ((hp u hu).below hholds hd) u hu d hd rfl hdfree
  rcases stuck h hth with hend | ⟨c, hc, hfree⟩
  · exact hend
  · exact (hwants _ th hth c hc rfl hfree).elim

/-- **All calls are answered**, if the calls lead down a well-founded order of the servers. -/
theorem drains (hlt : WellFounded lt) (hV : V.Descends lt)
    (hr : Reach (step V) ok ⟨s, []⟩ p) : p.Drains V where
  finite := (ok_reach hV hr).finite hlt hV
  ended _ hq hstuck _ hth := ((ok_reach hV hr).steps hV hq).all_ended hlt hstuck hth

end

end Serial

/-! ## A serial system is a pool -/

section

variable (V : Servers C S σ ρ) (handle : C → Handler σ ρ)

/-- The handlers of the servers, with the calls written into them. For a call that is always refused
the exception may come at once. -/
def Servers.Models : Prop :=
  ∀ c, (handle c = .throw ∧ ∀ s, V.entry c s = s ∧ V.admits c s = false) ∨
    handle c = .act (V.entry c) fun s =>
      if V.admits c s then ((V.body c s).flat handle).onThrow (V.down (V.server c)) else .throw

namespace Thread

/-- What is left of the waiting calls after `h`. -/
def plug (h : Handler σ ρ) : List (Frame C σ ρ) → Handler σ ρ
  | [] => h
  | (c, k) :: frames =>
    plug ((h.bind fun r => (k r).flat handle).onThrow (V.down (V.server c))) frames

/-- What is left of the thread. -/
def handler : Thread C σ ρ → Handler σ ρ
  | waiting c => handle c
  | running c t frames =>
    plug V handle ((t.flat handle).onThrow (V.down (V.server c))) frames
  | ended (some r) => .ret r
  | ended none => .throw

variable {V handle} {c : C} {frames : List (Frame C σ ρ)} {th th' : Thread C σ ρ} {free : S → Bool}
  {s s' : σ}

theorem plug_act (f : σ → σ) (k : σ → Handler σ ρ) (frames : List (Frame C σ ρ)) :
    plug V handle (.act f k) frames = .act f fun s => plug V handle (k s) frames := by
  induction frames generalizing k with
  | nil => rfl
  | cons g frames ih => exact ih _

theorem handler_resume_some (a : ρ) (frames : List (Frame C σ ρ)) :
    (resume (some a) frames).handler V handle = plug V handle (.ret a) frames := by
  cases frames with
  | nil => rfl
  | cons f frames => rfl

theorem handler_resume_none (frames : List (Frame C σ ρ)) :
    (resume none frames).handler V handle = plug V handle .throw frames := by
  cases frames with
  | nil => rfl
  | cons f frames => rfl

theorem handler_enter (c : C) (frames : List (Frame C σ ρ)) (s : σ) :
    (enter V c frames s).handler V handle = plug V handle
      (if V.admits c s then ((V.body c s).flat handle).onThrow (V.down (V.server c)) else .throw)
      frames := by
  unfold enter
  split
  · rfl
  · exact handler_resume_none frames

/-- From a state on, `h` goes on to `h'`: by nothing, or by an action. -/
def GoesOn (s : σ) (h : Handler σ ρ) (s' : σ) (h' : Handler σ ρ) : Prop :=
  (s' = s ∧ h' = h) ∨ ∃ f k, h = .act f k ∧ s' = f s ∧ h' = k s

/-- A call that starts, in a thread with the waiting calls `frames`. -/
theorem goesOn_start (hM : V.Models handle) (frames : List (Frame C σ ρ))
    (h : start V free s c frames = some (s', th')) :
    GoesOn s (plug V handle (handle c) frames) s' (th'.handler V handle) := by
  obtain ⟨-, rfl, rfl⟩ := start_eq_some.mp h
  rcases hM c with ⟨hthrow, hrefused⟩ | hact
  · obtain ⟨hentry, hadmits⟩ := hrefused s
    refine .inl ⟨hentry, ?_⟩
    rw [handler_enter, hadmits, hthrow]
    rfl
  · exact .inr ⟨_, _, by rw [hact, plug_act], rfl, handler_enter c frames s⟩

/-- **A step of a thread** is an action of its handler, or goes back to a waiting call. -/
theorem goesOn_next (hM : V.Models handle) (h : th.next V free s = some (s', th')) :
    GoesOn s (th.handler V handle) s' (th'.handler V handle) := by
  cases th with
  | waiting c => exact goesOn_start hM [] h
  | running c t frames =>
    cases t with
    | ret a =>
      cases h
      exact .inl ⟨rfl, handler_resume_some a frames⟩
    | throw =>
      cases h
      exact .inr ⟨_, _, plug_act _ _ frames, rfl, handler_resume_none frames⟩
    | act f k =>
      cases h
      exact .inr ⟨_, _, plug_act _ _ frames, rfl, rfl⟩
    | call d k =>
      -- the rest of the task is the innermost of the waiting calls
      have hcall := goesOn_start hM ((c, k) :: frames) h
      exact hcall
  | ended r => cases h

end Thread

namespace Serial

/-- The pool of what is left of the threads. -/
def pool (p : Serial C σ ρ) : Pool σ ρ := ⟨p.state, p.threads.map (Thread.handler V handle)⟩

variable {V handle} [DecidableEq S] {p q : Serial C σ ρ} {s : σ}
  {ok : Serial C σ ρ → Pool.Action C → Prop} {ok' : Pool σ ρ → Pool.Action C → Prop}

open Schedule

theorem pool_turn (hM : V.Models handle) {n : ℕ} (h : p.turn V n = some q) :
    q.pool V handle = p.pool V handle ∨ q.pool V handle = (p.pool V handle).turn n := by
  obtain ⟨th, s, th', hn, hnext, rfl⟩ := turn_eq_some.mp h
  have hpool : (p.pool V handle).threads[n]? = some (th.handler V handle) := by
    simp [pool, hn]
  rcases Thread.goesOn_next hM hnext with ⟨rfl, hth⟩ | ⟨f, k, hact, rfl, hth⟩
  · left
    obtain ⟨hlt, hget⟩ := List.getElem?_eq_some_iff.mp hpool
    simp only [pool, List.map_set, hth, ← hget]
    rw [List.set_getElem_self]
  · right
    unfold Pool.turn
    rw [hpool, hact]
    simp [pool, List.map_set, hth]

/-- **A run of a serial system is a run of the pool**, up to what the threads have left to do. -/
theorem refines (hM : V.Models handle) (hok : ∀ p a, ok p a → ok' (p.pool V handle) a)
    (hr : Reach (step V) ok ⟨s, []⟩ p) :
    Reach (Pool.step handle) ok' ⟨s, []⟩ (p.pool V handle) := by
  induction hr with
  | refl => exact .refl
  | @tail p _ a ha ih =>
    cases a with
    | call c =>
      have hstep : (p.step V (.call c)).pool V handle =
          Pool.step handle (p.pool V handle) (.call c) := by
        simp [pool, Serial.step, Pool.step, Pool.spawn, Thread.handler]
      rw [hstep]
      exact ih.tail _ (hok p _ ha)
    | turn n =>
      change Reach _ _ _ (((p.turn V n).getD p).pool V handle)
      cases h : p.turn V n with
      | none => exact ih
      | some q =>
        rcases pool_turn hM h with hq | hq
        · rw [Option.getD_some, hq]
          exact ih
        · rw [Option.getD_some, hq]
          exact ih.tail (Pool.Action.turn n) (hok p _ ha)

end Serial

end

end Rpc

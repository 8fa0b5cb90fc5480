import NetworkExamples.Rpc.Schedule
import Mathlib.Data.List.Basic

/-!
# Handlers of remote procedure calls

A **handler** (`Handler`) is what a server does on a call: atomic actions on the state `σ` of the
whole system, one after the other, then a result or an uncaught exception. Calls of other servers
are written into the handler of the caller, so that a handler is all that happens on behalf of one
call from outside. It is read in two ways.

* **Alone** (`exec`): the actions of the handler follow each other.
* **In a pool** (`Pool`): handlers run side by side, one action at a time, in any order.

`Safe` is the program logic for both: it relies on a condition that the other handlers keep
(`Rely`), and guarantees it (`Safe.exec`, `Pool.Good.reach`).
-/

namespace Rpc

variable {σ α β γ : Type}

/-- What a server does on a call. -/
inductive Handler (σ α : Type) where
  | ret (a : α)
  /-- An uncaught exception. -/
  | throw
  /-- The state `s` becomes `f s`, and the handler goes on with `k s`. -/
  | act (f : σ → σ) (k : σ → Handler σ α)

namespace Handler

def bind : Handler σ α → (α → Handler σ β) → Handler σ β
  | ret a, g => g a
  | throw, _ => throw
  | act f k, g => act f fun s => (k s).bind g

instance : Monad (Handler σ) where
  pure := ret
  bind := bind

/-- Read the state. -/
def get : Handler σ σ := act id ret

/-- Change the state. -/
def modify (f : σ → σ) : Handler σ Unit := act f fun _ => ret ()

/-- A value that has to be there. -/
def ofOption : Option α → Handler σ α
  | some a => ret a
  | none => throw

/-- An exception of `h` is passed on after `g`. -/
def onThrow (g : σ → σ) : Handler σ α → Handler σ α
  | ret a => ret a
  | throw => act g fun _ => throw
  | act f k => act f fun s => (k s).onThrow g

/-- The handler alone: its result (`none`: an exception) and the state after it. -/
def exec : Handler σ α → σ → Option α × σ
  | ret a, s => (some a, s)
  | throw, s => (none, s)
  | act f k, s => (k s).exec (f s)

theorem bind_eq (h : Handler σ α) (g : α → Handler σ β) : h >>= g = h.bind g := rfl

@[simp] theorem ret_bind (a : α) (g : α → Handler σ β) : (ret a : Handler σ α).bind g = g a := rfl
@[simp] theorem throw_bind (g : α → Handler σ β) : (throw : Handler σ α).bind g = throw := rfl
@[simp] theorem act_bind (f : σ → σ) (k : σ → Handler σ α) (g : α → Handler σ β) :
    (act f k).bind g = act f fun s => (k s).bind g := rfl

@[simp] theorem bind_ret (h : Handler σ α) : h.bind ret = h := by
  induction h with
  | ret | throw => rfl
  | act f k ih => simp [ih]

theorem bind_assoc (h : Handler σ α) (g : α → Handler σ β) (g' : β → Handler σ γ) :
    (h.bind g).bind g' = h.bind fun a => (g a).bind g' := by
  induction h with
  | ret | throw => rfl
  | act f k ih => simp [ih]

instance : LawfulMonad (Handler σ) :=
  LawfulMonad.mk' _ bind_ret (fun _ _ => rfl) bind_assoc

@[simp] theorem exec_ret (a : α) (s : σ) : (ret a : Handler σ α).exec s = (some a, s) := rfl
@[simp] theorem exec_throw (s : σ) : (throw : Handler σ α).exec s = (none, s) := rfl
@[simp] theorem exec_act (f : σ → σ) (k : σ → Handler σ α) (s : σ) :
    (act f k).exec s = (k s).exec (f s) := rfl

/-- `g` runs if `h` has returned. -/
theorem exec_bind (h : Handler σ α) (g : α → Handler σ β) (s : σ) :
    (h.bind g).exec s =
      match h.exec s with
      | (some a, t) => (g a).exec t
      | (none, t) => (none, t) := by
  induction h generalizing s with
  | ret | throw => rfl
  | act f k ih => simp [ih]

theorem exec_onThrow (g : σ → σ) (h : Handler σ α) (s : σ) :
    (h.onThrow g).exec s =
      match h.exec s with
      | (some a, t) => (some a, t)
      | (none, t) => (none, g t) := by
  induction h generalizing s with
  | ret | throw => rfl
  | act f k ih => simp [onThrow, ih]

end Handler

/-! ## The logic of handlers -/

/-- What a handler relies on while others run, and guarantees to them: a condition on the states,
and a relation that holds between any earlier and any later state. -/
structure Rely (σ : Type) where
  inv : σ → Prop
  rel : σ → σ → Prop
  refl : ∀ s, rel s s
  trans : ∀ s t u, rel s t → rel t u → rel s u

/-- A condition on the states alone. -/
def Rely.ofInv (inv : σ → Prop) : Rely σ where
  inv := inv
  rel _ _ := True
  refl _ := trivial
  trans _ _ _ _ _ := trivial

namespace Handler

variable {G : Rely σ} {E E' : Prop} {Q Q' : σ → α → Prop} {Q₂ : σ → β → Prop} {s t : σ}

/-- From the state `s` on the handler keeps `G`, however others that keep `G` come between its
actions; it returns in a state and with a value in `Q`, and throws only if `E`. -/
def Safe (G : Rely σ) (E : Prop) (Q : σ → α → Prop) : σ → Handler σ α → Prop
  | s, ret a => Q s a
  | _, throw => E
  | s, act f k => ∀ t, G.rel s t → G.inv t → G.inv (f t) ∧ G.rel t (f t) ∧ Safe G E Q (f t) (k t)

namespace Safe

variable {h : Handler σ α}

theorem mono (hs : Safe G E Q s h) (hQ : ∀ t a, G.rel s t → Q t a → Q' t a) (hE : E → E') :
    Safe G E' Q' s h := by
  induction h generalizing s with
  | ret a => exact hQ s a (G.refl s) hs
  | throw => exact hE hs
  | act f k ih =>
    intro t hst ht
    obtain ⟨hinv, hrel, hk⟩ := hs t hst ht
    refine ⟨hinv, hrel, ih t hk fun u a hu => hQ u a ?_⟩
    exact G.trans _ _ _ hst (G.trans _ _ _ hrel hu)

/-- The rule of sequences. -/
theorem bind {g : α → Handler σ β} (hs : Safe G E Q s h)
    (hg : ∀ t a, G.rel s t → Q t a → Safe G E Q₂ t (g a)) : Safe G E Q₂ s (h.bind g) := by
  induction h generalizing s with
  | ret a => exact hg s a (G.refl s) hs
  | throw => exact hs
  | act f k ih =>
    intro t hst ht
    obtain ⟨hinv, hrel, hk⟩ := hs t hst ht
    refine ⟨hinv, hrel, ih t hk fun u a hu => hg u a ?_⟩
    exact G.trans _ _ _ hst (G.trans _ _ _ hrel hu)

theorem map {f : α → β} (hs : Safe G E (fun t a => Q₂ t (f a)) s h) : Safe G E Q₂ s (f <$> h) :=
  hs.bind fun _ _ _ hQ => hQ

theorem ofOption {x : Option α} (hE : x = none → E) (hQ : ∀ a, x = some a → Q s a) :
    Safe G E Q s (Handler.ofOption x) := by
  cases x with
  | none => exact hE rfl
  | some a => exact hQ a rfl

theorem get {Q : σ → σ → Prop} (hQ : ∀ t, G.rel s t → G.inv t → Q t t) :
    Safe G E Q s Handler.get :=
  fun t hst ht => ⟨ht, G.refl t, hQ t hst ht⟩

theorem modify {f : σ → σ} {Q : σ → Unit → Prop}
    (hf : ∀ t, G.rel s t → G.inv t → G.inv (f t) ∧ G.rel t (f t) ∧ Q (f t) ()) :
    Safe G E Q s (Handler.modify f) :=
  hf

/-- The exception of a handler is passed on. -/
theorem onThrow {g : σ → σ} (hs : Safe G E Q s h)
    (hg : E → ∀ t, G.inv t → G.inv (g t) ∧ G.rel t (g t)) : Safe G E Q s (h.onThrow g) := by
  induction h generalizing s with
  | ret a => exact hs
  | throw => exact fun t _ ht => ⟨(hg hs t ht).1, (hg hs t ht).2, hs⟩
  | act f k ih =>
    intro t hst ht
    obtain ⟨hinv, hrel, hk⟩ := hs t hst ht
    exact ⟨hinv, hrel, ih t hk⟩

/-- A handler that is safe from `s` on is so from a later state on. -/
theorem later (hs : Safe G E (fun _ _ => True) s h) (hst : G.rel s t) :
    Safe G E (fun _ _ => True) t h := by
  cases h with
  | ret a => exact trivial
  | throw => exact hs
  | act f k => exact fun u htu hu => hs u (G.trans _ _ _ hst htu) hu

/-- The condition `G` may use what the start `s` implies of the later states. -/
theorem of_start {inv : σ → Prop} (hs : Safe { G with inv := inv } E Q s h)
    (hinv : ∀ t, G.rel s t → G.inv t → inv t) (hG : ∀ t, inv t → G.inv t) : Safe G E Q s h := by
  induction h generalizing s with
  | ret | throw => exact hs
  | act f k ih =>
    intro t hst ht
    obtain ⟨hf, hrel, hk⟩ := hs t hst (hinv t hst ht)
    refine ⟨hG _ hf, hrel, ih t hk fun u htu hu => hinv u ?_ hu⟩
    exact G.trans _ _ _ hst (G.trans _ _ _ hrel htu)

/-- **A safe handler alone.** -/
theorem exec (hs : Safe G E Q s h) (hinv : G.inv s) :
    G.inv (h.exec s).2 ∧ G.rel s (h.exec s).2 ∧
      match (h.exec s).1 with
      | some a => Q (h.exec s).2 a
      | none => E := by
  induction h generalizing s with
  | ret a => exact ⟨hinv, G.refl s, hs⟩
  | throw => exact ⟨hinv, G.refl s, hs⟩
  | act f k ih =>
    obtain ⟨hf, hrel, hk⟩ := hs s (G.refl s) hinv
    obtain ⟨h₁, h₂, h₃⟩ := ih s hk hf
    exact ⟨h₁, G.trans _ _ _ hrel h₂, h₃⟩

end Safe

end Handler

/-! ## Pools of handlers -/

/-- Handlers that run side by side. -/
structure Pool (σ α : Type) where
  state : σ
  threads : List (Handler σ α)

namespace Pool

variable {G : Rely σ} {E : Prop} {p : Pool σ α} {h : Handler σ α}

/-- A call begins. -/
def spawn (p : Pool σ α) (h : Handler σ α) : Pool σ α := { p with threads := p.threads ++ [h] }

/-- Handler `n` makes its next action. -/
def turn (p : Pool σ α) (n : ℕ) : Pool σ α :=
  match p.threads[n]? with
  | some (.act f k) => { state := f p.state, threads := p.threads.set n (k p.state) }
  | _ => p

/-- All handlers are safe from some earlier state on, and throw only if `E`. -/
structure Good (G : Rely σ) (E : Prop) (p : Pool σ α) : Prop where
  inv : G.inv p.state
  threads : ∀ h ∈ p.threads, ∃ s, G.rel s p.state ∧ h.Safe G E (fun _ _ => True) s

theorem Good.spawn (hp : p.Good G E) (hh : h.Safe G E (fun _ _ => True) p.state) :
    (p.spawn h).Good G E where
  inv := hp.inv
  threads h' hh' := by
    rcases List.mem_append.mp hh' with hh' | hh'
    · exact hp.threads h' hh'
    · obtain rfl := List.mem_singleton.mp hh'
      exact ⟨p.state, G.refl _, hh⟩

theorem turn_cases (p : Pool σ α) (n : ℕ) : p.turn n = p ∨ ∃ f k,
    p.threads[n]? = some (.act f k) ∧ p.turn n = ⟨f p.state, p.threads.set n (k p.state)⟩ := by
  unfold Pool.turn
  split
  · next f k hn => exact .inr ⟨f, k, hn, rfl⟩
  · exact .inl rfl

/-- The action of a safe handler. -/
theorem Good.act (hp : p.Good G E) {n : ℕ} {f : σ → σ} {k : σ → Handler σ α}
    (hn : p.threads[n]? = some (.act f k)) : G.inv (f p.state) ∧ G.rel p.state (f p.state) ∧
      (k p.state).Safe G E (fun _ _ => True) (f p.state) := by
  obtain ⟨s, hs, hsafe⟩ := hp.threads _ (List.mem_of_getElem? hn)
  exact hsafe p.state hs hp.inv

theorem Good.turn (hp : p.Good G E) (n : ℕ) : (p.turn n).Good G E := by
  rcases turn_cases p n with h | ⟨f, k, hn, h⟩
  · rwa [h]
  · obtain ⟨hinv, hrel, hk⟩ := hp.act hn
    rw [h]
    refine ⟨hinv, fun h' hh' => ?_⟩
    rcases List.mem_or_eq_of_mem_set hh' with hh' | rfl
    · obtain ⟨s', hs', hsafe'⟩ := hp.threads h' hh'
      exact ⟨s', G.trans _ _ _ hs' hrel, hsafe'⟩
    · exact ⟨f p.state, G.refl _, hk⟩

theorem Good.rel_turn (hp : p.Good G E) (n : ℕ) : G.rel p.state (p.turn n).state := by
  rcases turn_cases p n with h | ⟨f, k, hn, h⟩
  · rw [h]
    exact G.refl p.state
  · rw [h]
    exact (hp.act hn).2.1

/-- Handlers that never throw: each one, going on alone, returns. -/
theorem Good.returns (hp : p.Good G False) {n : ℕ} (hn : p.threads[n]? = some h) :
    ∃ a, (h.exec p.state).1 = some a := by
  obtain ⟨s, hs, hsafe⟩ := hp.threads h (List.mem_of_getElem? hn)
  have hend := ((hsafe.later hs).exec hp.inv).2.2
  cases hexec : (h.exec p.state).1 with
  | none =>
    rw [hexec] at hend
    exact hend.elim
  | some a => exact ⟨a, rfl⟩

/-- Handler `n` is safe from some earlier state on, with the results `Q`. -/
def Thread (G : Rely σ) (Q : σ → α → Prop) (n : ℕ) (p : Pool σ α) : Prop :=
  ∃ h s, p.threads[n]? = some h ∧ G.rel s p.state ∧ h.Safe G True Q s

theorem Thread.spawn {Q : σ → α → Prop} {n : ℕ} (ht : p.Thread G Q n) : (p.spawn h).Thread G Q n := by
  obtain ⟨h', s, hn, hs, hsafe⟩ := ht
  have hlt : n < p.threads.length := (List.getElem?_eq_some_iff.mp hn).1
  exact ⟨h', s, (List.getElem?_append_left hlt).trans hn, hs, hsafe⟩

theorem Thread.turn {Q : σ → α → Prop} {n : ℕ} (ht : p.Thread G Q n) (hp : p.Good G E) (i : ℕ) :
    (p.turn i).Thread G Q n := by
  rcases turn_cases p i with h | ⟨f, k, hi, h⟩
  · rwa [h]
  · obtain ⟨h', s, hn, hs, hsafe⟩ := ht
    rw [h]
    by_cases hin : i = n
    · subst hin
      obtain rfl := Option.some.inj (hi.symm.trans hn)
      have hlt : i < p.threads.length := (List.getElem?_eq_some_iff.mp hn).1
      exact ⟨k p.state, f p.state, List.getElem?_set_self hlt, G.refl _, (hsafe p.state hs hp.inv).2.2⟩
    · exact ⟨h', s, (List.getElem?_set_ne hin).trans hn, G.trans _ _ _ hs (hp.act hi).2.1, hsafe⟩

/-- A call from outside, or the next action of a handler. -/
inductive Action (C : Type) where
  | call (c : C)
  | turn (n : ℕ)

variable {C : Type}

/-- The system whose servers answer the call `c` by `handler c`. -/
def step (handler : C → Handler σ α) (p : Pool σ α) : Action C → Pool σ α
  | .call c => p.spawn (handler c)
  | .turn n => p.turn n

variable {handler : C → Handler σ α} {ok : Pool σ α → Action C → Prop} {q : Pool σ α}

open Schedule

/-- **The rule for pools of safe handlers**: what calls and turns keep is kept along a run. -/
theorem Good.run (hp : p.Good G E) (Inv : Pool σ α → Prop) (h0 : Inv p)
    (hr : Reach (step handler) ok p q)
    (hcall : ∀ q c, ok q (.call c) → (handler c).Safe G E (fun _ _ => True) q.state)
    (hspawn : ∀ q h, Inv q → Inv (q.spawn h))
    (hturn : ∀ q n, q.Good G E → Inv q → Inv (q.turn n)) : q.Good G E ∧ Inv q := by
  induction hr with
  | refl => exact ⟨hp, h0⟩
  | tail _ a ha ih =>
    cases a with
    | call c => exact ⟨ih.1.spawn (hcall _ c ha), hspawn _ _ ih.2⟩
    | turn n => exact ⟨ih.1.turn n, hturn _ n ih.1 ih.2⟩

/-- **A pool of safe handlers**: the condition holds in all states of all its runs. -/
theorem Good.reach (hp : p.Good G E) (hr : Reach (step handler) ok p q)
    (hcall : ∀ q c, ok q (.call c) → (handler c).Safe G E (fun _ _ => True) q.state) :
    q.Good G E :=
  (hp.run (fun _ => True) trivial hr hcall (fun _ _ h => h) fun _ _ _ h => h).1

/-- The state at the end of a run, and that at its start. -/
theorem Good.rel_reach (hp : p.Good G E) (hr : Reach (step handler) ok p q)
    (hcall : ∀ q c, ok q (.call c) → (handler c).Safe G E (fun _ _ => True) q.state) :
    G.rel p.state q.state :=
  (hp.run (fun q => G.rel p.state q.state) (G.refl p.state) hr hcall (fun _ _ h => h)
    fun _ n hq h => G.trans _ _ _ h (hq.rel_turn n)).2

/-- What a handler of such a pool returns. -/
theorem Thread.reach {Q : σ → α → Prop} {n : ℕ} (ht : p.Thread G Q n) (hp : p.Good G E)
    (hr : Reach (step handler) ok p q)
    (hcall : ∀ q c, ok q (.call c) → (handler c).Safe G E (fun _ _ => True) q.state) :
    q.Thread G Q n :=
  (hp.run (·.Thread G Q n) ht hr hcall (fun _ _ h => h.spawn) fun _ i hq h => h.turn hq i).2

/-- A handler that has ended. -/
def ended : Option α → Handler σ α
  | some a => .ret a
  | none => .throw

/-- Handler `n` goes on to its end, alone. -/
theorem reach_exec (hturn : ∀ p n, ok p (.turn n)) {n : ℕ} (hn : p.threads[n]? = some h) :
    ∃ q, Reach (step handler) ok p q ∧ q.state = (h.exec p.state).2 ∧
      q.threads[n]? = some (ended (h.exec p.state).1) := by
  induction h generalizing p with
  | ret a => exact ⟨p, .refl, rfl, hn⟩
  | throw => exact ⟨p, .refl, rfl, hn⟩
  | act f k ih =>
    have hlt : n < p.threads.length := (List.getElem?_eq_some_iff.mp hn).1
    have hstep : p.turn n = ⟨f p.state, p.threads.set n (k p.state)⟩ := by
      unfold turn
      rw [hn]
    obtain ⟨q, hr, hstate, hq⟩ := ih p.state (p := p.turn n)
      (by rw [hstep]; exact List.getElem?_set_self hlt)
    rw [hstep] at hstate hq
    have hfirst : Reach (step handler) ok p (p.turn n) := Reach.refl.tail (Action.turn n) (hturn p n)
    exact ⟨q, hfirst.trans hr, hstate, hq⟩

/-- The handlers `l` make their next actions in turn. -/
theorem reach_turns (hturn : ∀ p n, ok p (.turn n)) (l : List ℕ) (p : Pool σ α) :
    Reach (step handler) ok p (l.foldl turn p) := by
  induction l generalizing p with
  | nil => exact .refl
  | cons n l ih =>
    have hfirst : Reach (step handler) ok p (p.turn n) := Reach.refl.tail (Action.turn n) (hturn p n)
    exact hfirst.trans (ih (p.turn n))

/-- A call that is answered without interruption. -/
theorem reach_call (hturn : ∀ p n, ok p (.turn n)) {c : C} (hc : ok p (.call c)) :
    ∃ l, Reach (step handler) ok p ⟨((handler c).exec p.state).2, l⟩ := by
  have hcall : Reach (step handler) ok p (p.spawn (handler c)) := Reach.refl.tail (Action.call c) hc
  have hlast : (p.spawn (handler c)).threads[p.threads.length]? = some (handler c) := by simp [spawn]
  obtain ⟨⟨t, l⟩, hr, rfl, -⟩ := reach_exec hturn hlast
  exact ⟨l, hcall.trans hr⟩

/-- The calls `l`, one after the other. -/
theorem reach_calls (hturn : ∀ p n, ok p (.turn n)) (l : List C)
    (hl : ∀ c ∈ l, ∀ p, ok p (.call c)) (p : Pool σ α) :
    ∃ t, Reach (step handler) ok p ⟨l.foldl (fun s c => ((handler c).exec s).2) p.state, t⟩ := by
  induction l generalizing p with
  | nil => exact ⟨p.threads, .refl⟩
  | cons c l ih =>
    obtain ⟨t, hr⟩ : ∃ t, Reach (step handler) ok p ⟨((handler c).exec p.state).2, t⟩ :=
      reach_call hturn (hl c List.mem_cons_self p)
    obtain ⟨t', hr'⟩ := ih (fun c' hc' => hl c' (List.mem_cons_of_mem c hc')) _
    exact ⟨t', hr.trans hr'⟩

/-- If the calls alone are restricted. -/
theorem reach_allowed {Allowed : C → Prop} (l : List C) (hl : ∀ c ∈ l, Allowed c) (p : Pool σ α) :
    ∃ t, Reach (step handler) (fun _ a => ∀ c, a = .call c → Allowed c) p
      ⟨l.foldl (fun s c => ((handler c).exec s).2) p.state, t⟩ :=
  reach_calls (fun _ _ _ h => by cases h) l
    (fun c hc _ _ h => Action.call.inj h ▸ hl c hc) p

end Pool

end Rpc

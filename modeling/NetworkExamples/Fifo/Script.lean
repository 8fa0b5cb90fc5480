import NetworkExamples.Fifo.Net
import Mathlib.Algebra.BigOperators.Group.Finset.Basic
import Mathlib.Algebra.Order.BigOperators.Group.Finset
import Mathlib.Data.Finset.Max
import Mathlib.Data.List.Infix

/-!
# Scripts: every run of a network, from one local check per process

A **script** lists the actions of one process, each with a logical time. A **plan** gives every
process a script, the program it ends at (`stop`), and what may stay unread in each queue
(`left`). The scripts *fit* (`Fits`) if the times of each process do not decrease and, on each
queue, the receives are those of the sends, in order and later.

* `Plan.Runs.hist_prefix`: in every reachable state of every interleaving, what each process has done
  is a prefix of its script. So each receive gets the message that the script says, whatever the
  order of the steps.
* `Plan.Runs.progress`: a state is never stuck before the scripts are done (the next action with
  the least logical time can be taken).
* `Plan.Runs.completes`: every run can be continued to the end of the scripts, where no process
  can act.

The three need no schedule: only that each program follows its own script (`Follows`), and that
the scripts fit.
-/

namespace Fifo

/-- The actions of one process, each with its logical time. -/
abbrev Script (ι M E : Type) := List (ℕ × Event ι M E)

variable {ι M E α β : Type}

/-- The actions of a script. -/
abbrev Script.events (σ : Script ι M E) : List (Event ι M E) := σ.map (·.2)

/-! ## One process -/

/-- The program `p` does the actions `es` and is then at `q`, if its receives return what `es`
says. -/
inductive Follows : Prog ι M E α → List (Event ι M E) → Prog ι M E α → Prop
  | nil (p : Prog ι M E α) : Follows p [] p
  | note {x : E} {k q : Prog ι M E α} {es : List (Event ι M E)} (h : Follows k es q) :
      Follows (.note x k) (.noted x :: es) q
  | send {d : ι} {m : M} {b : Bool} {k q : Prog ι M E α} {es : List (Event ι M E)}
      (h : Follows k es q) : Follows (.send d m b k) (.sent d m b :: es) q
  | recv {a : ι} {sel : M → Bool} {t : Bool} {m : M} {k : Reply M → Prog ι M E α}
      {q : Prog ι M E α} {es : List (Event ι M E)} (hm : sel m = true)
      (h : Follows (k (.got m)) es q) : Follows (.recv a sel t k) (.got a (.got m) :: es) q
  | late {a : ι} {sel : M → Bool} {k : Reply M → Prog ι M E α} {q : Prog ι M E α}
      {es : List (Event ι M E)} (h : Follows (k .timedOut) es q) :
      Follows (.recv a sel true k) (.got a .timedOut :: es) q

namespace Follows

theorem append {p q r : Prog ι M E α} {es es' : List (Event ι M E)} (h : Follows p es q)
    (h' : Follows q es' r) : Follows p (es ++ es') r := by
  induction h with
  | nil => exact h'
  | note _ ih => exact .note (ih h')
  | send _ ih => exact .send (ih h')
  | recv hm _ ih => exact .recv hm (ih h')
  | late _ ih => exact .late (ih h')

theorem congr {p q : Prog ι M E α} {es es' : List (Event ι M E)} (h : Follows p es q)
    (he : es = es') : Follows p es' q :=
  he ▸ h

/-- Sequencing keeps what the first program does. -/
theorem bind_left {p q : Prog ι M E α} {es : List (Event ι M E)} (h : Follows p es q)
    (f : α → Prog ι M E β) : Follows (p.bind f) es (q.bind f) := by
  induction h with
  | nil => exact .nil _
  | note _ ih => exact .note ih
  | send _ ih => exact .send ih
  | recv hm _ ih => exact .recv hm ih
  | late _ ih => exact .late ih

/-- A program that ends with `a` goes on with the continuation at `a`. -/
theorem bind {p : Prog ι M E α} {a : α} {es es' : List (Event ι M E)} (h : Follows p es (.ret a))
    {f : α → Prog ι M E β} {r : Prog ι M E β} (h' : Follows (f a) es' r) :
    Follows (p.bind f) (es ++ es') r :=
  (h.bind_left f).append h'

theorem nil_of_halted {p q : Prog ι M E α} {es : List (Event ι M E)} (h : Follows p es q)
    (hp : p.halted = true) : es = [] := by
  cases h <;> simp_all

theorem eq_of_nil {p q : Prog ι M E α} (h : Follows p [] q) : p = q := by
  cases h; rfl

end Follows

/-! ## One queue -/

section Channel

variable [DecidableEq ι]

/-- The message that an action sends to `d`, and if the send is bounded. -/
def Event.sentTo (d : ι) : Event ι M E → Option (M × Bool)
  | .sent d' m b => if d' = d then some (m, b) else none
  | _ => none

/-- What an action takes from the queue of `a`. -/
def Event.takenFrom (a : ι) : Event ι M E → Option (Reply M)
  | .got a' r => if a' = a then some r else none
  | _ => none

/-- The messages that a script sends to `d`, with their times. -/
def sents (σ : Script ι M E) (d : ι) : List (ℕ × M × Bool) :=
  σ.filterMap fun e => (e.2.sentTo d).map (e.1, ·)

/-- What a script takes from the queue of `a`, with the times. -/
def takes (σ : Script ι M E) (a : ι) : List (ℕ × Reply M) :=
  σ.filterMap fun e => (e.2.takenFrom a).map (e.1, ·)

@[simp] theorem sents_nil (d : ι) : sents ([] : Script ι M E) d = [] := rfl
@[simp] theorem takes_nil (a : ι) : takes ([] : Script ι M E) a = [] := rfl

@[simp] theorem sents_append (σ σ' : Script ι M E) (d : ι) :
    sents (σ ++ σ') d = sents σ d ++ sents σ' d := List.filterMap_append
@[simp] theorem takes_append (σ σ' : Script ι M E) (a : ι) :
    takes (σ ++ σ') a = takes σ a ++ takes σ' a := List.filterMap_append

@[simp] theorem sents_cons_sent (t : ℕ) (d d' : ι) (m : M) (b : Bool) (σ : Script ι M E) :
    sents ((t, .sent d' m b) :: σ) d = if d' = d then (t, m, b) :: sents σ d else sents σ d := by
  by_cases h : d' = d <;> simp [sents, Event.sentTo, h]
@[simp] theorem sents_cons_got (t : ℕ) (d a : ι) (r : Reply M) (σ : Script ι M E) :
    sents ((t, .got a r) :: σ) d = sents σ d := rfl
@[simp] theorem sents_cons_noted (t : ℕ) (d : ι) (x : E) (σ : Script ι M E) :
    sents ((t, .noted x) :: σ) d = sents σ d := rfl

@[simp] theorem takes_cons_got (t : ℕ) (a a' : ι) (r : Reply M) (σ : Script ι M E) :
    takes ((t, .got a' r) :: σ) a = if a' = a then (t, r) :: takes σ a else takes σ a := by
  by_cases h : a' = a <;> simp [takes, Event.takenFrom, h]
@[simp] theorem takes_cons_sent (t : ℕ) (a d : ι) (m : M) (b : Bool) (σ : Script ι M E) :
    takes ((t, .sent d m b) :: σ) a = takes σ a := rfl
@[simp] theorem takes_cons_noted (t : ℕ) (a : ι) (x : E) (σ : Script ι M E) :
    takes ((t, .noted x) :: σ) a = takes σ a := rfl

/-- A sent message stands in the script, at its time. -/
theorem mem_of_sents {σ : Script ι M E} {d : ι} {t : ℕ} {m : M} {b : Bool}
    (h : (t, m, b) ∈ sents σ d) : (t, .sent d m b) ∈ σ := by
  simp only [sents, List.mem_filterMap, Option.map_eq_some_iff, Prod.mk.injEq] at h
  obtain ⟨⟨t', e⟩, he, ⟨m', b'⟩, hs, rfl, rfl, rfl⟩ := h
  cases e with
  | sent d' m'' b'' =>
    simp only [Event.sentTo] at hs
    split at hs
    · next hd => cases hs; exact hd ▸ he
    · cases hs
  | got | noted => cases hs

/-- What stays in a queue: `none`: its receiver ends, and only bounded sends are unread;
`some l`: the messages `l`. -/
def Unread : Option (List M) → List (ℕ × M × Bool) → Prop
  | none, l => ∀ x ∈ l, x.2.2 = true
  | some l', l => l.map (·.2.1) = l'

/-- The receives on one queue fit its sends: each takes the next message, which was sent before;
a receive that gives up does so after the last message. -/
inductive Chan (left : Option (List M)) : List (ℕ × M × Bool) → List (ℕ × Reply M) → Prop
  | nil {l : List (ℕ × M × Bool)} (h : Unread left l) : Chan left l []
  | got {t u : ℕ} {m : M} {b : Bool} {l : List (ℕ × M × Bool)} {r : List (ℕ × Reply M)}
      (h : t < u) (hl : Chan left l r) : Chan left ((t, m, b) :: l) ((u, .got m) :: r)
  | late {u : ℕ} {r : List (ℕ × Reply M)} (h : Chan left [] r) : Chan left [] ((u, .timedOut) :: r)

theorem Chan.unread {left : Option (List M)} {l : List (ℕ × M × Bool)} (h : Chan left l []) :
    Unread left l := by
  cases h with
  | nil h => exact h

theorem Chan.drop {left : Option (List M)} {l l' : List (ℕ × M × Bool)} {x : ℕ × M × Bool}
    (hl : left = none) (h : Chan left (l ++ x :: l') []) : Chan left (l ++ l') [] := by
  subst hl
  exact .nil fun y hy => h.unread y (by rcases List.mem_append.mp hy with h | h <;> simp [h])

end Channel

/-! ## The network -/

/-- The scripts of all processes, the programs at their ends, and what stays in the queues. -/
structure Plan (ι M E α : Type) where
  script : ι → Script ι M E
  stop : ι → Prog ι M E α
  left : ι → ι → Option (List M)

namespace Plan

variable [DecidableEq ι]

/-- The scripts `σ`, with the messages `tq` in the queues, fit together. -/
structure Fits (P : Plan ι M E α) (tq : ι → ι → List (ℕ × M × Bool)) (σ : ι → Script ι M E) :
    Prop where
  /-- The times of a process do not decrease. -/
  sorted : ∀ i, (σ i).Pairwise (·.1 ≤ ·.1)
  chan : ∀ a b, Chan (P.left a b) (tq a b ++ sents (σ a) b) (takes (σ b) a)
  /-- A process gives up waiting only for one that has ended by then. -/
  late : ∀ i u a, (u, .got a .timedOut) ∈ σ i → (P.stop a).halted = true ∧ ∀ e ∈ σ a, e.1 < u

/-- Process `i` cannot act at the end of its script. -/
inductive Inert (P : Plan ι M E α) (i : ι) : Prop
  | halted (h : (P.stop i).halted = true)
  | spin (h : P.stop i = .spin)
  | recv {a : ι} {sel : M → Bool} {k : Reply M → Prog ι M E α} (h : P.stop i = .recv a sel false k)
      (hl : P.left a i = some [])
  | send {d : ι} {m : M} {k : Prog ι M E α} (h : P.stop i = .send d m false k)
      (hd : (P.stop d).halted = true)

/-- A process that ends at an unbounded send has given up waiting for its destination before. -/
def Blocked (P : Plan ι M E α) (σ : ι → Script ι M E) : Prop :=
  ∀ i d m b k, P.stop i = .send d m b k → (∃ u, (u, .got d .timedOut) ∈ σ i) ∨ σ d = []

/-- The programs `p` run by the plan: the check of each process on its own, and of each queue. -/
structure Runs (P : Plan ι M E α) (nodes : Finset ι) (p : ι → Prog ι M E α) : Prop where
  fits : P.Fits (fun _ _ => []) P.script
  follows : ∀ i, Follows (p i) (P.script i).events (P.stop i)
  halts : ∀ a b, (P.stop b).halted = true → P.left a b = none
  inert : ∀ i, P.Inert i
  blocked : P.Blocked P.script
  outside : ∀ i, i ∉ nodes → P.script i = []

/-- The invariant of the runs: `σ` is what the scripts still have to do. -/
structure Inv (P : Plan ι M E α) (s : Net ι M E α) (tq : ι → ι → List (ℕ × M × Bool))
    (σ : ι → Script ι M E) : Prop where
  fits : P.Fits tq σ
  queue : ∀ a b, s.queue a b = (tq a b).map (·.2.1)
  follows : ∀ i, Follows (s.prog i) (σ i).events (P.stop i)
  hist : ∀ i, s.hist i ++ (σ i).events = (P.script i).events
  blocked : P.Blocked σ

section Invariant

variable {P : Plan ι M E α} {s s' : Net ι M E α} {tq tq' : ι → ι → List (ℕ × M × Bool)}
  {σ : ι → Script ι M E} {i : ι} {e : ℕ × Event ι M E} {rest : Script ι M E}

/-- A process that has ended has done its script. -/
theorem Inv.script_nil (h : P.Inv s tq σ) (hi : (s.prog i).halted = true) : σ i = [] :=
  List.map_eq_nil_iff.mp ((h.follows i).nil_of_halted hi)

theorem Inv.prog_eq (h : P.Inv s tq σ) (hi : σ i = []) : s.prog i = P.stop i := by
  have hf := h.follows i
  rw [hi] at hf
  exact hf.eq_of_nil

/-- At the end of its script a process cannot act. -/
theorem Inv.not_enabled (h : P.Inv s tq σ) (hin : P.Inert i) (hi : σ i = []) :
    ¬ Net.Enabled false s i := by
  have hp := h.prog_eq hi
  rintro ⟨s', hs⟩
  rcases hin with hh | hh | ⟨hh, hl⟩ | ⟨hh, hd⟩
  · exact Net.not_enabled_of_halted (hp ▸ hh) ⟨s', hs⟩
  · rcases Net.stepBy_iff.mp hs with ⟨_, _, hq⟩ | ⟨_, _, _, _, hq, _⟩ | ⟨_, _, _, hq, _⟩ |
      ⟨_, _, _, _, _, _, hq, _⟩ | ⟨_, _, _, hq, _, _⟩ <;> simp [hp, hh] at hq
  · rename_i a _ _
    have hc := h.fits.chan a i
    rw [hi, hl] at hc
    -- Nothing is left for the last receive.
    have hq : s.queue a i = [] := by
      have hu : _ = [] := hc.unread
      rw [h.queue, (List.append_eq_nil_iff.mp (List.map_eq_nil_iff.mp hu)).1]
      rfl
    rcases Net.stepBy_iff.mp hs with ⟨_, _, hr⟩ | ⟨_, _, _, _, hr, _⟩ | ⟨_, _, _, hr, _⟩ |
      ⟨_, _, _, _, _, _, hr, hne⟩ | ⟨_, _, _, hr, _, _⟩ <;> simp only [hp, hh] at hr <;> cases hr
    simp [hq] at hne
  · rename_i d _ _
    have hσ : σ d = [] := by
      rcases h.blocked _ _ _ _ _ hh with ⟨u, hu⟩ | hd
      · simp [hi] at hu
      · exact hd
    have hdd : (s.prog d).halted = true := by rw [h.prog_eq hσ]; exact hd
    rcases Net.stepBy_iff.mp hs with ⟨_, _, hr⟩ | ⟨_, _, _, _, hr, hne⟩ | ⟨_, _, _, hr, _⟩ |
      ⟨_, _, _, _, _, _, hr, _⟩ | ⟨_, _, _, hr, _, _⟩ <;> simp only [hp, hh] at hr <;> cases hr
    simp [hdd] at hne

theorem Blocked.next (h : P.Blocked σ) (hi : σ i = e :: rest)
    (he : ∀ d, e.2 = .got d .timedOut → σ d = []) : P.Blocked (Function.update σ i rest) := by
  intro j d m b k hj
  rcases h j d m b k hj with ⟨u, hu⟩ | hd
  · by_cases hji : j = i
    · subst hji
      rw [hi] at hu
      rcases List.mem_cons.mp hu with rfl | hu
      · have hd := he d rfl
        have hdj : d ≠ j := by rintro rfl; simp [hd] at hi
        exact .inr (by simp [hdj, hd])
      · exact .inl ⟨u, by simpa using hu⟩
    · exact .inl ⟨u, by simpa [hji] using hu⟩
  · have hdi : d ≠ i := by rintro rfl; simp [hd] at hi
    exact .inr (by simp [hdi, hd])

/-- One action done: the rest of the scripts fits if the queues still do. -/
theorem Fits.next (h : P.Fits tq σ) (hi : σ i = e :: rest)
    (hc : ∀ a b, Chan (P.left a b) (tq' a b ++ sents (Function.update σ i rest a) b)
      (takes (Function.update σ i rest b) a)) : P.Fits tq' (Function.update σ i rest) := by
  have hsub : ∀ j, ∀ x ∈ Function.update σ i rest j, x ∈ σ j := by
    intro j x hx
    by_cases hj : j = i
    · subst hj; rw [hi]; exact List.mem_cons_of_mem _ (by simpa using hx)
    · simpa [hj] using hx
  refine ⟨fun j => ?_, hc, fun j u a hu => ?_⟩
  · by_cases hj : j = i
    · subst hj
      have := h.sorted j
      rw [hi] at this
      simpa using this.tail
    · simpa [hj] using h.sorted j
  · obtain ⟨h1, h2⟩ := h.late j u a (hsub j _ hu)
    exact ⟨h1, fun x hx => h2 x (hsub a x hx)⟩

/-- The parts of the invariant that an action `e` of process `i` changes in the same way
whatever it does. -/
theorem Inv.next (h : P.Inv s tq σ) (hi : σ i = e :: rest) {k : Prog ι M E α}
    (hprog : s'.prog = Function.update s.prog i k)
    (hhist : s'.hist = Function.update s.hist i (s.hist i ++ [e.2]))
    (hf : Follows k rest.events (P.stop i)) (hq : ∀ a b, s'.queue a b = (tq' a b).map (·.2.1))
    (he : ∀ d, e.2 = .got d .timedOut → σ d = [])
    (hc : ∀ a b, Chan (P.left a b) (tq' a b ++ sents (Function.update σ i rest a) b)
      (takes (Function.update σ i rest b) a)) :
    P.Inv s' tq' (Function.update σ i rest) := by
  refine ⟨h.fits.next hi hc, hq, fun j => ?_, fun j => ?_, h.blocked.next hi he⟩
  · rw [hprog]
    by_cases hj : j = i
    · subst hj
      simpa using hf
    · rw [Function.update_of_ne hj, Function.update_of_ne hj]
      exact h.follows j
  · rw [hhist]
    by_cases hj : j = i
    · subst hj
      rw [Function.update_self, Function.update_self, ← h.hist j, hi]
      simp
    · rw [Function.update_of_ne hj, Function.update_of_ne hj]
      exact h.hist j

/-- The sends and the takes of the other scripts, and of `i` up to its first action. -/
theorem sents_update (hi : σ i = e :: rest) {a b : ι} (he : a = i → e.2.sentTo b = none) :
    sents (Function.update σ i rest a) b = sents (σ a) b := by
  by_cases ha : a = i
  · subst ha
    rw [Function.update_self, hi]
    obtain ⟨t, ev⟩ := e
    simp only [sents, List.filterMap_cons]
    rw [show ev.sentTo b = none from he rfl]
    rfl
  · rw [Function.update_of_ne ha]

theorem takes_update (hi : σ i = e :: rest) {a b : ι} (he : b = i → e.2.takenFrom a = none) :
    takes (Function.update σ i rest b) a = takes (σ b) a := by
  by_cases hb : b = i
  · subst hb
    rw [Function.update_self, hi]
    obtain ⟨t, ev⟩ := e
    simp only [takes, List.filterMap_cons]
    rw [show ev.takenFrom a = none from he rfl]
    rfl
  · rw [Function.update_of_ne hb]

/-- The messages of a queue that is set. -/
theorem queue_setQueue (hq : ∀ a b, s.queue a b = (tq a b).map (·.2.1)) {a b : ι} {q : List M}
    {l : List (ℕ × M × Bool)} (hl : q = l.map (·.2.1)) (c d : ι) : (s.setQueue a b q).queue c d =
      (Function.update tq a (Function.update (tq a) b l) c d).map (·.2.1) := by
  by_cases hcd : c = a ∧ d = b
  · obtain ⟨rfl, rfl⟩ := hcd
    simp [hl]
  · rw [Net.setQueue_queue_ne _ _ hcd, hq]
    by_cases hc : c = a
    · subst hc
      have hd : d ≠ b := fun hd => hcd ⟨rfl, hd⟩
      simp [hd]
    · simp [hc]

/-! ### The steps, one for each kind of action -/

section Steps

variable {t : ℕ} {ev : Event ι M E}

theorem Inv.step_note (h : P.Inv s tq σ) (hi : σ i = (t, ev) :: rest) {x : E} {k : Prog ι M E α}
    (hp : s.prog i = .note x k) : P.Inv (s.act i k (.noted x)) tq (Function.update σ i rest) := by
  have hf := h.follows i
  rw [hi, hp] at hf
  cases hf with
  | note hf =>
    refine h.next hi rfl rfl hf h.queue (fun _ hc => by cases hc) fun a b => ?_
    rw [sents_update hi fun _ => rfl, takes_update hi fun _ => rfl]
    exact h.fits.chan a b

/-- The message moves from the script to the end of the queue. -/
theorem Inv.step_send (h : P.Inv s tq σ) (hi : σ i = (t, ev) :: rest) {d : ι} {m : M} {b : Bool}
    {k : Prog ι M E α} (hp : s.prog i = .send d m b k) :
    P.Inv ((s.act i k (.sent d m b)).setQueue i d (s.queue i d ++ [m]))
      (Function.update tq i (Function.update (tq i) d (tq i d ++ [(t, m, b)])))
      (Function.update σ i rest) := by
  have hf := h.follows i
  rw [hi, hp] at hf
  cases hf with
  | send hf =>
    have hqueue : s.queue i d ++ [m] = (tq i d ++ [(t, m, b)]).map (·.2.1) := by simp [h.queue]
    refine h.next hi rfl rfl hf (queue_setQueue (s := s.act i k _) h.queue hqueue)
      (fun _ hc => by cases hc) fun a c => ?_
    rw [takes_update hi fun _ => rfl]
    have hch := h.fits.chan a c
    by_cases ha : a = i
    · subst ha
      rw [hi] at hch
      by_cases hc : c = d
      · subst hc
        simpa using hch
      · simpa [hc, Ne.symm hc] using hch
    · simpa [ha] using hch

/-- Nobody reads the message: its receiver has ended. -/
theorem Inv.step_drop (hhalt : ∀ a b, (P.stop b).halted = true → P.left a b = none)
    (h : P.Inv s tq σ) (hi : σ i = (t, ev) :: rest) {d : ι} {m : M} {k : Prog ι M E α}
    (hp : s.prog i = .send d m true k) (hd : (s.prog d).halted = true) :
    P.Inv (s.act i k (.sent d m true)) tq (Function.update σ i rest) := by
  have hf := h.follows i
  rw [hi, hp] at hf
  cases hf with
  | send hf =>
    have hσd : σ d = [] := h.script_nil hd
    refine h.next hi rfl rfl hf h.queue (fun _ hc => by cases hc) fun a c => ?_
    rw [takes_update hi fun _ => rfl]
    have hch := h.fits.chan a c
    by_cases ha : a = i
    · subst ha
      rw [hi] at hch
      by_cases hc : c = d
      · subst hc
        have hl : P.left a c = none := hhalt a c (by rw [← h.prog_eq hσd]; exact hd)
        rw [hσd] at hch ⊢
        simp only [sents_cons_sent, takes_nil] at hch
        simpa using hch.drop hl
      · simpa [Ne.symm hc] using hch
    · simpa [ha] using hch

/-- The channels that an action does not use. -/
theorem Inv.chan_ne {d : ι} {r : Reply M} (h : P.Inv s tq σ) (hi : σ i = (t, .got d r) :: rest)
    {a c : ι} (hne : ¬ (a = d ∧ c = i)) : Chan (P.left a c) (tq a c ++ sents (σ a) c)
      (takes (Function.update σ i rest c) a) := by
  have hch := h.fits.chan a c
  by_cases hc : c = i
  · subst hc
    have ha : a ≠ d := fun ha => hne ⟨ha, rfl⟩
    rw [hi] at hch
    simpa [Ne.symm ha] using hch
  · rwa [Function.update_of_ne hc]

/-- The front of the queue is the message that the script says. -/
theorem Inv.step_recv (h : P.Inv s tq σ) (hi : σ i = (t, ev) :: rest) {a : ι} {sel : M → Bool}
    {tm : Bool} {k : Reply M → Prog ι M E α} {m : M} {q : List M}
    (hp : s.prog i = .recv a sel tm k) (hq : s.queue a i = m :: q) : ∃ tq',
      P.Inv ((s.act i (k (scan sel (m :: q)).1) (.got a (scan sel (m :: q)).1)).setQueue a i
        (scan sel (m :: q)).2) tq' (Function.update σ i rest) := by
  have hf := h.follows i
  rw [hi, hp] at hf
  have hch := h.fits.chan a i
  obtain ⟨x, l, hx, rfl, rfl⟩ := List.map_eq_cons_iff.mp ((h.queue a i).symm.trans hq)
  rw [hi, hx, List.cons_append] at hch
  cases hf with
  | recv hm hf =>
    simp only [takes_cons_got, if_true] at hch
    cases hch with
    | got _ hch =>
      rw [scan_front hm]
      refine ⟨Function.update tq a (Function.update (tq a) i l), h.next hi rfl rfl hf
        (queue_setQueue (s := s.act i _ _) h.queue rfl) (fun _ hc => by cases hc) fun c d => ?_⟩
      rw [sents_update hi fun _ => rfl]
      by_cases hcd : c = a ∧ d = i
      · obtain ⟨rfl, rfl⟩ := hcd
        simpa using hch
      · have hqueue : Function.update tq a (Function.update (tq a) i l) c d = tq c d := by
          by_cases hc : c = a
          · subst hc
            have hd : d ≠ i := fun hd => hcd ⟨rfl, hd⟩
            simp [hd]
          · simp [hc]
        rw [hqueue]
        exact h.chan_ne hi hcd
  | late =>
    simp only [takes_cons_got, if_true] at hch
    cases hch

/-- The sender has ended, and its queue is empty. -/
theorem Inv.step_late (h : P.Inv s tq σ) (hi : σ i = (t, ev) :: rest) {a : ι} {sel : M → Bool}
    {k : Reply M → Prog ι M E α} (hp : s.prog i = .recv a sel true k) (hq : s.queue a i = [])
    (ha : (s.prog a).halted = true) :
    P.Inv (s.act i (k .timedOut) (.got a .timedOut)) tq (Function.update σ i rest) := by
  have hf := h.follows i
  rw [hi, hp] at hf
  have hch := h.fits.chan a i
  have hσa : σ a = [] := h.script_nil ha
  rw [h.queue, List.map_eq_nil_iff] at hq
  rw [hi, hq, hσa, sents_nil, List.append_nil] at hch
  cases hf with
  | recv hm hf =>
    -- No message can be awaited.
    simp only [takes_cons_got, if_true] at hch
    cases hch
  | late hf =>
    refine h.next hi rfl rfl hf h.queue (fun d hc => by cases hc; exact hσa) fun c d => ?_
    rw [sents_update hi fun _ => rfl]
    by_cases hcd : c = a ∧ d = i
    · obtain ⟨rfl, rfl⟩ := hcd
      simp only [takes_cons_got, if_true] at hch
      cases hch with
      | late hch => simpa [hq, hσa] using hch
    · exact h.chan_ne hi hcd

end Steps

/-- **One step keeps the invariant**, and does the next action of some script. -/
theorem Inv.step (hhalt : ∀ a b, (P.stop b).halted = true → P.left a b = none)
    (hin : ∀ i, P.Inert i) (h : P.Inv s tq σ) (hs : Net.StepBy false i s s') :
    ∃ tq' e rest, σ i = e :: rest ∧ P.Inv s' tq' (Function.update σ i rest) := by
  cases hi : σ i with
  | nil => exact absurd ⟨s', hs⟩ (h.not_enabled (hin i) hi)
  | cons e rest =>
    rcases Net.stepBy_iff.mp hs with ⟨x, k, hp⟩ | ⟨d, m, b, k, hp, -⟩ | ⟨d, m, k, hp, hd⟩ |
      ⟨a, sel, tm, k, m, q, hp, hq⟩ | ⟨a, sel, k, hp, hq, ha⟩
    · exact ⟨_, e, rest, rfl, h.step_note hi hp⟩
    · exact ⟨_, e, rest, rfl, h.step_send hi hp⟩
    · exact ⟨_, e, rest, rfl, h.step_drop hhalt hi hp hd⟩
    · obtain ⟨tq', hinv⟩ := h.step_recv hi hp hq
      exact ⟨tq', e, rest, rfl, hinv⟩
    · exact ⟨_, e, rest, rfl, h.step_late hi hp hq (ha.resolve_left Bool.false_ne_true)⟩

/-! ### Progress -/

/-- The next action with the least time. -/
theorem Inv.exists_least {nodes : Finset ι} (hout : ∀ i, i ∉ nodes → σ i = []) (h : P.Inv s tq σ)
    (hne : ∃ i, σ i ≠ []) : ∃ i u ev rest, σ i = (u, ev) :: rest ∧ ∀ a, ∀ x ∈ σ a, u ≤ x.1 := by
  classical
  have hnodes : ∀ j, σ j ≠ [] → j ∈ nodes.filter fun i => σ i ≠ [] := fun j hj =>
    Finset.mem_filter.mpr ⟨by_contra fun hn => hj (hout j hn), hj⟩
  obtain ⟨j, hj⟩ := hne
  obtain ⟨i, hi, hmin⟩ := (nodes.filter fun i => σ i ≠ []).exists_min_image
    (fun i => ((σ i).head?.map (·.1)).getD 0) ⟨j, hnodes j hj⟩
  obtain ⟨⟨u, ev⟩, rest, hσ⟩ := List.exists_cons_of_ne_nil (Finset.mem_filter.mp hi).2
  refine ⟨i, u, ev, rest, hσ, fun a x hx => ?_⟩
  cases ha : σ a with
  | nil => simp [ha] at hx
  | cons y l =>
    have hfirst := hmin a (hnodes a (by simp [ha]))
    rw [hσ, ha] at hfirst
    simp only [List.head?_cons, Option.map_some, Option.getD_some] at hfirst
    have hsorted := h.fits.sorted a
    rw [ha] at hsorted hx
    rcases List.mem_cons.mp hx with rfl | hx
    · exact hfirst
    · exact le_trans hfirst (List.rel_of_pairwise_cons hsorted hx)

section Progress

variable {u : ℕ} {ev : Event ι M E}

/-- An unbounded send to a process that has ended is in no script. -/
theorem Inv.enabled_send (hhalt : ∀ a b, (P.stop b).halted = true → P.left a b = none)
    (h : P.Inv s tq σ) {d : ι} {m : M} {b : Bool} (hi : σ i = (u, .sent d m b) :: rest)
    {k : Prog ι M E α} (hp : s.prog i = .send d m b k) : Net.Enabled false s i := by
  cases hd : (s.prog d).halted with
  | false => exact ⟨_, Net.stepBy_iff.mpr (.send d m b k hp hd)⟩
  | true =>
    have hσd : σ d = [] := h.script_nil hd
    have hch := h.fits.chan i d
    rw [hσd, hi, hhalt i d (by rw [← h.prog_eq hσd]; exact hd)] at hch
    have hb : b = true := hch.unread (u, m, b) (by simp)
    subst hb
    exact ⟨_, Net.stepBy_iff.mpr (.drop d m k hp hd)⟩

/-- The message is in the queue: its send was before. -/
theorem Inv.enabled_recv (h : P.Inv s tq σ) {a : ι} {m : M}
    (hi : σ i = (u, .got a (.got m)) :: rest) (hle : ∀ x ∈ σ a, u ≤ x.1) {sel : M → Bool}
    {tm : Bool} {k : Reply M → Prog ι M E α} (hp : s.prog i = .recv a sel tm k) :
    Net.Enabled false s i := by
  cases htq : tq a i with
  | cons x l =>
    have hq : s.queue a i = x.2.1 :: l.map (·.2.1) := by rw [h.queue, htq]; rfl
    exact ⟨_, Net.stepBy_iff.mpr (.recv a sel tm k _ _ hp hq)⟩
  | nil =>
    have hch := h.fits.chan a i
    rw [hi, htq, List.nil_append] at hch
    simp only [takes_cons_got, if_true] at hch
    generalize hout : sents (σ a) i = out at hch
    cases hch with
    | @got t _ _ b l _ htu hch =>
      have hmem : (t, .sent i m b) ∈ σ a := mem_of_sents (by simp [hout])
      exact absurd (hle _ hmem) (Nat.not_le.mpr htu)

/-- The sender has ended, and its queue is empty. -/
theorem Inv.enabled_late (h : P.Inv s tq σ) {a : ι} (hi : σ i = (u, .got a .timedOut) :: rest)
    (hle : ∀ x ∈ σ a, u ≤ x.1) {sel : M → Bool} {k : Reply M → Prog ι M E α}
    (hp : s.prog i = .recv a sel true k) : Net.Enabled false s i := by
  obtain ⟨hstop, hlt⟩ := h.fits.late i u a (by rw [hi]; simp)
  have hσa : σ a = [] := by
    refine List.eq_nil_iff_forall_not_mem.mpr fun x hx => ?_
    exact absurd (hle x hx) (Nat.not_le.mpr (hlt x hx))
  have hch := h.fits.chan a i
  rw [hi, hσa, sents_nil, List.append_nil] at hch
  simp only [takes_cons_got, if_true] at hch
  generalize htq : tq a i = out at hch
  cases hch with
  | late =>
    have hq : s.queue a i = [] := by rw [h.queue, htq]; rfl
    have hend : (s.prog a).halted = true := by rw [h.prog_eq hσa]; exact hstop
    exact ⟨_, Net.stepBy_iff.mpr (.late a sel k hp hq (.inr hend))⟩

end Progress

/-- **A state whose scripts are not done is not stuck**: the next action with the least time can
be taken. -/
theorem Inv.progress {nodes : Finset ι} (hout : ∀ i, i ∉ nodes → σ i = [])
    (hhalt : ∀ a b, (P.stop b).halted = true → P.left a b = none) (h : P.Inv s tq σ)
    (hne : ∃ i, σ i ≠ []) : ∃ i, Net.Enabled false s i := by
  obtain ⟨i, u, ev, rest, hi, hle⟩ := h.exists_least hout hne
  refine ⟨i, ?_⟩
  have hf := h.follows i
  rw [hi] at hf
  generalize hp : s.prog i = p at hf
  cases hf with
  | note => exact ⟨_, Net.stepBy_iff.mpr (.note _ _ hp)⟩
  | send => exact h.enabled_send hhalt hi hp
  | recv => exact h.enabled_recv hi (hle _) hp
  | late => exact h.enabled_late hi (hle _) hp

end Invariant

namespace Runs

variable {P : Plan ι M E α} {nodes : Finset ι} {p : ι → Prog ι M E α} {s : Net ι M E α}

/-- The invariant holds in every reachable state. -/
theorem inv (h : P.Runs nodes p) (hs : Net.Reach false (Net.init p) s) :
    ∃ tq σ, P.Inv s tq σ ∧ ∀ i, i ∉ nodes → σ i = [] := by
  induction hs with
  | refl =>
    exact ⟨fun _ _ => [], P.script, ⟨h.fits, fun _ _ => rfl, h.follows, fun _ => rfl, h.blocked⟩,
      h.outside⟩
  | tail _ hst ih =>
    obtain ⟨tq, σ, hinv, hout⟩ := ih
    obtain ⟨i, hst⟩ := hst
    obtain ⟨tq', e, rest, hi, hinv'⟩ := hinv.step h.halts h.inert hst
    refine ⟨tq', _, hinv', fun j hj => ?_⟩
    have hji : j ≠ i := by rintro rfl; simp [hout j hj] at hi
    simpa [hji] using hout j hj

/-- **In every interleaving, each process follows its script.** -/
theorem hist_prefix (h : P.Runs nodes p) (hs : Net.Reach false (Net.init p) s) (i : ι) :
    s.hist i <+: (P.script i).events := by
  obtain ⟨tq, σ, hinv, -⟩ := h.inv hs
  exact ⟨_, hinv.hist i⟩

/-- Where a process is in its program, given what it has done. -/
theorem follows_rest (h : P.Runs nodes p) (hs : Net.Reach false (Net.init p) s) (i : ι) :
    ∃ es, s.hist i ++ es = (P.script i).events ∧ Follows (s.prog i) es (P.stop i) := by
  obtain ⟨tq, σ, hinv, -⟩ := h.inv hs
  exact ⟨_, hinv.hist i, hinv.follows i⟩

/-- A process that has done its script is at its end. -/
theorem prog_eq_stop (h : P.Runs nodes p) (hs : Net.Reach false (Net.init p) s) {i : ι}
    (hi : s.hist i = (P.script i).events) : s.prog i = P.stop i := by
  obtain ⟨es, he, hf⟩ := h.follows_rest hs i
  have : es = [] := by simpa [hi] using he
  subst this
  exact hf.eq_of_nil

/-- A process that has ended has done its whole script. -/
theorem hist_eq_of_halted (h : P.Runs nodes p) (hs : Net.Reach false (Net.init p) s) {i : ι}
    (hi : (s.prog i).halted = true) : s.hist i = (P.script i).events := by
  obtain ⟨es, he, hf⟩ := h.follows_rest hs i
  rw [hf.nil_of_halted hi, List.append_nil] at he
  exact he

/-- **No state is stuck before every script is done.** -/
theorem progress (h : P.Runs nodes p) (hs : Net.Reach false (Net.init p) s)
    (hne : ∃ i, s.hist i ≠ (P.script i).events) : ∃ i, Net.Enabled false s i := by
  obtain ⟨tq, σ, hinv, hout⟩ := h.inv hs
  obtain ⟨i, hi⟩ := hne
  refine hinv.progress hout h.halts ⟨i, fun hσ => hi ?_⟩
  simpa [hσ] using hinv.hist i

/-- Only the processes of the network act. -/
theorem mem_of_enabled (h : P.Runs nodes p) (hp : ∀ i, i ∉ nodes → (p i).halted = true)
    (hs : Net.Reach false (Net.init p) s) {i : ι} (he : Net.Enabled false s i) : i ∈ nodes := by
  by_contra hi
  have hscript := h.outside i hi
  have hhist : s.hist i = (P.script i).events := by
    have hpre := h.hist_prefix hs i
    rw [hscript] at hpre ⊢
    exact List.prefix_nil.mp hpre
  have hstop : p i = P.stop i := by
    have hf := h.follows i
    rw [hscript] at hf
    exact hf.eq_of_nil
  have hprog := h.prog_eq_stop hs hhist
  rw [← hstop] at hprog
  exact Net.not_enabled_of_halted (hprog ▸ hp i hi) he

/-- The actions that the processes still have to do. -/
def todo (P : Plan ι M E α) (nodes : Finset ι) (s : Net ι M E α) : ℕ :=
  ∑ i ∈ nodes, ((P.script i).length - (s.hist i).length)

theorem todo_lt (h : P.Runs nodes p) {s' : Net ι M E α} (hs : Net.Reach false (Net.init p) s)
    (hst : Net.Step false s s') : todo P nodes s' < todo P nodes s := by
  obtain ⟨tq, σ, hinv, hout⟩ := h.inv hs
  obtain ⟨i, hst⟩ := hst
  obtain ⟨tq', e, rest, hi, hinv'⟩ := hinv.step h.halts h.inert hst
  have hlen : ∀ j, (s.hist j).length + (σ j).length = (P.script j).length := fun j => by
    simpa using congrArg List.length (hinv.hist j)
  have hlen' : ∀ j, (s'.hist j).length + (Function.update σ i rest j).length =
      (P.script j).length := fun j => by simpa using congrArg List.length (hinv'.hist j)
  have hin : i ∈ nodes := by_contra fun hn => by simp [hout i hn] at hi
  refine Finset.sum_lt_sum (fun j _ => ?_) ⟨i, hin, ?_⟩
  · have h1 := hlen j
    have h2 := hlen' j
    by_cases hj : j = i
    · subst hj
      rw [hi] at h1
      simp only [Function.update_self, List.length_cons] at h1 h2
      omega
    · rw [Function.update_of_ne hj] at h2; omega
  · have h1 := hlen i
    have h2 := hlen' i
    rw [hi] at h1
    simp only [Function.update_self, List.length_cons] at h1 h2
    omega

/-- **Every run can be continued to the end of the scripts**, where no process can act. -/
theorem completes (h : P.Runs nodes p) (hs : Net.Reach false (Net.init p) s) :
    ∃ s', Net.Reach false s s' ∧ (∀ i, s'.hist i = (P.script i).events) ∧
      (∀ i, s'.prog i = P.stop i) ∧ ∀ i, ¬ Net.Enabled false s' i := by
  generalize hn : todo P nodes s = n
  induction n using Nat.strong_induction_on generalizing s with
  | _ n ih =>
    by_cases hd : ∀ i, s.hist i = (P.script i).events
    · obtain ⟨tq, σ, hinv, -⟩ := h.inv hs
      have hσ : ∀ i, σ i = [] := fun i => by simpa [hd i] using hinv.hist i
      exact ⟨s, .refl, hd, fun i => h.prog_eq_stop hs (hd i),
        fun i => hinv.not_enabled (h.inert i) (hσ i)⟩
    · obtain ⟨i, s₁, hst⟩ := h.progress hs (not_forall.mp hd)
      obtain ⟨s', hr, hs'⟩ := ih _ (hn ▸ h.todo_lt hs ⟨i, hst⟩) (hs.tail ⟨i, hst⟩) rfl
      exact ⟨s', .head ⟨i, hst⟩ hr, hs'⟩

end Runs

end Plan

end Fifo

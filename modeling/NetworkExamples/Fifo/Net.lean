import NetworkExamples.Fifo.Prog

/-!
# Networks of sequential processes

A network runs one program per process over reliable FIFO queues, one queue for each ordered pair
of processes. A run is any interleaving: in each step one process acts (`Net.move`), or a timed
receive on an empty queue gives up (`Net.expire`). With `early = false` it gives up only on a
sender that has ended; with `early = true` at any moment.

Each process keeps its history (`Net.hist`), a ghost list of what it has done. It is what the
theorems speak about: a process's place in its code, what it received, the notes it passed.
-/

namespace Fifo

/-- One action of a process. -/
inductive Event (ι M E : Type) where
  | sent (dst : ι) (m : M) (bounded : Bool)
  | got (src : ι) (r : Reply M)
  | noted (x : E)

/-- A network: the program of each process, `queue src dst`, and the ghost histories. -/
structure Net (ι M E α : Type) where
  prog : ι → Prog ι M E α
  queue : ι → ι → List M
  hist : ι → List (Event ι M E)

namespace Net

variable {ι M E α : Type}

/-- Every process at the start of its program, every queue empty. -/
def init (p : ι → Prog ι M E α) : Net ι M E α where
  prog := p
  queue _ _ := []
  hist _ := []

variable [DecidableEq ι]

/-- Process `i` does `e` and goes on with `k`. -/
def act (s : Net ι M E α) (i : ι) (k : Prog ι M E α) (e : Event ι M E) : Net ι M E α :=
  { s with prog := Function.update s.prog i k
           hist := Function.update s.hist i (s.hist i ++ [e]) }

/-- The queue from `a` to `b` becomes `q`. -/
def setQueue (s : Net ι M E α) (a b : ι) (q : List M) : Net ι M E α :=
  { s with queue := Function.update s.queue a (Function.update (s.queue a) b q) }

/-- The next action of process `i`, if it can act. -/
def move (s : Net ι M E α) (i : ι) : Option (Net ι M E α) :=
  match s.prog i with
  | .ret _ | .fail _ | .spin => none
  | .note x k => some (s.act i k (.noted x))
  | .send d m b k =>
    if (s.prog d).halted then
      if b then some (s.act i k (.sent d m b)) else none
    else some ((s.act i k (.sent d m b)).setQueue i d (s.queue i d ++ [m]))
  | .recv a sel _ k =>
    if (s.queue a i).isEmpty then none
    else some ((s.act i (k (scan sel (s.queue a i)).1) (.got a (scan sel (s.queue a i)).1)).setQueue
      a i (scan sel (s.queue a i)).2)

/-- The timed receive of process `i` gives up. -/
def expire (early : Bool) (s : Net ι M E α) (i : ι) : Option (Net ι M E α) :=
  match s.prog i with
  | .recv a _ true k =>
    if (s.queue a i).isEmpty && (early || (s.prog a).halted) then
      some (s.act i (k .timedOut) (.got a .timedOut))
    else none
  | _ => none

/-- Process `i` takes a step. -/
inductive StepBy (early : Bool) (i : ι) (s s' : Net ι M E α) : Prop
  | move (h : s.move i = some s')
  | expire (h : s.expire early i = some s')

/-- Some process takes a step. -/
def Step (early : Bool) (s s' : Net ι M E α) : Prop := ∃ i, StepBy early i s s'

/-- The states that a run reaches. -/
abbrev Reach (early : Bool) : Net ι M E α → Net ι M E α → Prop := Relation.ReflTransGen (Step early)

/-- Process `i` can take a step. -/
def Enabled (early : Bool) (s : Net ι M E α) (i : ι) : Prop := ∃ s', StepBy early i s s'

@[simp] theorem act_queue (s : Net ι M E α) (i : ι) (k : Prog ι M E α) (e : Event ι M E) :
    (s.act i k e).queue = s.queue := rfl
@[simp] theorem setQueue_prog (s : Net ι M E α) (a b : ι) (q : List M) :
    (s.setQueue a b q).prog = s.prog := rfl
@[simp] theorem setQueue_hist (s : Net ι M E α) (a b : ι) (q : List M) :
    (s.setQueue a b q).hist = s.hist := rfl

@[simp] theorem act_prog_self (s : Net ι M E α) (i : ι) (k : Prog ι M E α) (e : Event ι M E) :
    (s.act i k e).prog i = k := by simp [act]

theorem act_prog_ne (s : Net ι M E α) {i j : ι} (k : Prog ι M E α) (e : Event ι M E) (h : j ≠ i) :
    (s.act i k e).prog j = s.prog j := by simp [act, h]

@[simp] theorem act_hist_self (s : Net ι M E α) (i : ι) (k : Prog ι M E α) (e : Event ι M E) :
    (s.act i k e).hist i = s.hist i ++ [e] := by simp [act]

theorem act_hist_ne (s : Net ι M E α) {i j : ι} (k : Prog ι M E α) (e : Event ι M E) (h : j ≠ i) :
    (s.act i k e).hist j = s.hist j := by simp [act, h]

@[simp] theorem setQueue_queue_self (s : Net ι M E α) (a b : ι) (q : List M) :
    (s.setQueue a b q).queue a b = q := by simp [setQueue]

theorem setQueue_queue_ne (s : Net ι M E α) {a b c d : ι} (q : List M) (h : ¬ (c = a ∧ d = b)) :
    (s.setQueue a b q).queue c d = s.queue c d := by
  by_cases hc : c = a
  · subst hc
    have hd : d ≠ b := fun hd => h ⟨rfl, hd⟩
    simp [setQueue, hd]
  · simp [setQueue, hc]

/-- What one step of process `i` does: the action `e`, the rest `k` of the program, and the new
queues. -/
inductive Acts (early : Bool) (s : Net ι M E α) (i : ι) : Net ι M E α → Prop
  | note (x : E) (k : Prog ι M E α) (hp : s.prog i = .note x k) : Acts early s i (s.act i k (.noted x))
  | send (d : ι) (m : M) (b : Bool) (k : Prog ι M E α) (hp : s.prog i = .send d m b k)
      (hd : (s.prog d).halted = false) :
      Acts early s i ((s.act i k (.sent d m b)).setQueue i d (s.queue i d ++ [m]))
  | drop (d : ι) (m : M) (k : Prog ι M E α) (hp : s.prog i = .send d m true k)
      (hd : (s.prog d).halted = true) : Acts early s i (s.act i k (.sent d m true))
  | recv (a : ι) (sel : M → Bool) (t : Bool) (k : Reply M → Prog ι M E α) (m : M) (q : List M)
      (hp : s.prog i = .recv a sel t k) (hq : s.queue a i = m :: q) :
      Acts early s i ((s.act i (k (scan sel (m :: q)).1) (.got a (scan sel (m :: q)).1)).setQueue a i
        (scan sel (m :: q)).2)
  | late (a : ι) (sel : M → Bool) (k : Reply M → Prog ι M E α) (hp : s.prog i = .recv a sel true k)
      (hq : s.queue a i = []) (ha : early = true ∨ (s.prog a).halted = true) :
      Acts early s i (s.act i (k .timedOut) (.got a .timedOut))

/-- **The steps of a network**, one case for each kind of action. -/
theorem stepBy_iff {early : Bool} {i : ι} {s s' : Net ι M E α} :
    StepBy early i s s' ↔ Acts early s i s' := by
  constructor
  · rintro (h | h)
    · unfold move at h
      split at h
      · cases h
      · cases h
      · cases h
      · next x k hp => cases h; exact .note x k hp
      · next d m b k hp =>
        split at h
        · next hd =>
          split at h
          · next hb => cases h; subst hb; exact .drop d m k hp hd
          · cases h
        · next hd => cases h; exact .send d m b k hp (by simpa using hd)
      · next a sel t k hp =>
        split at h
        · cases h
        · next hq =>
          cases h
          obtain ⟨m, q, hmq⟩ := List.exists_cons_of_ne_nil (by simpa using hq)
          rw [hmq]
          exact .recv a sel t k m q hp hmq
    · unfold expire at h
      split at h
      · next a sel k hp =>
        split at h
        · next hc =>
          cases h
          simp only [Bool.and_eq_true, List.isEmpty_iff, Bool.or_eq_true] at hc
          exact .late a sel k hp hc.1 hc.2
        · cases h
      · cases h
  · rintro (⟨x, k, hp⟩ | ⟨d, m, b, k, hp, hd⟩ | ⟨d, m, k, hp, hd⟩ | ⟨a, sel, t, k, m, q, hp, hq⟩ |
      ⟨a, sel, k, hp, hq, ha⟩)
    · exact .move (by simp [Net.move, hp])
    · exact .move (by simp [Net.move, hp, hd])
    · exact .move (by simp [Net.move, hp, hd])
    · exact .move (by simp [Net.move, hp, hq])
    · exact .expire (by simp [Net.expire, hp, hq, ha])

/-- A process that has ended stays ended: its own program takes no step. -/
theorem not_enabled_of_halted {early : Bool} {i : ι} {s : Net ι M E α}
    (h : (s.prog i).halted = true) : ¬ Enabled early s i := by
  rintro ⟨s', hs⟩
  rcases stepBy_iff.mp hs with ⟨x, k, hp⟩ | ⟨d, m, b, k, hp, hd⟩ | ⟨d, m, k, hp, hd⟩ |
    ⟨a, sel, t, k, m, q, hp, hq⟩ | ⟨a, sel, k, hp, hq, ha⟩ <;> simp [hp] at h

/-! ## A run by a schedule -/

/-- Process `i` acts, if it can. -/
def tryStep (early : Bool) (s : Net ι M E α) (i : ι) : Net ι M E α :=
  ((s.move i).or (s.expire early i)).getD s

/-- The processes of the schedule act in turn. -/
def run (early : Bool) (s : Net ι M E α) (schedule : List ι) : Net ι M E α :=
  schedule.foldl (tryStep early) s

theorem reach_tryStep (early : Bool) (s : Net ι M E α) (i : ι) :
    Reach early s (s.tryStep early i) := by
  unfold tryStep
  cases hm : s.move i with
  | some s' => exact .single ⟨i, .move hm⟩
  | none =>
    cases he : s.expire early i with
    | some s' => exact .single ⟨i, .expire he⟩
    | none => exact .refl

/-- A run by a schedule is a run. -/
theorem reach_run (early : Bool) (s : Net ι M E α) (schedule : List ι) :
    Reach early s (s.run early schedule) := by
  induction schedule generalizing s with
  | nil => exact .refl
  | cons i l ih => exact (reach_tryStep early s i).trans (ih _)

end Net

end Fifo

import NetworkExamples.Fifo.Script
import Mathlib.Data.List.Forall2
import Mathlib.Data.List.Nodup

/-!
# Phases: scripts that compose

A protocol is a sequence of phases, each with its own scripts. A **phase** (`Phase σ T`) reads
every message it sends, and its logical times are below `T`. Two phases in a row are a phase
(`Phase.append`), whatever the processes do in between: a process may be in the second phase
while another is still in the first.

* `Wire`: the receives on a queue are exactly the sends, in order and later.
* `sents_flatMap`, `takes_flatMap`: the queues of a loop over the peers.
* `Phase.runs`: the plan of programs that follow a phase and end.
* `Phase.chan_append`: the queues of a phase followed by anything.
-/

namespace Fifo

variable {ι M E α β γ : Type}

/-! ## Shifted scripts -/

/-- The script `σ`, `T` later. -/
def shift (T : ℕ) (σ : Script ι M E) : Script ι M E := σ.map fun e => (T + e.1, e.2)

@[simp] theorem shift_nil (T : ℕ) : shift T ([] : Script ι M E) = [] := rfl
@[simp] theorem shift_cons (T : ℕ) (e : ℕ × Event ι M E) (σ : Script ι M E) :
    shift T (e :: σ) = (T + e.1, e.2) :: shift T σ := rfl

@[simp] theorem events_shift (T : ℕ) (σ : Script ι M E) : (shift T σ).events = σ.events := by
  simp [shift, Script.events, Function.comp_def]

theorem mem_shift {T : ℕ} {σ : Script ι M E} {e : ℕ × Event ι M E} :
    e ∈ shift T σ ↔ ∃ t, (t, e.2) ∈ σ ∧ e.1 = T + t := by
  constructor
  · intro h
    obtain ⟨x, hx, rfl⟩ := List.mem_map.mp h
    exact ⟨x.1, hx, rfl⟩
  · rintro ⟨t, ht, he⟩
    exact List.mem_map.mpr ⟨_, ht, Prod.ext he.symm rfl⟩

theorem sorted_shift {T : ℕ} {σ : Script ι M E} (h : σ.Pairwise (·.1 ≤ ·.1)) :
    (shift T σ).Pairwise (·.1 ≤ ·.1) :=
  List.pairwise_map.mpr (h.imp fun h => Nat.add_le_add_left h T)

section

variable [DecidableEq ι]

theorem sents_shift (T : ℕ) (σ : Script ι M E) (d : ι) :
    sents (shift T σ) d = (sents σ d).map fun x => (T + x.1, x.2) := by
  induction σ with
  | nil => rfl
  | cons e σ ih =>
    obtain ⟨t, e⟩ := e
    cases e with
    | sent d' m b => by_cases h : d' = d <;> simp [h, ih]
    | got | noted => simp [ih]

theorem takes_shift (T : ℕ) (σ : Script ι M E) (a : ι) :
    takes (shift T σ) a = (takes σ a).map fun x => (T + x.1, x.2) := by
  induction σ with
  | nil => rfl
  | cons e σ ih =>
    obtain ⟨t, e⟩ := e
    cases e with
    | got a' r => by_cases h : a' = a <;> simp [h, ih]
    | sent | noted => simp [ih]

/-! ## Loops over the peers -/

/-- In a loop over distinct peers, the sends to `d` are those of the turn of `d`. -/
theorem sents_flatMap {L : List ι} (hL : L.Nodup) {f : ι → Script ι M E} {d : ι}
    (hf : ∀ j ∈ L, j ≠ d → sents (f j) d = []) :
    sents (L.flatMap f) d = if d ∈ L then sents (f d) d else [] := by
  induction L with
  | nil => rfl
  | cons x L ih =>
    obtain ⟨hx, hL⟩ := List.nodup_cons.mp hL
    rw [List.flatMap_cons, sents_append, ih hL fun j hj => hf j (List.mem_cons_of_mem _ hj)]
    by_cases h : x = d
    · subst h; simp [hx]
    · simp [hf x (by simp) h, Ne.symm h]

/-- In a loop over distinct peers, the takes from `a` are those of the turn of `a`. -/
theorem takes_flatMap {L : List ι} (hL : L.Nodup) {f : ι → Script ι M E} {a : ι}
    (hf : ∀ j ∈ L, j ≠ a → takes (f j) a = []) :
    takes (L.flatMap f) a = if a ∈ L then takes (f a) a else [] := by
  induction L with
  | nil => rfl
  | cons x L ih =>
    obtain ⟨hx, hL⟩ := List.nodup_cons.mp hL
    rw [List.flatMap_cons, takes_append, ih hL fun j hj => hf j (List.mem_cons_of_mem _ hj)]
    by_cases h : x = a
    · subst h; simp [hx]
    · simp [hf x (by simp) h, Ne.symm h]

theorem sents_flatMap_nil {L : List γ} {f : γ → Script ι M E} {d : ι}
    (hf : ∀ j ∈ L, sents (f j) d = []) : sents (L.flatMap f) d = [] := by
  induction L with
  | nil => rfl
  | cons x L ih =>
    rw [List.flatMap_cons, sents_append, hf x (by simp),
      ih fun j hj => hf j (List.mem_cons_of_mem _ hj), List.append_nil]

theorem takes_flatMap_nil {L : List γ} {f : γ → Script ι M E} {a : ι}
    (hf : ∀ j ∈ L, takes (f j) a = []) : takes (L.flatMap f) a = [] := by
  induction L with
  | nil => rfl
  | cons x L ih =>
    rw [List.flatMap_cons, takes_append, hf x (by simp),
      ih fun j hj => hf j (List.mem_cons_of_mem _ hj), List.append_nil]

end

/-- A loop whose turns follow their scripts follows the scripts in a row. -/
theorem Follows.foldlM {f : β → γ → Prog ι M E β} {g : β → γ → β} {ev : γ → List (Event ι M E)}
    {L : List γ} (h : ∀ x ∈ L, ∀ b, Follows (f b x) (ev x) (.ret (g b x))) (b : β) :
    Follows (L.foldlM f b) (L.flatMap ev) (.ret (L.foldl g b)) := by
  induction L generalizing b with
  | nil => exact .nil _
  | cons x L ih =>
    rw [List.foldlM_cons, List.flatMap_cons, List.foldl_cons]
    exact (h x (by simp) b).bind (ih (fun y hy => h y (List.mem_cons_of_mem _ hy)) (g b x))

/-- The same for a loop that collects a list. -/
theorem Follows.mapM {f : γ → Prog ι M E β} {g : γ → β} {ev : γ → List (Event ι M E)}
    {L : List γ} (h : ∀ x ∈ L, Follows (f x) (ev x) (.ret (g x))) :
    Follows (L.mapM f) (L.flatMap ev) (.ret (L.map g)) := by
  induction L with
  | nil => exact .nil _
  | cons x L ih =>
    rw [List.mapM_cons, List.flatMap_cons, List.map_cons]
    refine (h x (by simp)).bind ?_
    exact ((ih fun y hy => h y (List.mem_cons_of_mem _ hy)).bind (.nil _)).congr
      (List.append_nil _)

theorem events_flatMap (L : List γ) (f : γ → Script ι M E) :
    Script.events (L.flatMap f) = L.flatMap fun x => (f x).events := by
  simp [Script.events, List.map_flatMap]

/-! ## The notes of a script -/

/-- The ghost notes of a script, in order. -/
def notes (σ : Script ι M E) : List E :=
  σ.filterMap fun e =>
    match e.2 with
    | .noted x => some x
    | _ => none

@[simp] theorem notes_nil : notes ([] : Script ι M E) = [] := rfl
@[simp] theorem notes_append (σ τ : Script ι M E) : notes (σ ++ τ) = notes σ ++ notes τ :=
  List.filterMap_append
@[simp] theorem notes_shift (T : ℕ) (σ : Script ι M E) : notes (shift T σ) = notes σ := by
  simp [notes, shift, List.filterMap_map]

theorem noted_mem_events {σ : Script ι M E} {x : E} : .noted x ∈ σ.events ↔ x ∈ notes σ := by
  simp only [Script.events, notes, List.mem_map, List.mem_filterMap]
  constructor
  · rintro ⟨e, he, hx⟩
    exact ⟨e, he, by rw [hx]⟩
  · rintro ⟨e, he, hx⟩
    refine ⟨e, he, ?_⟩
    split at hx
    · next y hy => cases hx; exact hy
    · cases hx

/-- A script that only sends and receives has no notes. -/
theorem notes_eq_nil {σ : Script ι M E} (h : ∀ e ∈ σ, ∀ x, e.2 ≠ .noted x) : notes σ = [] := by
  refine List.eq_nil_iff_forall_not_mem.mpr fun x hx => ?_
  obtain ⟨e, he, hx⟩ := List.mem_map.mp (noted_mem_events.mpr hx)
  exact h e he x hx

/-! ## Phases -/

/-- The receives of a queue are its sends, in order and later. -/
abbrev Wire : List (ℕ × M × Bool) → List (ℕ × Reply M) → Prop :=
  List.Forall₂ fun x y => x.1 < y.1 ∧ y.2 = .got x.2.1

theorem Wire.shift {l : List (ℕ × M × Bool)} {r : List (ℕ × Reply M)} (h : Wire l r) (T : ℕ) :
    Wire (l.map fun x => (T + x.1, x.2)) (r.map fun x => (T + x.1, x.2)) := by
  induction h with
  | nil => exact .nil
  | cons h _ ih => exact .cons ⟨by simp only; omega, h.2⟩ ih

theorem Wire.append {l l' : List (ℕ × M × Bool)} {r r' : List (ℕ × Reply M)} (h : Wire l r)
    (h' : Wire l' r') : Wire (l ++ l') (r ++ r') :=
  List.rel_append h h'

theorem Wire.chan {left : Option (List M)} {l l' : List (ℕ × M × Bool)}
    {r r' : List (ℕ × Reply M)} (h : Wire l r) (h' : Chan left l' r') :
    Chan left (l ++ l') (r ++ r') := by
  induction h with
  | nil => exact h'
  | @cons x y _ _ h _ ih =>
    obtain ⟨u, rep⟩ := y
    obtain ⟨h1, rfl⟩ := h
    exact .got h1 ih

theorem Wire.timedOut_notMem {l : List (ℕ × M × Bool)} {r : List (ℕ × Reply M)} (h : Wire l r)
    (u : ℕ) : (u, .timedOut) ∉ r := by
  induction h with
  | nil => exact List.not_mem_nil
  | cons h _ ih =>
    intro hm
    rcases List.mem_cons.mp hm with rfl | hm
    · exact absurd h.2 (by simp)
    · exact ih hm

variable [DecidableEq ι]

theorem mem_takes {σ : Script ι M E} {a : ι} {u : ℕ} {r : Reply M} (h : (u, .got a r) ∈ σ) :
    (u, r) ∈ takes σ a :=
  List.mem_filterMap.mpr ⟨_, h, by simp [Event.takenFrom]⟩

/-- Scripts that read every message they send, in times below `T`. -/
structure Phase (σ : ι → Script ι M E) (T : ℕ) : Prop where
  sorted : ∀ i, (σ i).Pairwise (·.1 ≤ ·.1)
  bound : ∀ i, ∀ e ∈ σ i, e.1 < T
  wire : ∀ a b, Wire (sents (σ a) b) (takes (σ b) a)

namespace Phase

variable {σ σ' : ι → Script ι M E} {T T' : ℕ}

/-- Nobody does anything. -/
theorem nil : Phase (fun _ : ι => ([] : Script ι M E)) 0 :=
  ⟨fun _ => .nil, fun _ _ h => absurd h List.not_mem_nil, fun _ _ => .nil⟩

theorem late_notMem (h : Phase σ T) (i a : ι) (u : ℕ) : (u, .got a .timedOut) ∉ σ i :=
  fun hm => (h.wire a i).timedOut_notMem u (mem_takes hm)

theorem sorted_append (h : Phase σ T) {i : ι} {τ : Script ι M E} (hτ : τ.Pairwise (·.1 ≤ ·.1)) :
    (σ i ++ shift T τ).Pairwise (·.1 ≤ ·.1) := by
  refine List.pairwise_append.mpr ⟨h.sorted i, sorted_shift hτ, fun x hx y hy => ?_⟩
  obtain ⟨t, -, ht⟩ := mem_shift.mp hy
  have := h.bound i x hx
  omega

/-- **Phases compose.** -/
theorem append (h : Phase σ T) (h' : Phase σ' T') :
    Phase (fun i => σ i ++ shift T (σ' i)) (T + T') := by
  refine ⟨fun i => h.sorted_append (h'.sorted i), fun i e he => ?_, fun a b => ?_⟩
  · rcases List.mem_append.mp he with he | he
    · have := h.bound i e he; omega
    · obtain ⟨t, ht, he⟩ := mem_shift.mp he
      have := h'.bound i _ ht
      simp only at this
      omega
  · rw [sents_append, takes_append, sents_shift, takes_shift]
    exact (h.wire a b).append ((h'.wire a b).shift T)

/-- A phase with a larger bound. -/
theorem mono (h : Phase σ T) (hT : T ≤ T') : Phase σ T' :=
  ⟨h.sorted, fun i e he => lt_of_lt_of_le (h.bound i e he) hT, h.wire⟩

/-- A queue of the phase, then anything later. -/
theorem chan_append (h : Phase σ T) {left : Option (List M)} {a b : ι} {τ : ι → Script ι M E}
    (hc : Chan left (sents (shift T (τ a)) b) (takes (shift T (τ b)) a)) :
    Chan left (sents (σ a ++ shift T (τ a)) b) (takes (σ b ++ shift T (τ b)) a) := by
  rw [sents_append, takes_append]
  exact (h.wire a b).chan hc

/-- To a process that receives nothing nothing is sent. -/
theorem sents_eq_nil (h : Phase σ T) {a b : ι} (hb : takes (σ b) a = []) :
    sents (σ a) b = [] := by
  have hw := h.wire a b
  rw [hb] at hw
  exact List.forall₂_nil_right_iff.mp hw

/-- The scripts of a phase fit. -/
theorem fits (h : Phase σ T) (q : ι → Prog ι M E α) :
    Plan.Fits ⟨σ, q, fun _ _ => none⟩ (fun _ _ => []) σ := by
  refine ⟨h.sorted, fun b c => ?_, fun i u b hu => absurd hu (h.late_notMem i b u)⟩
  have hn : Chan (none : Option (List M)) [] [] := .nil (by simp [Unread])
  have := (h.wire b c).chan hn
  simpa using this

/-- The plan of programs that follow a phase and end. -/
theorem runs (h : Phase σ T) {nodes : Finset ι} {p q : ι → Prog ι M E α}
    (hf : ∀ i, Follows (p i) (σ i).events (q i)) (hq : ∀ i, (q i).halted = true)
    (ho : ∀ i, i ∉ nodes → σ i = []) : Plan.Runs ⟨σ, q, fun _ _ => none⟩ nodes p where
  fits := h.fits q
  follows := hf
  halts _ _ _ := rfl
  inert i := .halted (hq i)
  blocked i _ _ _ _ h := by
    have hi := hq i
    rw [show q i = _ from h] at hi
    cases hi
  outside := ho

end Phase

/-! ## Open phases -/

/-- Scripts in which the processes of `B` receive nothing: what is sent to them stays in their
queues. The other processes read every message. -/
structure OpenPhase (B : ι → Prop) (σ : ι → Script ι M E) (T : ℕ) : Prop where
  sorted : ∀ i, (σ i).Pairwise (·.1 ≤ ·.1)
  bound : ∀ i, ∀ e ∈ σ i, e.1 < T
  wire : ∀ a b, ¬ B b → Wire (sents (σ a) b) (takes (σ b) a)
  deaf : ∀ a b, B b → takes (σ b) a = []

namespace OpenPhase

variable {B : ι → Prop} {σ σ' : ι → Script ι M E} {T T' : ℕ}

theorem append (h : OpenPhase B σ T) (h' : OpenPhase B σ' T') :
    OpenPhase B (fun i => σ i ++ shift T (σ' i)) (T + T') := by
  refine ⟨fun i => ?_, fun i e he => ?_, fun a b hb => ?_, fun a b hb => ?_⟩
  · refine List.pairwise_append.mpr ⟨h.sorted i, sorted_shift (h'.sorted i), fun x hx y hy => ?_⟩
    obtain ⟨t, -, ht⟩ := mem_shift.mp hy
    have := h.bound i x hx
    omega
  · rcases List.mem_append.mp he with he | he
    · have := h.bound i e he; omega
    · obtain ⟨t, ht, he⟩ := mem_shift.mp he
      have := h'.bound i _ ht
      simp only at this
      omega
  · rw [sents_append, takes_append, sents_shift, takes_shift]
    exact (h.wire a b hb).append ((h'.wire a b hb).shift T)
  · rw [takes_append, takes_shift, h.deaf a b hb, h'.deaf a b hb]
    rfl

/-- The messages that stay in the queues. -/
def left [DecidablePred B] (σ : ι → Script ι M E) (q : ι → Prog ι M E α) (a b : ι) :
    Option (List M) :=
  if (q b).halted then none
  else some (if B b then (sents (σ a) b).map (·.2.1) else [])

/-- The plan of programs that follow an open phase and then end or wait for ever. -/
theorem runs [DecidablePred B] (h : OpenPhase B σ T) {nodes : Finset ι} {p q : ι → Prog ι M E α}
    (hf : ∀ i, Follows (p i) (σ i).events (q i))
    (hB : ∀ b, B b → (q b).halted = false)
    (hq : ∀ i, (q i).halted = true ∨
      ∃ a sel k, q i = .recv a sel false k ∧ (B i → sents (σ a) i = []))
    (ho : ∀ i, i ∉ nodes → σ i = []) : Plan.Runs ⟨σ, q, left (B := B) σ q⟩ nodes p where
  fits := by
    refine ⟨h.sorted, fun a b => ?_, fun i u a hu => ?_⟩
    · by_cases hb : B b
      · rw [h.deaf a b hb]
        refine .nil ?_
        simp [left, hB b hb, hb, Unread]
      · have hn : Chan (left (B := B) σ q a b) [] [] := by
          refine .nil ?_
          simp only [left, if_neg hb]
          split
          · simp [Unread]
          · rfl
        simpa using (h.wire a b hb).chan hn
    · have hmem := mem_takes hu
      by_cases hi : B i
      · rw [h.deaf a i hi] at hmem
        cases hmem
      · exact absurd hmem ((h.wire a i hi).timedOut_notMem u)
  follows := hf
  halts _ _ hb := if_pos hb
  inert i := by
    rcases hq i with hi | ⟨a, sel, k, hi, hl⟩
    · exact .halted hi
    · refine .recv hi ?_
      simp only [left, hi, Prog.halted_recv, Bool.false_eq_true, if_false]
      split
      · next hb => rw [hl hb]; rfl
      · rfl
  blocked i d m b k hp := by
    rcases hq i with hi | ⟨a, sel, g, hi, -⟩
    · rw [show q i = _ from hp] at hi; cases hi
    · rw [show q i = _ from hp] at hi; cases hi
  outside := ho

end OpenPhase

/-- A phase in which the processes of `B` receive nothing is open. -/
theorem Phase.isOpen {B : ι → Prop} {σ : ι → Script ι M E} {T : ℕ} (h : Phase σ T)
    (hB : ∀ a b, B b → takes (σ b) a = []) : OpenPhase B σ T :=
  ⟨h.sorted, h.bound, fun a b _ => h.wire a b, hB⟩

theorem Chan.shift {left : Option (List M)} {l : List (ℕ × M × Bool)} {r : List (ℕ × Reply M)}
    (h : Chan left l r) (T : ℕ) :
    Chan left (l.map fun x => (T + x.1, x.2)) (r.map fun x => (T + x.1, x.2)) := by
  induction h with
  | nil hu =>
    refine .nil ?_
    cases left with
    | none =>
      intro x hx
      obtain ⟨y, hy, rfl⟩ := List.mem_map.mp hx
      exact hu y hy
    | some => simpa [Unread, Function.comp_def] using hu
  | got h _ ih => exact .got (by omega) ih
  | late _ ih => exact .late ih

end Fifo

import NetworkExamples.Fifo.Phase

/-!
# Loops of a network

* `foldlM_only`: a loop in which only one turn does something is that turn.
* `Follows.range`: a loop that carries a state.
* `Phase.loop`: the turns of a loop that all processes run are phases in a row.
* `Plan.Fits.frame`: notes before and after what the processes do.
-/

namespace Fifo

/-! ## One turn -/

section

variable {m : Type → Type} [Monad m] [LawfulMonad m] {β γ : Type} {f : β → γ → m β} {L : List γ}

theorem foldlM_pure (hf : ∀ y ∈ L, ∀ b, f b y = pure b) (b : β) : L.foldlM f b = pure b := by
  induction L with
  | nil => rfl
  | cons y L ih =>
    rw [List.foldlM_cons, hf y List.mem_cons_self, pure_bind]
    exact ih fun z hz => hf z (List.mem_cons_of_mem y hz)

/-- **A loop in which only the turn of `x` does something** is that turn. -/
theorem foldlM_only (hL : L.Nodup) {x : γ} (hx : x ∈ L) (hf : ∀ y ∈ L, y ≠ x → ∀ b, f b y = pure b)
    (b : β) : L.foldlM f b = f b x := by
  induction L with
  | nil => exact absurd hx List.not_mem_nil
  | cons y L ih =>
    obtain ⟨hy, hL⟩ := List.nodup_cons.mp hL
    rw [List.foldlM_cons]
    rcases List.mem_cons.mp hx with rfl | hx
    · have hrest : ∀ b, L.foldlM f b = pure b := by
        intro b
        apply foldlM_pure
        intro z hz
        exact hf z (List.mem_cons_of_mem x hz) fun h => hy (h ▸ hz)
      simp only [hrest, bind_pure]
    · have hyx : y ≠ x := fun h => hy (h ▸ hx)
      rw [hf y List.mem_cons_self hyx, pure_bind]
      exact ih hL hx fun z hz => hf z (List.mem_cons_of_mem y hz)

end

/-- The same for the lists of the turns. -/
theorem flatMap_only {β γ : Type} {f : γ → List β} {L : List γ} (hL : L.Nodup) {x : γ} (hx : x ∈ L)
    (hf : ∀ y ∈ L, y ≠ x → f y = []) : L.flatMap f = f x := by
  induction L with
  | nil => exact absurd hx List.not_mem_nil
  | cons y L ih =>
    obtain ⟨hy, hL⟩ := List.nodup_cons.mp hL
    rw [List.flatMap_cons]
    rcases List.mem_cons.mp hx with rfl | hx
    · have hrest : L.flatMap f = [] := by
        apply List.flatMap_eq_nil_iff.mpr
        intro z hz
        exact hf z (List.mem_cons_of_mem x hz) fun h => hy (h ▸ hz)
      rw [hrest, List.append_nil]
    · have hyx : y ≠ x := fun h => hy (h ▸ hx)
      rw [hf y List.mem_cons_self hyx, List.nil_append]
      exact ih hL hx fun z hz => hf z (List.mem_cons_of_mem y hz)

/-! ## Turns in a row -/

variable {ι M E α γ : Type}

/-- A loop over `0, …, n - 1` that is in the state `g k` before the turn `k`. -/
theorem Follows.range {f : α → ℕ → Prog ι M E α} {g : ℕ → α} {ev : ℕ → List (Event ι M E)} {n : ℕ}
    (h : ∀ k < n, Follows (f (g k) k) (ev k) (.ret (g (k + 1)))) :
    Follows ((List.range n).foldlM f (g 0)) ((List.range n).flatMap ev) (.ret (g n)) := by
  induction n with
  | zero => exact .nil _
  | succ n ih =>
    have hlast : Follows ([n].foldlM f (g n)) (ev n) (.ret (g (n + 1))) := by
      rw [List.foldlM_cons]
      exact ((h n (Nat.lt_succ_self n)).bind (.nil _)).congr (List.append_nil _)
    rw [List.range_succ, List.foldlM_append, List.flatMap_append, List.flatMap_singleton]
    exact (ih fun k hk => h k (Nat.lt_succ_of_lt hk)).bind hlast

/-- The scripts of a loop, whose turns take the time `T`. -/
def loop (σ : γ → ι → Script ι M E) (T : ℕ) : List γ → ι → Script ι M E
  | [], _ => []
  | x :: L, i => σ x i ++ shift T (loop σ T L i)

theorem events_loop (σ : γ → ι → Script ι M E) (T : ℕ) (L : List γ) (i : ι) :
    (loop σ T L i).events = L.flatMap fun x => (σ x i).events := by
  induction L with
  | nil => rfl
  | cons x L ih =>
    rw [List.flatMap_cons, ← ih]
    simp [loop]

theorem loop_eq_nil {σ : γ → ι → Script ι M E} {L : List γ} {i : ι} (h : ∀ x ∈ L, σ x i = [])
    (T : ℕ) : loop σ T L i = [] := by
  induction L with
  | nil => rfl
  | cons x L ih =>
    rw [loop, h x List.mem_cons_self, ih fun y hy => h y (List.mem_cons_of_mem x hy)]
    rfl

/-- **Turns in a row are a phase.** -/
theorem Phase.loop [DecidableEq ι] {σ : γ → ι → Script ι M E} {T : ℕ} {L : List γ}
    (h : ∀ x ∈ L, Phase (σ x) T) : Phase (loop σ T L) (L.length * T) := by
  induction L with
  | nil =>
    rw [List.length_nil, Nat.zero_mul]
    exact Phase.nil
  | cons x L ih =>
    have hx := h x List.mem_cons_self
    have hL := ih fun y hy => h y (List.mem_cons_of_mem x hy)
    rw [List.length_cons, Nat.succ_mul, Nat.add_comm]
    exact hx.append hL

/-! ## Notes before and after -/

/-- Notes in a row. -/
def noted (L : List E) : Script ι M E := L.map fun x => (0, .noted x)

/-- The scripts `σ`, in the times below `T`, with the notes `B` before and `C` after. -/
def framed (B C : ι → List E) (T : ℕ) (σ : ι → Script ι M E) (i : ι) : Script ι M E :=
  noted (B i) ++ shift 1 (σ i ++ shift T (noted (C i)))

theorem mem_noted {L : List E} {e : ℕ × Event ι M E} (he : e ∈ (noted L : Script ι M E)) :
    e.1 = 0 ∧ ∃ x, e.2 = .noted x := by
  obtain ⟨x, -, rfl⟩ := List.mem_map.mp he
  exact ⟨rfl, x, rfl⟩

theorem sorted_noted (L : List E) : (noted L : Script ι M E).Pairwise (·.1 ≤ ·.1) :=
  List.pairwise_map.mpr (List.pairwise_of_forall fun _ _ => le_rfl)

theorem events_append (σ τ : Script ι M E) :
    Script.events (σ ++ τ) = σ.events ++ τ.events := List.map_append

theorem events_noted (L : List E) : (noted L : Script ι M E).events = L.map .noted := by
  simp [noted, Script.events]

theorem events_framed (B C : ι → List E) (T : ℕ) (σ : ι → Script ι M E) (i : ι) :
    (framed B C T σ i).events = (B i).map .noted ++ ((σ i).events ++ (C i).map .noted) := by
  rw [framed, events_append, events_noted, events_shift, events_append, events_shift, events_noted]

variable [DecidableEq ι] {B C : ι → List E} {T : ℕ} {σ : ι → Script ι M E}

theorem sents_noted (L : List E) (d : ι) : sents (noted L : Script ι M E) d = [] := by
  induction L with
  | nil => rfl
  | cons x L ih => exact ih

theorem takes_noted (L : List E) (a : ι) : takes (noted L : Script ι M E) a = [] := by
  induction L with
  | nil => rfl
  | cons x L ih => exact ih

theorem sents_framed (i d : ι) :
    sents (framed B C T σ i) d = (sents (σ i) d).map fun x => (1 + x.1, x.2) := by
  rw [framed, sents_append, sents_noted, sents_shift, sents_append, sents_shift, sents_noted]
  simp

theorem takes_framed (i a : ι) :
    takes (framed B C T σ i) a = (takes (σ i) a).map fun x => (1 + x.1, x.2) := by
  rw [framed, takes_append, takes_noted, takes_shift, takes_append, takes_shift, takes_noted]
  simp

/-- **Notes before and after** change nothing, if no process waits in vain for one that has notes to
come. -/
theorem Plan.Fits.frame {stop : ι → Prog ι M E α} {left : ι → ι → Option (List M)} {nodes : Finset ι}
    {q : ι → Prog ι M E α} (h : Plan.Fits ⟨σ, stop, left⟩ (fun _ _ => []) σ)
    (hleft : ∀ a b, left a b = none)
    (hT : ∀ i, ∀ e ∈ σ i, e.1 < T) (hC : ∀ i u a, (u, .got a .timedOut) ∈ σ i → C a = [])
    (hstop : ∀ i, (stop i).halted = true) (hσ : ∀ i, i ∉ nodes → σ i = [])
    (hout : ∀ i, i ∉ nodes → B i = [] ∧ C i = [])
    (hq : ∀ i, Follows (q i) (framed B C T σ i).events (stop i)) :
    Plan.Runs ⟨framed B C T σ, stop, left⟩ nodes q where
  fits := by
    refine ⟨fun i => ?_, fun a b => ?_, fun i u a hu => ?_⟩
    · -- The notes, the script, and the notes after it.
      have hafter : (σ i ++ shift T (noted (C i)) : Script ι M E).Pairwise (·.1 ≤ ·.1) := by
        refine List.pairwise_append.mpr ⟨h.sorted i, sorted_shift (sorted_noted (C i)),
          fun e he e' he' => ?_⟩
        obtain ⟨t, -, ht⟩ := mem_shift.mp he'
        have hlt := hT i e he
        omega
      refine List.pairwise_append.mpr ⟨sorted_noted (B i), sorted_shift hafter, fun e he e' _ => ?_⟩
      rw [(mem_noted he).1]
      exact Nat.zero_le _
    · have hchan := (h.chan a b).shift 1
      rw [List.nil_append] at hchan ⊢
      rw [sents_framed, takes_framed]
      exact hchan
    · -- A wait in vain is one of the script.
      have hmem : ∃ u', (u', Event.got a .timedOut) ∈ σ i ∧ u = 1 + u' := by
        rcases List.mem_append.mp hu with hu | hu
        · obtain ⟨-, x, hx⟩ := mem_noted hu
          cases hx
        · obtain ⟨u', hu', he⟩ := mem_shift.mp hu
          rcases List.mem_append.mp hu' with hu' | hu'
          · exact ⟨u', hu', he⟩
          · obtain ⟨u'', hu'', -⟩ := mem_shift.mp hu'
            obtain ⟨-, x, hx⟩ := mem_noted hu''
            cases hx
      obtain ⟨u', hu', rfl⟩ := hmem
      obtain ⟨hend, hlast⟩ := h.late i u' a hu'
      refine ⟨hend, fun e he => ?_⟩
      rcases List.mem_append.mp he with he | he
      · rw [(mem_noted he).1]
        omega
      · rw [hC i u' a hu'] at he
        obtain ⟨t, ht, het⟩ := mem_shift.mp he
        have hlt := hlast (t, e.2) ((List.mem_append.mp ht).resolve_right List.not_mem_nil)
        simp only at hlt
        omega
  follows := hq
  halts a b _ := hleft a b
  inert i := .halted (hstop i)
  blocked i _ _ _ _ hp := by
    have hi := hstop i
    rw [show stop i = _ from hp] at hi
    cases hi
  outside i hi := by
    obtain ⟨hB, hCi⟩ := hout i hi
    show framed B C T σ i = []
    rw [framed, hB, hCi, hσ i hi]
    rfl

/-- The plan of programs that follow a phase, between notes. -/
theorem Phase.frame (h : Phase σ T) {nodes : Finset ι} {q r : ι → Prog ι M E α}
    (hr : ∀ i, (r i).halted = true) (hσ : ∀ i, i ∉ nodes → σ i = [])
    (hout : ∀ i, i ∉ nodes → B i = [] ∧ C i = [])
    (hq : ∀ i, Follows (q i) (framed B C T σ i).events (r i)) :
    Plan.Runs ⟨framed B C T σ, r, fun _ _ => none⟩ nodes q :=
  (h.fits r).frame (fun _ _ => rfl) h.bound (fun i u a hu => absurd hu (h.late_notMem i a u)) hr hσ hout
    hq

end Fifo

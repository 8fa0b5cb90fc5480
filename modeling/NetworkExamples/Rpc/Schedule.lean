import Mathlib.Logic.Function.Basic

/-!
# Runs of a system by atomic steps

Processes that share a server take atomic steps: a call, and what the server and the caller do
with it. `step s a` is the state after the step `a`; a run is a sequence of steps, in any order,
each of which the state before it allows (`ok`).

* `Reach`: the states of the runs; `Reach.invariant`: what holds at the start and is kept by
  every allowed step holds in all of them.
-/

namespace Schedule

variable {σ α : Type} {step : σ → α → σ} {ok ok' : σ → α → Prop} {s t u : σ}

/-- The states that are reached from `s` by allowed steps. -/
inductive Reach (step : σ → α → σ) (ok : σ → α → Prop) (s : σ) : σ → Prop
  | refl : Reach step ok s s
  | tail {t : σ} (h : Reach step ok s t) (a : α) (ha : ok t a) : Reach step ok s (step t a)

namespace Reach

theorem trans (h : Reach step ok s t) (h' : Reach step ok t u) : Reach step ok s u := by
  induction h' with
  | refl => exact h
  | tail _ a ha ih => exact ih.tail a ha

theorem mono (h : Reach step ok s t) (hok : ∀ s a, ok s a → ok' s a) : Reach step ok' s t := by
  induction h with
  | refl => exact .refl
  | tail _ a ha ih => exact ih.tail a (hok _ a ha)

/-- **The rule of invariants.** -/
theorem invariant {Inv : σ → Prop} (h : Reach step ok s t) (h0 : Inv s)
    (hstep : ∀ s a, Inv s → ok s a → Inv (step s a)) : Inv t := by
  induction h with
  | refl => exact h0
  | tail _ a ha ih => exact hstep _ a ih ha

/-- If something holds that did not hold at the start, a step has brought it about. -/
theorem crossing {Q : σ → Prop} (h : Reach step ok s t) (hs : ¬ Q s) (ht : Q t) :
    ∃ u a, Reach step ok s u ∧ ok u a ∧ ¬ Q u ∧ Q (step u a) ∧ Reach step ok (step u a) t := by
  induction h with
  | refl => exact absurd ht hs
  | tail h a ha ih =>
    rename_i u
    by_cases hu : Q u
    · obtain ⟨v, b, hv, hb, hnot, hQ, hr⟩ := ih hu
      exact ⟨v, b, hv, hb, hnot, hQ, hr.tail a ha⟩
    · exact ⟨u, a, h, ha, hu, ht, .refl⟩

/-- The run by a list of steps. -/
theorem foldl {l : List α} (hok : ∀ a ∈ l, ∀ s, ok s a) (s : σ) :
    Reach step ok s (l.foldl step s) := by
  induction l generalizing s with
  | nil => exact .refl
  | cons a l ih =>
    exact ((refl : Reach step ok s s).tail a (hok a List.mem_cons_self s)).trans
      (ih (fun a' ha' => hok a' (List.mem_cons_of_mem a ha')) _)

end Reach

end Schedule

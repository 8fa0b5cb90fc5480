import Mathlib.Order.Bounds.Basic

/-!
# Searches in a range

A loop over `lo, …, hi - 1` that breaks at the first number with a property.

* `inRange p lo hi`: that number, if there is one.
* `firstFailure p lo hi`: the first number without the property, or `hi`. For a property that goes
  down (`Down`), what is below it is exactly what has the property (`lt_firstFailure_iff`), so that
  the number before it is the greatest one that has it (`isGreatest_firstFailure`).
* `downFrom p hi`: the first number of `hi, hi - 1, …, 1` with the property.
* `find?_isLeast`: the search in a sorted list.
-/

namespace Search

variable {p : ℕ → Prop} [DecidablePred p] {lo hi i : ℕ}

/-- The first of the `len` numbers from `lo` on with the property. -/
def first (p : ℕ → Prop) [DecidablePred p] : ℕ → ℕ → Option ℕ
  | _, 0 => none
  | lo, len + 1 => if p lo then some lo else first p (lo + 1) len

/-- The first number of `range(lo, hi)` with the property. -/
def inRange (p : ℕ → Prop) [DecidablePred p] (lo hi : ℕ) : Option ℕ := first p lo (hi - lo)

/-- The first number of `range(lo, hi)` without the property, or `hi`. -/
def firstFailure (p : ℕ → Prop) [DecidablePred p] (lo hi : ℕ) : ℕ :=
  (inRange (fun i => ¬ p i) lo hi).getD hi

/-- The first number of `range(hi, 0, -1)` with the property. -/
def downFrom (p : ℕ → Prop) [DecidablePred p] : ℕ → Option ℕ
  | 0 => none
  | hi + 1 => if p (hi + 1) then some (hi + 1) else downFrom p hi

/-- What has the property at a number has it below. -/
def Down (p : ℕ → Prop) : Prop := ∀ i j, i ≤ j → p j → p i

theorem first_eq_some {len : ℕ} (h : first p lo len = some i) :
    lo ≤ i ∧ i < lo + len ∧ p i ∧ ∀ j, lo ≤ j → j < i → ¬ p j := by
  induction len generalizing lo with
  | zero => cases h
  | succ len ih =>
    unfold first at h
    split at h
    · next hp =>
      cases h
      exact ⟨le_rfl, by omega, hp, fun j h1 h2 => by omega⟩
    · next hp =>
      obtain ⟨h1, h2, h3, h4⟩ := ih h
      refine ⟨by omega, by omega, h3, fun j hj hji => ?_⟩
      by_cases hlo : j = lo
      · exact hlo ▸ hp
      · exact h4 j (by omega) hji

theorem first_eq_none {len : ℕ} (h : first p lo len = none) (hlo : lo ≤ i) (hlt : i < lo + len) :
    ¬ p i := by
  induction len generalizing lo with
  | zero => omega
  | succ len ih =>
    unfold first at h
    split at h
    · cases h
    · next hp =>
      by_cases hi : i = lo
      · exact hi ▸ hp
      · exact ih h (by omega) (by omega)

theorem inRange_eq_none_iff : inRange p lo hi = none ↔ ∀ i, lo ≤ i → i < hi → ¬ p i := by
  constructor
  · intro h i h1 h2
    exact first_eq_none h h1 (by omega)
  · intro h
    by_contra hne
    obtain ⟨i, hi⟩ := Option.ne_none_iff_exists'.mp hne
    obtain ⟨h1, h2, h3, -⟩ := first_eq_some hi
    exact h i h1 (by omega) h3

/-- **The search finds the least number of the range with the property.** -/
theorem inRange_eq_some_iff :
    inRange p lo hi = some i ↔ IsLeast {i | lo ≤ i ∧ i < hi ∧ p i} i := by
  have hleast : ∀ j, inRange p lo hi = some j → IsLeast {i | lo ≤ i ∧ i < hi ∧ p i} j := by
    intro j hj
    obtain ⟨h1, h2, h3, h4⟩ := first_eq_some hj
    refine ⟨⟨h1, by omega, h3⟩, fun i hi => ?_⟩
    by_contra hlt
    exact h4 i hi.1 (by omega) hi.2.2
  constructor
  · exact hleast i
  · intro h
    cases hfind : inRange p lo hi with
    | none => exact absurd h.1.2.2 (inRange_eq_none_iff.mp hfind i h.1.1 h.1.2.1)
    | some j => rw [(hleast j hfind).unique h]

/-- The search that starts at a number with the property. -/
theorem inRange_self_iff (h : lo < hi) : inRange p lo hi = some lo ↔ p lo := by
  rw [inRange_eq_some_iff]
  constructor
  · exact fun hlo => hlo.1.2.2
  · exact fun hp => ⟨⟨le_rfl, h, hp⟩, fun i hi => hi.1⟩

theorem firstFailure_le : firstFailure p lo hi ≤ hi := by
  unfold firstFailure
  cases hfind : inRange (fun i => ¬ p i) lo hi with
  | none => exact le_rfl
  | some j => exact (inRange_eq_some_iff.mp hfind).1.2.1.le

theorem le_firstFailure (h : lo ≤ hi) : lo ≤ firstFailure p lo hi := by
  unfold firstFailure
  cases hfind : inRange (fun i => ¬ p i) lo hi with
  | none => exact h
  | some j => exact (inRange_eq_some_iff.mp hfind).1.1

/-- What is below the first failure has the property. -/
theorem of_lt_firstFailure (hlo : lo ≤ i) (h : i < firstFailure p lo hi) (hhi : i < hi) : p i := by
  unfold firstFailure at h
  cases hfind : inRange (fun i => ¬ p i) lo hi with
  | none => exact not_not.mp (inRange_eq_none_iff.mp hfind i hlo hhi)
  | some j =>
    rw [hfind] at h
    by_contra hi
    exact absurd ((inRange_eq_some_iff.mp hfind).2 ⟨hlo, hhi, hi⟩) (not_le.mpr h)

theorem lt_firstFailure_iff (hp : Down p) (hlo : lo ≤ i) (hhi : i < hi) :
    i < firstFailure p lo hi ↔ p i := by
  constructor
  · exact fun h => of_lt_firstFailure hlo h hhi
  · intro hpi
    unfold firstFailure
    cases hfind : inRange (fun i => ¬ p i) lo hi with
    | none => exact hhi
    | some j =>
      by_contra hji
      exact (inRange_eq_some_iff.mp hfind).1.2.2 (hp j i (not_lt.mp hji) hpi)

theorem le_firstFailure_iff (hp : Down p) (hlo : lo ≤ hi) (hhi : i ≤ hi) :
    i ≤ firstFailure p lo hi ↔ ∀ j, lo ≤ j → j < i → p j := by
  constructor
  · exact fun h j hj hji => of_lt_firstFailure hj (hji.trans_le h) (hji.trans_le hhi)
  · intro h
    by_contra hlt
    have hle := le_firstFailure (p := p) hlo
    have hpj := h _ hle (not_le.mp hlt)
    exact lt_irrefl _ ((lt_firstFailure_iff hp hle (by omega)).mpr hpj)

/-- The number before the first failure is the greatest one with the property; if there is none in
the range, it is the number before the range. -/
theorem isGreatest_firstFailure (hp : Down p) (h : 1 < hi) :
    IsGreatest {i | i < hi ∧ (1 ≤ i → p i)} (firstFailure p 1 hi - 1) := by
  have hle : firstFailure p 1 hi ≤ hi := firstFailure_le
  have hge := le_firstFailure (p := p) h.le
  have hlt : firstFailure p 1 hi - 1 < firstFailure p 1 hi := by omega
  refine ⟨⟨by omega, fun h1 => of_lt_firstFailure h1 hlt (by omega)⟩, fun i hi => ?_⟩
  by_cases h1 : 1 ≤ i
  · have := (lt_firstFailure_iff hp h1 hi.1).mpr (hi.2 h1)
    omega
  · omega

theorem downFrom_eq_some (h : downFrom p hi = some i) :
    IsGreatest {i | 1 ≤ i ∧ i ≤ hi ∧ p i} i := by
  induction hi with
  | zero => cases h
  | succ hi ih =>
    unfold downFrom at h
    split at h
    · next hp =>
      cases h
      exact ⟨⟨by omega, le_rfl, hp⟩, fun j hj => hj.2.1⟩
    · next hp =>
      obtain ⟨⟨h1, h2, h3⟩, hgreat⟩ := ih h
      refine ⟨⟨h1, by omega, h3⟩, fun j hj => hgreat ⟨hj.1, ?_, hj.2.2⟩⟩
      by_contra hlt
      have hj' : j = hi + 1 := by have := hj.2.1; omega
      exact hp (hj' ▸ hj.2.2)

theorem downFrom_ne_none (h1 : 1 ≤ i) (hle : i ≤ hi) (hp : p i) : downFrom p hi ≠ none := by
  induction hi with
  | zero => omega
  | succ hi ih =>
    unfold downFrom
    split
    · exact Option.some_ne_none _
    · next hnp =>
      have hne : i ≠ hi + 1 := fun h => hnp (h ▸ hp)
      exact ih (by omega)

/-- The search downwards finds the greatest number with the property. -/
theorem downFrom_eq_some_iff :
    downFrom p hi = some i ↔ IsGreatest {i | 1 ≤ i ∧ i ≤ hi ∧ p i} i := by
  constructor
  · exact downFrom_eq_some
  · intro h
    obtain ⟨j, hj⟩ := Option.ne_none_iff_exists'.mp (downFrom_ne_none h.1.1 h.1.2.1 h.1.2.2)
    rw [hj, (downFrom_eq_some hj).unique h]

/-- In a sorted list, the first element with a property is the least one. -/
theorem find?_isLeast {q : ℕ → Bool} {l : List ℕ} (hl : l.Pairwise (· < ·))
    (h : l.find? q = some i) : IsLeast {i | i ∈ l ∧ q i} i := by
  obtain ⟨hq, before, after, rfl, hnot⟩ := List.find?_eq_some_iff_append.mp h
  refine ⟨⟨by simp, hq⟩, fun j ⟨hj, hqj⟩ => ?_⟩
  rcases List.mem_append.mp hj with hj | hj
  · exact absurd hqj (by simpa using hnot j hj)
  · rcases List.mem_cons.mp hj with rfl | hj
    · exact le_rfl
    · exact (List.rel_of_pairwise_cons (List.pairwise_append.mp hl).2.1 hj).le

end Search

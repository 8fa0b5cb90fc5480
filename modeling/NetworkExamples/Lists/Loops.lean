import Mathlib.Data.List.Range
import Mathlib.Logic.Function.Basic

/-!
# Lists that a loop reads or fills

* `mapM_eq_some`, `mapM_isSome`, `foldlM_isSome`: a loop whose turns all succeed.
* `foldl_update_apply`, `foldl_set_zipIdx`: a map or a vector that a loop fills.
-/

namespace Lists

variable {α β γ : Type}

/-! ## Turns that can fail -/

theorem mapM_eq_some {f : α → Option β} {g : α → β} {l : List α} (h : ∀ x ∈ l, f x = some (g x)) :
    l.mapM f = some (l.map g) := by
  induction l with
  | nil => rfl
  | cons x l ih =>
    rw [List.mapM_cons, h x List.mem_cons_self, ih fun y hy => h y (List.mem_cons_of_mem x hy)]
    rfl

theorem mapM_isSome {f : α → Option β} {l : List α} (h : ∀ x ∈ l, f x ≠ none) :
    ∃ v, l.mapM f = some v := by
  induction l with
  | nil => exact ⟨[], rfl⟩
  | cons x l ih =>
    obtain ⟨y, hy⟩ := Option.ne_none_iff_exists'.mp (h x List.mem_cons_self)
    obtain ⟨v, hv⟩ := ih fun z hz => h z (List.mem_cons_of_mem x hz)
    rw [List.mapM_cons, hy, hv]
    exact ⟨y :: v, rfl⟩

/-- What the results have in common with the list. -/
theorem map_of_mapM {f : α → Option β} {g : β → γ} {k : α → γ} {l : List α} {v : List β}
    (hf : ∀ x y, f x = some y → g y = k x) (hv : l.mapM f = some v) : v.map g = l.map k := by
  induction l generalizing v with
  | nil =>
    cases hv
    rfl
  | cons x l ih =>
    rw [List.mapM_cons] at hv
    obtain ⟨y, hy, hv⟩ := Option.bind_eq_some_iff.mp hv
    obtain ⟨w, hw, hv⟩ := Option.bind_eq_some_iff.mp hv
    cases hv
    rw [List.map_cons, List.map_cons, hf x y hy, ih hw]

theorem foldlM_isSome {f : β → α → Option β} {l : List α} (h : ∀ x ∈ l, ∀ b, ∃ b', f b x = some b')
    (b : β) : ∃ b', l.foldlM f b = some b' := by
  induction l generalizing b with
  | nil => exact ⟨b, rfl⟩
  | cons x l ih =>
    obtain ⟨b', hb⟩ := h x List.mem_cons_self b
    rw [List.foldlM_cons, hb]
    exact ih (fun y hy => h y (List.mem_cons_of_mem x hy)) b'

/-! ## What a loop fills -/

theorem foldl_update_apply [DecidableEq α] (g : α → β) (l : List α) (f : α → Option β) (j : α) :
    l.foldl (fun f i => Function.update f i (some (g i))) f j = if j ∈ l then some (g j) else f j := by
  induction l generalizing f with
  | nil => rfl
  | cons i l ih =>
    rw [List.foldl_cons, ih]
    by_cases hj : j = i
    · subst hj
      simp
    · simp [hj]

/-- A vector, filled entry by entry. -/
theorem foldl_set_zipIdx (g : α → β) (l : List α) (k : ℕ) (pre : List (Option β))
    (hk : pre.length = k) :
    (l.zipIdx k).foldl (fun v x => v.set x.2 (some (g x.1)))
        (pre ++ List.replicate l.length none) = pre ++ l.map fun j => some (g j) := by
  induction l generalizing k pre with
  | nil => simp
  | cons j l ih =>
    have hset : (pre ++ List.replicate (j :: l).length none).set k (some (g j)) =
        (pre ++ [some (g j)]) ++ List.replicate l.length none := by
      rw [List.length_cons, List.replicate_succ, List.set_append_right _ _ hk.le, hk, Nat.sub_self,
        List.set_cons_zero, List.append_assoc]
      rfl
    rw [List.zipIdx_cons, List.foldl_cons, hset, ih (k + 1) _ (by simp [hk])]
    simp

/-- A vector over `1, …, N`, with one entry set. -/
theorem set_map_range' {d : ℕ} (N : ℕ) (f : ℕ → α) (x : α) (hd : 1 ≤ d) :
    ((List.range' 1 N).map f).set (d - 1) x = (List.range' 1 N).map (Function.update f d x) := by
  refine List.ext_getElem (by simp) fun n h1 h2 => ?_
  simp only [List.getElem_set, List.getElem_map, List.getElem_range', Nat.one_mul,
    Function.update_apply]
  exact if_congr (by omega) rfl rfl

/-- A vector of one value, with one entry set. -/
theorem getD_replicate_set (size i k : ℕ) (hi : i < size) (value val d : α) :
    ((List.replicate size value).set i val).getD k d =
      if k = i then val else if k < size then value else d := by
  rw [List.getD_eq_getElem?_getD, List.getElem?_set, List.getElem?_replicate, List.length_replicate]
  by_cases hk : i = k
  · rw [if_pos hk, if_pos hk.symm, if_pos hi]
    rfl
  · rw [if_neg hk, if_neg (Ne.symm hk)]
    split
    · rfl
    · rfl

theorem mem_intercalate {sep : List α} {ls : List (List α)} {c : α} (hc : c ∈ sep.intercalate ls) :
    c ∈ sep ∨ ∃ l ∈ ls, c ∈ l := by
  induction ls with
  | nil => simp at hc
  | cons l ls ih =>
    cases ls with
    | nil => exact .inr ⟨l, List.mem_cons_self, by simpa using hc⟩
    | cons l' ls =>
      rw [List.intercalate_cons_cons, List.append_assoc] at hc
      rcases List.mem_append.mp hc with hc | hc
      · exact .inr ⟨l, List.mem_cons_self, hc⟩
      rcases List.mem_append.mp hc with hc | hc
      · exact .inl hc
      · exact (ih hc).imp_right fun ⟨l₁, hl, hcl⟩ => ⟨l₁, List.mem_cons_of_mem l hl, hcl⟩

end Lists

import Mathlib.Data.List.Infix
import Mathlib.Data.List.Pairwise
import Mathlib.Data.List.Sort

/-!
# Cutting a list at a pattern

A list is cut at occurrences of a pattern `d`, which are taken out; `d.intercalate pieces` puts them
back. The occurrences may overlap each other, so that there is a choice.

* `OccursAt d l i`: the pattern stands in `l` at position `i`.
* `cuts d pieces`: the positions of the patterns between the pieces.
* `Leftmost d l cs`: the positions `cs` are occurrences, no two of them overlap, and every occurrence
  overlaps one of them that does not begin after it. There is only one such list (`Leftmost.unique`).
* `IsSplit d l pieces last`: the pieces between the leftmost patterns. A splitter that looks for the
  first pattern and goes on after it gives them (`IsSplit.one`, `IsSplit.cons`).
-/

namespace Cuts

variable {α : Type*} {d l : List α} {i : ℕ} {cs cs' : List ℕ}

/-- The pattern `d` stands in `l` at position `i`. -/
def OccursAt (d l : List α) (i : ℕ) : Prop := d <+: l.drop i

/-- The positions of the patterns in `d.intercalate pieces`. -/
def cuts (d : List α) : List (List α) → List ℕ
  | [] | [_] => []
  | p :: q :: pieces => p.length :: (cuts d (q :: pieces)).map (p.length + d.length + ·)

/-- The leftmost occurrences that do not overlap. -/
structure Leftmost (d l : List α) (cs : List ℕ) : Prop where
  occurs : ∀ c ∈ cs, OccursAt d l c
  disjoint : cs.Pairwise fun a b => a + d.length ≤ b
  covers : ∀ i, OccursAt d l i → ∃ c ∈ cs, c ≤ i ∧ i < c + d.length

/-- `l` is cut into the pieces, of which `last` is the last one, at the leftmost patterns. -/
structure IsSplit (d l : List α) (pieces : List (List α)) (last : List α) : Prop where
  joins : d.intercalate pieces = l
  leftmost : Leftmost d l (cuts d pieces)
  getLast : pieces.getLast? = some last
  /-- No pattern is left. -/
  clean : ¬ d <:+: last

/-! ## Occurrences -/

@[simp] theorem occursAt_zero : OccursAt d l 0 ↔ d <+: l := Iff.rfl

@[simp] theorem occursAt_cons_succ (c : α) : OccursAt d (c :: l) (i + 1) ↔ OccursAt d l i := Iff.rfl

theorem occursAt_drop (n : ℕ) : OccursAt d (l.drop n) i ↔ OccursAt d l (n + i) := by
  unfold OccursAt
  rw [List.drop_drop]

/-- An occurrence cuts the list into what is before it and what is after it. -/
theorem OccursAt.eq_append (h : OccursAt d l i) :
    l = l.take i ++ d ++ l.drop (i + d.length) := by
  obtain ⟨rest, hrest⟩ := h
  have hdrop : l.drop (i + d.length) = rest := by
    rw [← List.drop_drop, ← hrest, List.drop_left]
  rw [hdrop, List.append_assoc, hrest, List.take_append_drop]

theorem OccursAt.le_length (h : OccursAt d l i) (hd : d ≠ []) : i ≤ l.length := by
  by_contra hi
  have hnil : l.drop i = [] := List.drop_eq_nil_of_le (by omega)
  exact hd (List.prefix_nil.mp (hnil ▸ h))

theorem isInfix_iff : d <:+: l ↔ ∃ i, OccursAt d l i := by
  constructor
  · rintro ⟨s, t, rfl⟩
    refine ⟨s.length, ?_⟩
    unfold OccursAt
    rw [List.append_assoc, List.drop_left]
    exact List.prefix_append d t
  · rintro ⟨i, h⟩
    exact h.isInfix.trans (List.drop_suffix i l).isInfix

/-! ## The leftmost cuts -/

theorem Leftmost.nil (h : ∀ i, ¬ OccursAt d l i) : Leftmost d l [] where
  occurs _ hc := by cases hc
  disjoint := .nil
  covers i hi := absurd hi (h i)

/-- The first occurrence, and the leftmost ones after it. -/
theorem Leftmost.cons {pos : ℕ} (hpos : OccursAt d l pos) (hfirst : ∀ i < pos, ¬ OccursAt d l i)
    (h : Leftmost d (l.drop (pos + d.length)) cs) :
    Leftmost d l (pos :: cs.map (pos + d.length + ·)) where
  occurs c hc := by
    rcases List.mem_cons.mp hc with rfl | hc
    · exact hpos
    · obtain ⟨n, hn, rfl⟩ := List.mem_map.mp hc
      exact (occursAt_drop _).mp (h.occurs n hn)
  disjoint := by
    refine List.pairwise_cons.mpr ⟨fun c hc => ?_, ?_⟩
    · obtain ⟨c, -, rfl⟩ := List.mem_map.mp hc
      omega
    · rw [List.pairwise_map]
      exact h.disjoint.imp fun hab => by omega
  covers i hi := by
    by_cases hlt : i < pos
    · exact absurd hi (hfirst i hlt)
    by_cases hin : i < pos + d.length
    · exact ⟨pos, by simp, by omega, hin⟩
    · -- The occurrence is in the rest.
      obtain ⟨n, rfl⟩ : ∃ n, i = pos + d.length + n := ⟨i - (pos + d.length), by omega⟩
      obtain ⟨c, hc, hcn, hnc⟩ := h.covers n ((occursAt_drop _).mpr hi)
      exact ⟨pos + d.length + c, by simp [hc], by omega, by omega⟩

theorem Leftmost.eq_or_le {a b : ℕ} (h : Leftmost d l cs) (ha : a ∈ cs) (hb : b ∈ cs)
    (hab : a ≤ b) : a = b ∨ a + d.length ≤ b := by
  by_cases heq : a = b
  · exact .inl heq
  · have : Std.Symm fun a b => a + d.length ≤ b ∨ b + d.length ≤ a := ⟨fun _ _ h => h.symm⟩
    have hdisjoint : cs.Pairwise fun a b => a + d.length ≤ b ∨ b + d.length ≤ a :=
      h.disjoint.imp fun h => .inl h
    rcases hdisjoint.forall ha hb heq with h | h
    · exact .inr h
    · exact .inr (by omega)

/-- A cut of one leftmost cutting is in every other: else it overlaps a cut before it there, which,
by induction, is in the first one too. -/
theorem Leftmost.mem_of_mem (h : Leftmost d l cs) (h' : Leftmost d l cs') (c : ℕ) :
    (c ∈ cs → c ∈ cs') ∧ (c ∈ cs' → c ∈ cs) := by
  induction c using Nat.strongRecOn with
  | _ c ih =>
    constructor
    · intro hc
      obtain ⟨b, hb, hbc, hcb⟩ := h'.covers c (h.occurs c hc)
      rcases Nat.eq_or_lt_of_le hbc with rfl | hlt
      · exact hb
      · rcases h.eq_or_le ((ih b hlt).2 hb) hc hbc with h | h <;> omega
    · intro hc
      obtain ⟨b, hb, hbc, hcb⟩ := h.covers c (h'.occurs c hc)
      rcases Nat.eq_or_lt_of_le hbc with rfl | hlt
      · exact hb
      · rcases h'.eq_or_le ((ih b hlt).1 hb) hc hbc with h | h <;> omega

theorem Leftmost.sortedLT (hd : d ≠ []) (h : Leftmost d l cs) : cs.SortedLT := by
  have hpos := List.length_pos_iff.mpr hd
  exact List.Pairwise.sortedLT (h.disjoint.imp fun hab => by omega)

/-- **There is one leftmost cutting.** -/
theorem Leftmost.unique (hd : d ≠ []) (h : Leftmost d l cs) (h' : Leftmost d l cs') : cs = cs' :=
  (h.sortedLT hd).eq_of_mem_iff (h'.sortedLT hd) fun c =>
    ⟨(h.mem_of_mem h' c).1, (h.mem_of_mem h' c).2⟩

/-! ## The pieces -/

theorem IsSplit.one (h : ∀ i, ¬ OccursAt d l i) : IsSplit d l [l] l where
  joins := List.intercalate_singleton
  leftmost := .nil h
  getLast := rfl
  clean hi := by
    obtain ⟨i, hi⟩ := isInfix_iff.mp hi
    exact h i hi

/-- What is before the first pattern is a piece, and the rest is split. -/
theorem IsSplit.cons (hd : d ≠ []) {pos : ℕ} {pieces : List (List α)} {last : List α} (hpos : OccursAt d l pos)
    (hfirst : ∀ i < pos, ¬ OccursAt d l i)
    (h : IsSplit d (l.drop (pos + d.length)) pieces last) :
    IsSplit d l (l.take pos :: pieces) last := by
  obtain ⟨p, rest, rfl⟩ : ∃ p rest, pieces = p :: rest := by
    cases pieces with
    | nil => cases h.getLast
    | cons p rest => exact ⟨p, rest, rfl⟩
  have hlen : (l.take pos).length = pos := by
    have hle := hpos.le_length hd
    simp [hle]
  refine ⟨?_, ?_, ?_, h.clean⟩
  · rw [List.intercalate_cons_cons, h.joins]
    exact hpos.eq_append.symm
  · rw [cuts, hlen]
    exact .cons hpos hfirst h.leftmost
  · rw [List.getLast?_cons_cons]
    exact h.getLast

end Cuts

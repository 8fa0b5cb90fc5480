import Mathlib.Data.List.Basic
import Mathlib.Data.List.Infix
import Mathlib.Logic.Basic

/-!
# The runner of the tests

A test starts one process for each party of a network map, cuts what each has written to its standard
output into lines (`testing_runners.py`), and gives the lines between `DEMARCATE START` and
`DEMARCATE END` to its verifier. While a party waits for another one, it writes a spinner, which ends
without a new line: the next line has it in front.

* `stdout_list_eq`: the lines between the marks are those that were printed there.
* `agrees_spun_iff`: a verifier that leaves out noise accepts lines with a spinner in front of one of
  them if it has made at most one turn.
-/

namespace TestNets

/-! ## The standard output -/

def endl (line : String) : String := line ++ "\n"

/-- What the spinner writes in its turn `k`. -/
def star (k : ℕ) : String := ["|", "/", "-", "\\"].getD (k % 4) "" ++ "\r"

/-- The spinner after `n` turns. -/
def spinner (n : ℕ) : List Char := (List.range n).flatMap fun k => (star k).toList

/-- The text of whole lines. -/
def text (lines : List (List Char)) : List Char := lines.flatMap fun ln => ln ++ ['\n']

def start : List Char := "DEMARCATE START".toList

def stop : List Char := "DEMARCATE END".toList

/-- The lines `before`, the mark, and the lines `after` it. -/
def printed (before after : List (List Char)) : List Char := text (before ++ start :: after)

/-- The loop over the lines. -/
def demarcated (seen_demarcate : Bool) : List (List Char) → List (List Char)
  | [] => []
  | ln :: lns =>
    if ln = start then demarcated true lns
    else if ln = stop then demarcated false lns
    else if seen_demarcate then ln :: demarcated seen_demarcate lns
    else demarcated seen_demarcate lns

/-- The lines that a verifier gets: `__run`. -/
def stdout_list (stdout : List Char) : List (List Char) := demarcated false (stdout.splitOn '\n')

/-- The line without the characters that a verifier takes for noise. -/
def shown (actual : List Char) : List Char := actual.filter fun s => 31 < s.toNat ∧ s.toNat < 122

/-- The line is the expected one, as it is or without the noise. -/
def same (actual : List Char) (expected : String) : Bool :=
  actual = expected.toList || shown actual = expected.toList

/-- The comparison line by line; what is left over of the longer list is not looked at. -/
def agrees (same : List Char → String → Bool) (cout : List (List Char)) (reference : List String) :
    Bool :=
  (cout.zip reference).all fun x => same x.1 x.2

/-- The lines with the spinner in front of the line `j`. -/
def spun (j n : ℕ) (lines : List (List Char)) : List (List Char) := lines.modify j (spinner n ++ ·)

/-! ## Lines -/

variable {L : List (List Char)} {ln : List Char} {a b : String} {k n : ℕ}

theorem text_append (L L' : List (List Char)) : text (L ++ L') = text L ++ text L' :=
  List.flatMap_append

theorem printed_eq (before after : List (List Char)) :
    printed before after = text before ++ (start ++ ['\n']) ++ text after := by
  rw [List.append_assoc]
  exact text_append before (start :: after)

theorem splitOn_text (h : ∀ ln ∈ L, '\n' ∉ ln) : (text L).splitOn '\n' = L ++ [[]] := by
  induction L with
  | nil => rfl
  | cons ln L ih =>
    have hcons : text (ln :: L) = ln ++ '\n' :: text L := by
      simp [text]
    rw [hcons, List.splitOn_append_cons_self_of_not_mem (h ln List.mem_cons_self),
      ih fun l hl => h l (List.mem_cons_of_mem ln hl), List.cons_append]

/-- A line that stands between the marks, or before or after them. -/
structure IsLine (ln : List Char) : Prop where
  unbroken : '\n' ∉ ln
  ne_start : ln ≠ start
  ne_stop : ln ≠ stop

theorem demarcated_false (h : ∀ ln ∈ L, IsLine ln) (L' : List (List Char)) :
    demarcated false (L ++ L') = demarcated false L' := by
  induction L with
  | nil => rfl
  | cons ln L ih =>
    obtain ⟨-, hstart, hstop⟩ := h ln List.mem_cons_self
    rw [List.cons_append, demarcated, if_neg hstart, if_neg hstop]
    exact ih fun l hl => h l (List.mem_cons_of_mem ln hl)

theorem demarcated_true (h : ∀ ln ∈ L, IsLine ln) (L' : List (List Char)) :
    demarcated true (L ++ L') = L ++ demarcated true L' := by
  induction L with
  | nil => rfl
  | cons ln L ih =>
    obtain ⟨-, hstart, hstop⟩ := h ln List.mem_cons_self
    rw [List.cons_append, demarcated, if_neg hstart, if_neg hstop, if_pos rfl,
      ih fun l hl => h l (List.mem_cons_of_mem ln hl), List.cons_append]

theorem not_mem_start : '\n' ∉ start := by decide

theorem not_mem_stop : '\n' ∉ stop := by decide

section

variable {before between after : List (List Char)}

/-- The lines after `DEMARCATE START`, whatever follows. -/
theorem stdout_list_start (hbefore : ∀ ln ∈ before, IsLine ln) (hbetween : ∀ ln ∈ between, IsLine ln)
    (hafter : ∀ ln ∈ after, '\n' ∉ ln) :
    stdout_list (printed before (between ++ after)) = between ++ demarcated true (after ++ [[]]) := by
  have hunbroken : ∀ ln ∈ before ++ start :: (between ++ after), '\n' ∉ ln := by
    intro ln hln
    rcases List.mem_append.mp hln with hln | hln
    · exact (hbefore ln hln).unbroken
    · rcases List.mem_cons.mp hln with rfl | hln
      · exact not_mem_start
      · rcases List.mem_append.mp hln with hln | hln
        · exact (hbetween ln hln).unbroken
        · exact hafter ln hln
  unfold stdout_list printed
  rw [splitOn_text hunbroken, List.append_assoc, demarcated_false hbefore, List.cons_append, demarcated,
    if_pos rfl, List.append_assoc, demarcated_true hbetween]

/-- **The lines between the marks.** -/
theorem stdout_list_eq (hbefore : ∀ ln ∈ before, IsLine ln) (hbetween : ∀ ln ∈ between, IsLine ln)
    (hafter : ∀ ln ∈ after, IsLine ln) :
    stdout_list (printed before (between ++ stop :: after)) = between := by
  have hunbroken : ∀ ln ∈ stop :: after, '\n' ∉ ln := by
    intro ln hln
    rcases List.mem_cons.mp hln with rfl | hln
    · exact not_mem_stop
    · exact (hafter ln hln).unbroken
  have hend : demarcated true (stop :: after ++ [[]]) = [] := by
    rw [List.cons_append, demarcated, if_neg (by decide), if_pos rfl, demarcated_false hafter]
    decide
  rw [stdout_list_start hbefore hbetween hunbroken, hend, List.append_nil]

end

/-! ## The lines of the parties -/

/-- A line that a verifier does not change, and that is no mark. -/
structure Plain (line : String) : Prop where
  shown : ∀ c ∈ line.toList, 31 < c.toNat ∧ c.toNat < 122
  /-- The marks have capital letters only. -/
  small : ∃ c ∈ line.toList, c.isLower = true

/-- A part of such a line. -/
def IsPart (line : String) : Prop := ∀ c ∈ line.toList, 31 < c.toNat ∧ c.toNat < 122

instance (line : String) : Decidable (IsPart line) :=
  List.decidableBAll (fun c : Char => 31 < c.toNat ∧ c.toNat < 122) line.toList

instance (line : String) : Decidable (Plain line) :=
  decidable_of_iff (IsPart line ∧ line.toList.any Char.isLower = true)
    ⟨fun h => ⟨h.1, List.any_eq_true.mp h.2⟩, fun h => ⟨h.shown, List.any_eq_true.mpr h.small⟩⟩

theorem IsPart.append (ha : IsPart a) (hb : IsPart b) : IsPart (a ++ b) := by
  intro c hc
  rw [String.toList_append] at hc
  rcases List.mem_append.mp hc with hc | hc
  · exact ha c hc
  · exact hb c hc

theorem Plain.isPart (h : Plain a) : IsPart a := h.shown

theorem Plain.append (ha : Plain a) (hb : IsPart b) : Plain (a ++ b) where
  shown := ha.isPart.append hb
  small := by
    obtain ⟨c, hc, hlower⟩ := ha.small
    refine ⟨c, ?_, hlower⟩
    rw [String.toList_append]
    exact List.mem_append_left _ hc

theorem isPart_digits {c : Char} (h : c.isDigit = true) : 31 < c.toNat ∧ c.toNat < 122 := by
  simp only [Char.isDigit, Bool.and_eq_true, decide_eq_true_eq, UInt32.le_iff_toNat_le] at h
  have hlow : '0'.val.toNat ≤ c.toNat := h.1
  have hhigh : c.toNat ≤ '9'.val.toNat := h.2
  have h0 : '0'.val.toNat = 48 := rfl
  have h9 : '9'.val.toNat = 57 := rfl
  omega

theorem isPart_toString (k : ℕ) : IsPart (toString k) := by
  intro c hc
  have hrepr : (toString k).toList = Nat.toDigits 10 k := by
    show (Nat.repr k).toList = _
    simp [Nat.repr]
  rw [hrepr] at hc
  exact isPart_digits (Nat.isDigit_of_mem_toDigits (by decide) (by decide) hc)

/-! ## The spinner -/

theorem mem_star {c : Char} (hc : c ∈ (star k).toList) : c ∈ ['|', '/', '-', '\\', '\r'] := by
  have hall : ∀ j < 4, (star j).toList.all (· ∈ ['|', '/', '-', '\\', '\r']) = true := by decide
  have hmod : star k = star (k % 4) := by
    unfold star
    rw [Nat.mod_mod]
  rw [hmod] at hc
  exact of_decide_eq_true (List.all_eq_true.mp (hall (k % 4) (Nat.mod_lt k (by decide))) c hc)

theorem mem_spinner {c : Char} (hc : c ∈ spinner n) : c ∈ ['|', '/', '-', '\\', '\r'] := by
  obtain ⟨k, -, hk⟩ := List.mem_flatMap.mp hc
  exact mem_star hk

theorem spinner_ne_nil (h : n ≠ 0) : spinner n ≠ [] := by
  obtain ⟨m, rfl⟩ := Nat.exists_eq_succ_of_ne_zero h
  intro hnil
  have hmem : '|' ∈ spinner (m + 1) :=
    List.mem_flatMap.mpr ⟨0, List.mem_range.mpr (Nat.succ_pos m), by decide⟩
  rw [hnil] at hmem
  cases hmem

/-- A verifier sees the spinner from its second turn on. -/
theorem shown_spinner : shown (spinner n) = [] ↔ n ≤ 1 := by
  constructor
  · intro h
    by_contra hn
    have hmem : '/' ∈ spinner n :=
      List.mem_flatMap.mpr ⟨1, List.mem_range.mpr (not_le.mp hn), by decide⟩
    have hshown : '/' ∈ shown (spinner n) := List.mem_filter.mpr ⟨hmem, by decide⟩
    rw [h] at hshown
    cases hshown
  · intro h
    rcases Nat.le_one_iff_eq_zero_or_eq_one.mp h with rfl | rfl
    · rfl
    · decide

theorem isLine_of_small {c : Char} (hc : c ∈ ln) (hlower : c.isLower = true) (h : '\n' ∉ ln) :
    IsLine ln := by
  have hstart : start.any Char.isLower = false := by decide
  have hstop : stop.any Char.isLower = false := by decide
  have hany : ln.any Char.isLower = true := List.any_eq_true.mpr ⟨c, hc, hlower⟩
  refine ⟨h, ?_, ?_⟩
  · rintro rfl
    cases hany.symm.trans hstart
  · rintro rfl
    cases hany.symm.trans hstop

/-- A line is no mark, whatever spinner is in front of it. -/
theorem Plain.isLine (h : Plain a) {s : List Char} (hs : '\n' ∉ s) : IsLine (s ++ a.toList) := by
  obtain ⟨c, hc, hlower⟩ := h.small
  refine isLine_of_small (List.mem_append_right _ hc) hlower fun hmem => ?_
  rcases List.mem_append.mp hmem with hmem | hmem
  · exact hs hmem
  · exact absurd (h.shown _ hmem).1 (by decide)

theorem notMem_spinner (n : ℕ) : '\n' ∉ spinner n := fun h => absurd (mem_spinner h) (by decide)

theorem Plain.shown_eq (h : Plain a) : TestNets.shown a.toList = a.toList :=
  List.filter_eq_self.mpr fun c hc => decide_eq_true (h.shown c hc)

/-- **When a line with a spinner is accepted.** -/
theorem same_spinner_iff (h : Plain a) : same (spinner n ++ a.toList) a = true ↔ n ≤ 1 := by
  have hshown : shown (spinner n ++ a.toList) = shown (spinner n) ++ a.toList := by
    unfold shown
    rw [List.filter_append]
    exact congrArg _ h.shown_eq
  unfold same
  rw [hshown, Bool.or_eq_true, decide_eq_true_eq, decide_eq_true_eq, List.append_left_eq_self,
    List.append_left_eq_self, shown_spinner]
  constructor
  · rintro (hnil | hle)
    · by_contra hn
      exact spinner_ne_nil (by omega) hnil
    · exact hle
  · exact .inr

theorem same_self (a : String) : same a.toList a = true := by simp [same]

/-! ## What a verifier says -/

theorem agrees_append {sm : List Char → String → Bool} {cout : List (List Char)}
    {reference : List String} (h : cout.length = reference.length) (rest : List (List Char)) :
    agrees sm (cout ++ rest) reference = agrees sm cout reference := by
  have hzip : (cout ++ rest).zip (reference ++ []) = cout.zip reference ++ rest.zip [] :=
    List.zip_append h
  rw [List.append_nil, List.zip_nil_right, List.append_nil] at hzip
  unfold agrees
  rw [hzip]

/-- The expected lines agree. -/
theorem agrees_self {sm : List Char → String → Bool} (hsm : ∀ a, sm a.toList a = true)
    (reference : List String) : agrees sm (reference.map String.toList) reference = true := by
  induction reference with
  | nil => rfl
  | cons a reference ih =>
    unfold agrees at ih ⊢
    rw [List.map_cons, List.zip_cons_cons, List.all_cons, ih, hsm, Bool.and_self]

/-- The line after `front` has a spinner in front of it. -/
theorem agrees_line_iff {front back : List String} (ha : Plain a) :
    agrees same (front.map String.toList ++ (spinner n ++ a.toList) :: back.map String.toList)
      (front ++ a :: back) = true ↔ n ≤ 1 := by
  have hzip : (front.map String.toList ++ (spinner n ++ a.toList) :: back.map String.toList).zip
      (front ++ a :: back) = (front.map String.toList).zip front ++
        ((spinner n ++ a.toList) :: back.map String.toList).zip (a :: back) :=
    List.zip_append (List.length_map _)
  have hfront := agrees_self same_self front
  have hback := agrees_self same_self back
  unfold agrees at hfront hback ⊢
  rw [hzip, List.all_append, hfront, List.zip_cons_cons, List.all_cons, hback, Bool.true_and,
    Bool.and_true]
  exact same_spinner_iff ha

theorem spun_append (front : List (List Char)) (ln : List Char) (back : List (List Char)) :
    spun front.length n (front ++ ln :: back) = front ++ (spinner n ++ ln) :: back := by
  induction front with
  | nil => rfl
  | cons x front ih =>
    unfold spun at ih ⊢
    rw [List.length_cons, List.cons_append, List.modify_succ_cons, ih, List.cons_append]

section

variable {lines reference : List String} {before after : List (List Char)} {j : ℕ}

theorem map_isLine (h : ∀ a ∈ lines, Plain a) : ∀ ln ∈ lines.map String.toList, IsLine ln := by
  intro ln hln
  obtain ⟨a, ha, rfl⟩ := List.mem_map.mp hln
  exact (h a ha).isLine (s := []) List.not_mem_nil

/-- **When a verifier accepts a spinner in front of a line.** -/
theorem agrees_spun_iff (hbefore : ∀ ln ∈ before, IsLine ln) (hreference : ∀ a ∈ reference, Plain a)
    (hafter : ∀ ln ∈ after, IsLine ln) (hj : j < reference.length) :
    agrees same (stdout_list (printed before
      (spun j n (reference.map String.toList ++ [stop]) ++ after))) reference = true ↔ n ≤ 1 := by
  obtain ⟨front, a, back, rfl, rfl⟩ :
      ∃ front a back, reference = front ++ a :: back ∧ j = front.length :=
    ⟨reference.take j, reference[j], reference.drop (j + 1), by simp, by simp [hj.le]⟩
  have ha : Plain a := hreference a (by simp)
  have hlines : spun front.length n ((front ++ a :: back).map String.toList ++ [stop]) ++ after =
      (front.map String.toList ++ (spinner n ++ a.toList) :: back.map String.toList) ++
        stop :: after := by
    have hspun := spun_append (n := n) (front.map String.toList) a.toList
      (back.map String.toList ++ [stop])
    rw [List.length_map] at hspun
    rw [List.map_append, List.map_cons, List.append_assoc, List.cons_append, hspun]
    simp
  have hbetween : ∀ ln ∈ front.map String.toList ++ (spinner n ++ a.toList) :: back.map String.toList,
      IsLine ln := by
    intro ln hln
    rcases List.mem_append.mp hln with hln | hln
    · exact map_isLine (fun b hb => hreference b (List.mem_append_left _ hb)) ln hln
    · rcases List.mem_cons.mp hln with rfl | hln
      · exact ha.isLine (notMem_spinner n)
      · exact map_isLine (fun b hb => hreference b (by simp [hb])) ln hln
  rw [hlines, stdout_list_eq hbefore hbetween hafter]
  exact agrees_line_iff ha

/-- A spinner after the last line is not looked at. -/
theorem agrees_spun_stop (hbefore : ∀ ln ∈ before, IsLine ln) (hreference : ∀ a ∈ reference, Plain a)
    (hafter : ∀ ln ∈ after, IsLine ln) (n : ℕ) :
    agrees same (stdout_list (printed before
      (spun reference.length n (reference.map String.toList ++ [stop]) ++ after))) reference = true := by
  have hlines : spun reference.length n (reference.map String.toList ++ [stop]) ++ after =
      reference.map String.toList ++ ((spinner n ++ stop) :: after) := by
    have hspun := spun_append (n := n) (reference.map String.toList) stop []
    rw [List.length_map] at hspun
    rw [hspun, List.append_assoc, List.cons_append, List.nil_append]
  have hrest : ∀ ln ∈ (spinner n ++ stop) :: after, '\n' ∉ ln := by
    intro ln hln
    rcases List.mem_cons.mp hln with rfl | hln
    · intro hmem
      exact (List.mem_append.mp hmem).elim (notMem_spinner n) not_mem_stop
    · exact (hafter ln hln).unbroken
  rw [hlines, stdout_list_start hbefore (map_isLine hreference) hrest, agrees_append (List.length_map _)]
  exact agrees_self same_self reference

end

end TestNets

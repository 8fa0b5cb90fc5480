import NetworkExamples.P2P.PathStatistics
import NetworkExamples.P2P.RegisterFunctions
import Mathlib.Algebra.BigOperators.Group.List.Basic

/-!
# What is accumulated in the registers

* `registers_sum`: after any sequence of `write`, `add` and `sub` on a ciphertext of zeros, each entry
  of a register is the sum of what has been written to it, whatever the order was.
-/

namespace P2P

namespace RegisterFunctions

open Statistics (Registers initializeMap)

variable {R : Type} [CommRing R]

/-! ## Sequences of operations -/

/-- The operations that accumulate. -/
inductive Op (R : Type) where
  | write (name : String) (val : R) (index : ℤ)
  | add (name : String) (val : R) (index : ℤ)
  | sub (name : String) (val : R) (index : ℤ)

namespace Op

def name : Op R → String
  | write name _ _ | add name _ _ | sub name _ _ => name

def index : Op R → ℤ
  | write _ _ index | add _ _ index | sub _ _ index => index

/-- What is added, with its sign. -/
def amount : Op R → R
  | write _ val _ | add _ val _ => val
  | sub _ val _ => -val

def apply {n : ℕ} (map2vector : Registers) (cipherText : Slots n R) : Op R → Except Fault (Slots n R)
  | write name val index => RegisterFunctions.write map2vector cipherText name val index
  | add name val index => RegisterFunctions.add map2vector cipherText name val index
  | sub name val index => RegisterFunctions.sub map2vector cipherText name val index

/-- The name is that of a register, and the index is in its range. -/
def Valid (map2vector : Registers) (op : Op R) : Prop :=
  ∃ offset length : ℕ, map2vector.lookup op.name = some (offset, length) ∧
    0 ≤ op.index ∧ op.index < length

end Op

/-- The operations, one after the other, on a ciphertext of zeros. -/
def run (n : ℕ) (map2vector : Registers) (ops : List (Op R)) : Except Fault (Slots n R) :=
  ops.foldlM (fun cipherText op => op.apply map2vector cipherText) 0

/-- What has been written to an entry. -/
def signedSum (ops : List (Op R)) (name : String) (i : ℕ) : R :=
  ((ops.filter fun op : Op R => op.name = name ∧ op.index = (i : ℤ)).map Op.amount).sum

/-! ## The slots -/

section

variable {map2vector : Registers} {n ringsize : ℕ} {name : String} {offset length : ℕ}

/-- What an operation adds to the slot `k`. -/
def contribution (map2vector : Registers) (k : ℕ) (op : Op R) : Complex R :=
  if getOffset map2vector op.name op.index + op.index = k then .C op.amount else 0

theorem Op.apply_eq_write (op : Op R) (ct : Slots n R) :
    op.apply map2vector ct = RegisterFunctions.write map2vector ct op.name op.amount op.index := by
  cases op <;> rfl

theorem apply_eq (hmap : initializeMap ringsize = some map2vector) {op : Op R}
    (hop : op.Valid map2vector) (ct : Slots (ringsize / 2) R) :
    op.apply map2vector ct = .ok fun k => ct k + contribution map2vector k op := by
  obtain ⟨offset, length, hlookup, hnonneg, hlt⟩ := hop
  obtain ⟨i, hi⟩ := Int.eq_ofNat_of_zero_le hnonneg
  have hentry := entry_of_lookup hmap hlookup (i := i) (by omega)
  rw [Op.apply_eq_write, hi, write_eq hentry]
  congr 1
  funext k
  have hslot : getOffset map2vector op.name op.index + op.index = k ↔ (k : ℕ) = offset + i := by
    rw [getOffset_of_lt hlookup hlt, hi]
    omega
  unfold contribution
  simp only [hslot]

theorem foldlM_eq (hmap : initializeMap ringsize = some map2vector) {ops : List (Op R)}
    (hops : ∀ op ∈ ops, op.Valid map2vector) (ct : Slots (ringsize / 2) R) :
    ops.foldlM (fun cipherText op => op.apply map2vector cipherText) ct =
      .ok fun k => ct k + (ops.map (contribution map2vector k)).sum := by
  induction ops generalizing ct with
  | nil => simp [pure, Except.pure]
  | cons op ops ih =>
    rw [List.foldlM_cons, apply_eq hmap (hops op List.mem_cons_self)]
    change List.foldlM _ _ ops = _
    rw [ih fun op' hop' => hops op' (List.mem_cons_of_mem op hop')]
    congr 1
    funext k
    rw [List.map_cons, List.sum_cons, add_assoc]

/-- **The slots after a sequence of operations.** -/
theorem run_eq (hmap : initializeMap ringsize = some map2vector) {ops : List (Op R)}
    (hops : ∀ op ∈ ops, op.Valid map2vector) : run (ringsize / 2) map2vector ops =
      .ok fun k => (ops.map (contribution map2vector k)).sum := by
  unfold run
  rw [foldlM_eq hmap hops]
  congr 1
  funext k
  exact zero_add _

/-- Only the operations on an entry add to its slot: the registers are disjoint. -/
theorem contribution_eq (hmap : initializeMap ringsize = some map2vector) {op : Op R}
    (hop : op.Valid map2vector) (h : map2vector.lookup name = some (offset, length)) {i : ℕ}
    (hi : i < length) : contribution map2vector (offset + i) op =
      if op.name = name ∧ op.index = i then .C op.amount else 0 := by
  obtain ⟨offset', length', hlookup, hnonneg, hlt⟩ := hop
  have hslot : getOffset map2vector op.name op.index + op.index = ((offset + i : ℕ) : ℤ) ↔
      op.name = name ∧ op.index = i := by
    rw [getOffset_of_lt hlookup hlt]
    constructor
    · intro heq
      by_cases hname : op.name = name
      · rw [hname, h] at hlookup
        obtain ⟨rfl, rfl⟩ := Prod.mk.inj (Option.some.inj hlookup)
        exact ⟨hname, by omega⟩
      · rcases registers_disjoint hmap hlookup h hname with hle | hle <;> omega
    · rintro ⟨hname, hindex⟩
      rw [hname, h] at hlookup
      obtain ⟨rfl, rfl⟩ := Prod.mk.inj (Option.some.inj hlookup)
      omega
  unfold contribution
  simp only [hslot]

theorem sum_contribution (hmap : initializeMap ringsize = some map2vector) {ops : List (Op R)}
    (hops : ∀ op ∈ ops, op.Valid map2vector)
    (h : map2vector.lookup name = some (offset, length)) {i : ℕ} (hi : i < length) :
    (ops.map (contribution map2vector (offset + i))).sum = .C (signedSum ops name i) := by
  induction ops with
  | nil => rfl
  | cons op ops ih =>
    rw [List.map_cons, List.sum_cons, ih fun op' hop' => hops op' (List.mem_cons_of_mem op hop'),
      contribution_eq hmap (hops op List.mem_cons_self) h hi]
    unfold signedSum
    by_cases hop : op.name = name ∧ op.index = i
    · rw [if_pos hop, List.filter_cons_of_pos (by simpa using hop), List.map_cons, List.sum_cons,
        QuadraticAlgebra.C_add]
    · rw [if_neg hop, List.filter_cons_of_neg (by simpa using hop), zero_add]

/-! ## Unpacking -/

/-- The vector of a register. -/
def slice (pt : List (Complex R)) (register : ℕ × ℕ) : List R :=
  ((pt.drop register.1).take register.2).map QuadraticAlgebra.re

theorem unpackPT_eq {pt : List (Complex R)}
    (hfits : ∀ r ∈ map2vector, r.2.1 + r.2.2 ≤ pt.length) :
    unpackPT map2vector pt = some (map2vector.map fun r => (r.1, slice pt r.2)) := by
  unfold unpackPT
  induction map2vector with
  | nil => rfl
  | cons r map2vector ih =>
    obtain ⟨name, offset, length⟩ := r
    have hfit : offset + length ≤ pt.length := hfits _ List.mem_cons_self
    rw [List.mapM_cons, ih fun r' hr' => hfits r' (List.mem_cons_of_mem _ hr')]
    simp only [if_pos hfit]
    rfl

/-- The controller unpacks the real parts. -/
theorem statistics_unpackPT_eq (pt : List (Complex ℚ)) :
    Statistics.unpackPT map2vector (pt.map QuadraticAlgebra.re) = unpackPT map2vector pt := by
  unfold Statistics.unpackPT unpackPT
  congr 1
  funext r
  simp only [List.length_map, List.map_take, List.map_drop]

theorem length_slice {pt : List (Complex R)} (h : offset + length ≤ pt.length) :
    (slice pt (offset, length)).length = length := by
  unfold slice
  rw [List.length_map, List.length_take, List.length_drop]
  simp only
  omega

theorem getElem?_slice (ct : Slots n R) {i : ℕ} (hi : i < length) (h : offset + length ≤ n) :
    (slice (List.ofFn ct) (offset, length))[i]? = some (ct ⟨offset + i, by omega⟩).re := by
  unfold slice
  rw [List.getElem?_map, List.getElem?_take_of_lt hi, List.getElem?_drop, List.getElem?_ofFn,
    dif_pos (by omega)]
  rfl

/-- A register holds the sums. -/
theorem slice_eq (hmap : initializeMap ringsize = some map2vector) {ops : List (Op R)}
    (hops : ∀ op ∈ ops, op.Valid map2vector)
    (h : map2vector.lookup name = some (offset, length)) :
    slice (List.ofFn fun k : Fin (ringsize / 2) => (ops.map (contribution map2vector k)).sum)
      (offset, length) = (List.range length).map (signedSum ops name) := by
  have hfit := (register_fits hmap h).2
  refine List.ext_getElem? fun i => ?_
  by_cases hi : i < length
  · rw [getElem?_slice _ hi hfit, sum_contribution hmap hops h hi, List.getElem?_map,
      List.getElem?_range hi]
    rfl
  · rw [List.getElem?_eq_none, List.getElem?_eq_none]
    · simpa using hi
    · rw [length_slice (by rwa [List.length_ofFn])]
      omega

/-- The vectors of the registers. -/
def sums (map2vector : Registers) (ops : List (Op R)) : List (String × List R) :=
  map2vector.map fun r => (r.1, (List.range r.2.2).map (signedSum ops r.1))

/-- What is unpacked after a sequence of operations. -/
theorem unpackPT_run (hmap : initializeMap ringsize = some map2vector) {ops : List (Op R)}
    (hops : ∀ op ∈ ops, op.Valid map2vector) : ∃ ct, run (ringsize / 2) map2vector ops = .ok ct ∧
      unpackPT map2vector (List.ofFn ct) = some (sums map2vector ops) := by
  have hlookup : ∀ r ∈ map2vector, map2vector.lookup r.1 = some r.2 := by
    rw [(initializeMap_some hmap).1]
    decide
  refine ⟨_, run_eq hmap hops, ?_⟩
  rw [unpackPT_eq fun r hr => ?_]
  · refine congrArg some (List.map_congr_left fun r hr => ?_)
    rw [slice_eq hmap hops (hlookup r hr)]
  · rw [List.length_ofFn]
    exact (register_fits hmap (hlookup r hr)).2

theorem lookup_sums (ops : List (Op R)) (h : map2vector.lookup name = some (offset, length)) :
    (sums map2vector ops).lookup name = some ((List.range length).map (signedSum ops name)) := by
  unfold sums
  induction map2vector with
  | nil => cases h
  | cons r map2vector ih =>
    rw [List.lookup_cons] at h
    rw [List.map_cons, List.lookup_cons]
    by_cases hr : name = r.1
    · subst hr
      simp only [beq_self_eq_true] at h ⊢
      rw [Option.some.inj h]
    · rw [beq_false_of_ne hr] at h ⊢
      exact ih h

/-- The order of the operations does not matter. -/
theorem signedSum_perm {ops ops' : List (Op R)} (h : ops'.Perm ops) :
    signedSum ops' name = signedSum ops name := by
  funext i
  exact ((h.filter _).map _).sum_eq

end

/-- **The registers accumulate**: they are disjoint and within the slots, and after any sequence of
operations, in any order, each entry is the sum of what has been written to it. -/
theorem registers_sum {R : Type} [CommRing R] (ringsize : ℕ) (map2vector : Registers)
    (hmap : initializeMap ringsize = some map2vector) :
    (∀ name offset length, map2vector.lookup name = some (offset, length) →
      offset + length ≤ ringsize / 2) ∧
    (∀ name name' offset offset' length length',
      map2vector.lookup name = some (offset, length) →
      map2vector.lookup name' = some (offset', length') → name ≠ name' →
      offset + length ≤ offset' ∨ offset' + length' ≤ offset) ∧
    ∀ ops : List (Op R), (∀ op ∈ ops, op.Valid map2vector) →
      ∃ outmap, outmap.map Prod.fst = map2vector.map Prod.fst ∧
        (∀ ops', ops'.Perm ops → ∃ ct, run (ringsize / 2) map2vector ops' = .ok ct ∧
          unpackPT map2vector (List.ofFn ct) = some outmap) ∧
        ∀ name offset length, map2vector.lookup name = some (offset, length) →
          ∃ v : List R, outmap.lookup name = some v ∧ v.length = length ∧
            ∀ i, i < length → v[i]? = some (signedSum ops name i) := by
  refine ⟨fun name offset length h => (register_fits hmap h).2,
    fun name name' offset offset' length length' h h' hne => registers_disjoint hmap h h' hne,
    fun ops hops => ⟨sums map2vector ops, ?_, fun ops' hperm => ?_, fun name offset length h => ?_⟩⟩
  · unfold sums
    rw [List.map_map]
    rfl
  · obtain ⟨ct, hrun, hunpack⟩ := unpackPT_run hmap fun op hop => hops op (hperm.mem_iff.mp hop)
    refine ⟨ct, hrun, hunpack.trans ?_⟩
    unfold sums
    simp only [signedSum_perm hperm]
  · refine ⟨_, lookup_sums ops h, ?_, fun i hi => ?_⟩
    · rw [List.length_map, List.length_range]
    · rw [List.getElem?_map, List.getElem?_range hi]
      rfl

/-- Three operations, in the other order. -/
theorem registers_sum_three : ∃ (ct : Slots 13 ℤ) (outmap : List (String × List ℤ)) (v : List ℤ),
    run 13 Statistics.map2vector [.add "n" 1 0, .sub "v1" 1 2, .write "v1" 5 2] = .ok ct ∧
      unpackPT Statistics.map2vector (List.ofFn ct) = some outmap ∧
      outmap.lookup "v1" = some v ∧ v[2]? = some 4 := by
  let ops : List (Op ℤ) := [.write "v1" 5 2, .sub "v1" 1 2, .add "n" 1 0]
  have hops : ∀ op ∈ ops, op.Valid Statistics.map2vector := by
    intro op hop
    simp only [ops, List.mem_cons, List.not_mem_nil, or_false] at hop
    rcases hop with rfl | rfl | rfl
    · exact ⟨0, 4, rfl, by decide, by decide⟩
    · exact ⟨0, 4, rfl, by decide, by decide⟩
    · exact ⟨12, 1, rfl, by decide, by decide⟩
  obtain ⟨-, -, hsum⟩ := registers_sum (R := ℤ) 26 Statistics.map2vector
    (Statistics.initializeMap_eq le_rfl)
  obtain ⟨outmap, -, hrun, hentries⟩ := hsum ops hops
  obtain ⟨ct, hct, hunpack⟩ := hrun _ (List.reverse_perm ops)
  obtain ⟨v, hv, -, hentry⟩ := hentries "v1" 0 4 rfl
  exact ⟨ct, outmap, v, hct, hunpack, hv, (hentry 2 (by decide)).trans (by decide)⟩

end RegisterFunctions

end P2P

import NetworkExamples.P2P.NetworkStatistics
import Mathlib.Algebra.QuadraticAlgebra.Defs
import Mathlib.Algebra.Ring.Pi
import Mathlib.Tactic.Ring

/-!
# The functions on registers

The code of `register_functions.h`, on the slots of a ciphertext, with all that happens if an access
is rejected: `get_offset` answers -1 then, and the size of a vector and an index are computed from
that. The indices are `int`s, and `get_offset` does not reject the negative ones.

* `write_eq`, `mul_eq`: what an access to an entry does to the slots.
* `touches_iff`: when `mul` and `owrite` touch one slot only.
* `rejected_iff`: when a rejected access leaves the ciphertext alone.
-/

namespace P2P

namespace RegisterFunctions

open Statistics (Registers initializeMap)

/-- The values of a slot, exactly. -/
abbrev Complex (R : Type) [CommRing R] : Type := QuadraticAlgebra R (-1) 0

/-- What a ciphertext with `n` slots decrypts to. -/
abbrev Slots (n : ℕ) (R : Type) [CommRing R] : Type := Fin n → Complex R

/-! ## The source -/

inductive Fault where
  /-- `std::length_error`: the size of a vector is a negative number. -/
  | lengthError
  /-- A write outside of a vector. -/
  | outOfRange
  | exit
  /-- `MakeCKKSPackedPlaintext` throws: there are more values than slots. -/
  | packing
  deriving DecidableEq

def getOffset (map2vector : Registers) (name : String) (index : ℤ) : ℤ :=
  match map2vector.lookup name with
  | none => -1
  | some (offset, length) => if index ≥ length then -1 else offset

def getLength (map2vector : Registers) (name : String) : ℤ :=
  match map2vector.lookup name with
  | none => -1
  | some (_, length) => length

section

variable {α : Type}

/-- `std::vector<std::complex<double>> invec(size, value)`. -/
def vector (size : ℤ) (value : α) : Except Fault (List α) :=
  if size < 0 then .error .lengthError else .ok (List.replicate size.toNat value)

/-- `invec[i] = val`. -/
def assign (invec : List α) (i : ℤ) (val : α) : Except Fault (List α) :=
  if 0 ≤ i ∧ i < invec.length then .ok (invec.set i.toNat val) else .error .outOfRange

end

variable {R : Type} [CommRing R] {n : ℕ}

/-- A vector that is shorter is padded with zeros. -/
def makeCKKSPackedPlaintext (n : ℕ) (invec : List (Complex R)) : Except Fault (Slots n R) :=
  if n < invec.length then .error .packing else .ok fun k => invec.getD k 0

def write (map2vector : Registers) (cipherText : Slots n R) (name : String) (val : R) (index : ℤ) :
    Except Fault (Slots n R) := do
  let offset := getOffset map2vector name index
  let length := getLength map2vector name
  let invec ← vector (offset + length) 0
  -- That the offset is -1 is only printed.
  let invec ← assign invec (offset + index) (.C val)
  let ptvec ← makeCKKSPackedPlaintext n invec
  return cipherText + ptvec

def mul (map2vector : Registers) (cipherText : Slots n R) (name : String) (val : R) (index : ℤ) :
    Except Fault (Slots n R) := do
  let offset := getOffset map2vector name index
  let length := getLength map2vector name
  let invec ← vector (offset + length) 1
  if offset = -1 then .error .exit
  else do
    let invec ← assign invec (offset + index) (.C val)
    let ptvec ← makeCKKSPackedPlaintext n invec
    return cipherText * ptvec

def add (map2vector : Registers) (cipherText : Slots n R) (name : String) (val : R) (index : ℤ) :
    Except Fault (Slots n R) :=
  write map2vector cipherText name val index

def sub (map2vector : Registers) (cipherText : Slots n R) (name : String) (val : R) (index : ℤ) :
    Except Fault (Slots n R) :=
  write map2vector cipherText name (-val) index

def owrite (map2vector : Registers) (cipherText : Slots n R) (name : String) (val : R) (index : ℤ) :
    Except Fault (Slots n R) := do
  let cipherText ← mul map2vector cipherText name 0 index
  add map2vector cipherText name val index

/-- The registers by their names. `none`: a register ends behind the vector. -/
def unpackPT (map2vector : Registers) (pt : List (Complex R)) : Option (List (String × List R)) :=
  map2vector.mapM fun (name, offset, length) =>
    if offset + length ≤ pt.length then
      some (name, ((pt.drop offset).take length).map QuadraticAlgebra.re)
    else none

/-! ## An access to an entry -/

section

variable {map2vector : Registers} {name : String} {offset length : ℕ} {index : ℤ}

theorem getOffset_of_lt (h : map2vector.lookup name = some (offset, length)) (hi : index < length) :
    getOffset map2vector name index = offset := by
  unfold getOffset
  rw [h]
  exact if_neg (by omega)

theorem getOffset_of_ge (h : map2vector.lookup name = some (offset, length)) (hi : length ≤ index) :
    getOffset map2vector name index = -1 := by
  unfold getOffset
  rw [h]
  exact if_pos hi

theorem getOffset_none (h : map2vector.lookup name = none) :
    getOffset map2vector name index = -1 := by
  unfold getOffset
  rw [h]

theorem getLength_some (h : map2vector.lookup name = some (offset, length)) :
    getLength map2vector name = length := by
  unfold getLength
  rw [h]

theorem getLength_none (h : map2vector.lookup name = none) : getLength map2vector name = -1 := by
  unfold getLength
  rw [h]

/-- The vector of an access: `value` up to the end of the register, but for one entry. -/
theorem assign_replicate {α : Type} {size i : ℕ} (hi : i < size) (value val : α) :
    assign (List.replicate size value) i val = .ok ((List.replicate size value).set i val) := by
  unfold assign
  rw [if_pos ⟨by omega, by rw [List.length_replicate]; omega⟩]
  rfl

theorem pack_set {size i : ℕ} (hi : i < size) (hn : size ≤ n) (value val : Complex R) :
    makeCKKSPackedPlaintext n ((List.replicate size value).set i val) =
      .ok fun k => if k = i then val else if k < size then value else 0 := by
  unfold makeCKKSPackedPlaintext
  rw [if_neg (by simpa using hn)]
  congr 1
  funext k
  exact Lists.getD_replicate_set size i k hi value val 0

/-- The entry `i` of a register. -/
structure Entry (map2vector : Registers) (n : ℕ) (name : String) (i offset length : ℕ) : Prop where
  lookup : map2vector.lookup name = some (offset, length)
  lt : i < length
  fits : offset + length ≤ n

variable {i : ℕ}

theorem Entry.vector (h : Entry map2vector n name i offset length) {α : Type} (value : α) :
    vector (getOffset map2vector name i + getLength map2vector name) value =
      .ok (List.replicate (offset + length) value) := by
  rw [getOffset_of_lt h.lookup (by exact_mod_cast h.lt), getLength_some h.lookup]
  unfold RegisterFunctions.vector
  rw [if_neg (by omega)]
  rfl

theorem Entry.assign (h : Entry map2vector n name i offset length) {α : Type} (value val : α) :
    assign (List.replicate (offset + length) value) (getOffset map2vector name i + i) val =
      .ok ((List.replicate (offset + length) value).set (offset + i) val) := by
  have hlt := h.lt
  rw [getOffset_of_lt h.lookup (by exact_mod_cast hlt)]
  exact assign_replicate (by omega) value val

/-- **`write` adds to one slot.** -/
theorem write_eq (h : Entry map2vector n name i offset length) (ct : Slots n R) (val : R) :
    write map2vector ct name val i =
      .ok fun k => ct k + if (k : ℕ) = offset + i then .C val else 0 := by
  have hlt := h.lt
  unfold write
  simp only [h.vector, h.assign, bind, Except.bind, pure, Except.pure,
    pack_set (show offset + i < offset + length by omega) h.fits]
  congr 1
  funext k
  rw [Pi.add_apply]
  split
  · rfl
  · split <;> rfl

/-- **`mul` multiplies the slots behind the register by zero.** -/
theorem mul_eq (h : Entry map2vector n name i offset length) (ct : Slots n R) (val : R) :
    mul map2vector ct name val i =
      .ok fun k => ct k * if (k : ℕ) = offset + i then .C val
        else if (k : ℕ) < offset + length then 1 else 0 := by
  have hlt := h.lt
  have hoff : getOffset map2vector name i ≠ -1 := by
    rw [getOffset_of_lt h.lookup (by exact_mod_cast hlt)]
    omega
  unfold mul
  simp only [h.vector, h.assign, bind, Except.bind, pure, Except.pure, if_neg hoff,
    pack_set (show offset + i < offset + length by omega) h.fits]
  rfl

theorem owrite_eq (h : Entry map2vector n name i offset length) (ct : Slots n R) (val : R) :
    owrite map2vector ct name val i =
      .ok fun k => (ct k * if (k : ℕ) = offset + i then .C 0
        else if (k : ℕ) < offset + length then 1 else 0) +
          if (k : ℕ) = offset + i then .C val else 0 := by
  unfold owrite add
  rw [mul_eq h]
  exact write_eq h _ val

/-! ## Accesses that are rejected -/

/-- Behind the end of a register the index is computed from -1, and is behind the vector. -/
theorem write_of_ge (h : map2vector.lookup name = some (offset, length)) (hpos : 0 < length)
    (hi : length ≤ index) (ct : Slots n R) (val : R) :
    write map2vector ct name val index = .error .outOfRange := by
  have hsize : (-1 + (length : ℤ)).toNat = length - 1 := by omega
  unfold write vector assign
  rw [getOffset_of_ge h hi, getLength_some h]
  simp only [bind, Except.bind, if_neg (show ¬ (-1 + (length : ℤ) < 0) by omega), hsize,
    List.length_replicate]
  rw [if_neg (by omega)]

/-- A vector for a register that does not exist cannot be made. -/
theorem write_none (h : map2vector.lookup name = none) (ct : Slots n R) (val : R) :
    write map2vector ct name val index = .error .lengthError := by
  unfold write vector
  rw [getOffset_none h, getLength_none h]
  rfl

/-- With a negative index the entry is one of another register, or before the vector. -/
theorem write_of_neg (h : map2vector.lookup name = some (offset, length)) (hn : offset + length ≤ n)
    (hi : index < 0) (ct : Slots n R) (val : R) : write map2vector ct name val index =
      if 0 ≤ offset + index then
        .ok fun k => ct k + if ((k : ℕ) : ℤ) = offset + index then .C val else 0
      else .error .outOfRange := by
  have hsize : ((offset : ℤ) + (length : ℤ)).toNat = offset + length := by omega
  unfold write vector assign
  rw [getOffset_of_lt h (by omega), getLength_some h]
  simp only [bind, Except.bind, if_neg (show ¬ ((offset : ℤ) + (length : ℤ) < 0) by omega), hsize,
    List.length_replicate]
  by_cases hslot : 0 ≤ (offset : ℤ) + index
  · rw [if_pos hslot, if_pos ⟨hslot, by omega⟩]
    have hlt : (offset + index).toNat < offset + length := by omega
    simp only [pack_set hlt hn]
    congr 1
    funext k
    have hk : (k : ℕ) = (offset + index).toNat ↔ ((k : ℕ) : ℤ) = offset + index := by omega
    rw [Pi.add_apply]
    simp only [hk]
    split
    · rfl
    · split <;> rfl
  · rw [if_neg hslot, if_neg fun h => hslot h.1]

/-- The vectors of `Statistics.write` are those that are made here; what is `none` there is here one
of the faults. -/
theorem statistics_write_eq {F : OpenFHE} (cc : F.CryptoContext) (ct : F.Ciphertext) (val : ℤ)
    (index : ℕ) : Statistics.write map2vector cc ct name val index =
      (((vector (getOffset map2vector name index + getLength map2vector name) 0).bind fun invec =>
        assign invec (getOffset map2vector name index + index) val).toOption.map fun invec =>
          F.evalAddPlain cc ct (F.makeCKKSPackedPlaintext cc invec)) := by
  cases h : map2vector.lookup name with
  | none =>
    unfold Statistics.write Statistics.getOffset
    rw [h, getOffset_none h, getLength_none h]
    rfl
  | some register =>
    obtain ⟨offset, length⟩ := register
    by_cases hi : index < length
    · have hentry : Entry map2vector (offset + length) name index offset length := ⟨h, hi, le_rfl⟩
      rw [hentry.vector, Statistics.write_eq h hi]
      simp only [Except.bind, hentry.assign]
      rfl
    · unfold Statistics.write Statistics.getOffset
      rw [h, getOffset_of_ge h (by omega), getLength_some h]
      simp only [if_pos (show index ≥ length by omega)]
      unfold vector
      by_cases hlen : (-1 : ℤ) + length < 0
      · rw [if_pos hlen]
        rfl
      · rw [if_neg hlen]
        simp only [Except.bind]
        unfold assign
        rw [if_neg (by rw [List.length_replicate]; omega)]
        rfl

end

/-! ## The registers of the program -/

section

variable {map2vector : Registers} {ringsize : ℕ} {name : String} {offset length : ℕ}

theorem initializeMap_some (h : initializeMap ringsize = some map2vector) :
    map2vector = Statistics.map2vector ∧ 13 ≤ ringsize / 2 := by
  unfold initializeMap at h
  simp only at h
  split at h
  · cases h
  · next hfit => exact ⟨(Option.some.inj h).symm, by omega⟩

theorem lookup_cases (h : Statistics.map2vector.lookup name = some (offset, length)) :
    name = "v1" ∧ offset = 0 ∧ length = 4 ∨ name = "v2" ∧ offset = 4 ∧ length = 4 ∨
      name = "v3" ∧ offset = 8 ∧ length = 4 ∨ name = "n" ∧ offset = 12 ∧ length = 1 := by
  obtain ⟨l, l', hl, -⟩ := List.lookup_eq_some_iff.mp h
  have hmem : (name, offset, length) ∈ Statistics.map2vector := by
    rw [hl]
    simp
  simpa [Statistics.map2vector] using hmem

/-- **The registers are within the slots**, and not empty. -/
theorem register_fits (hmap : initializeMap ringsize = some map2vector)
    (h : map2vector.lookup name = some (offset, length)) :
    0 < length ∧ offset + length ≤ ringsize / 2 := by
  obtain ⟨rfl, hfit⟩ := initializeMap_some hmap
  rcases lookup_cases h with ⟨-, rfl, rfl⟩ | ⟨-, rfl, rfl⟩ | ⟨-, rfl, rfl⟩ | ⟨-, rfl, rfl⟩ <;>
    omega

/-- **The registers are disjoint.** -/
theorem registers_disjoint (hmap : initializeMap ringsize = some map2vector) {name' : String}
    {offset' length' : ℕ} (h : map2vector.lookup name = some (offset, length))
    (h' : map2vector.lookup name' = some (offset', length')) (hne : name ≠ name') :
    offset + length ≤ offset' ∨ offset' + length' ≤ offset := by
  obtain ⟨rfl, -⟩ := initializeMap_some hmap
  rcases lookup_cases h with ⟨rfl, rfl, rfl⟩ | ⟨rfl, rfl, rfl⟩ | ⟨rfl, rfl, rfl⟩ | ⟨rfl, rfl, rfl⟩ <;>
  rcases lookup_cases h' with ⟨rfl, rfl, rfl⟩ | ⟨rfl, rfl, rfl⟩ | ⟨rfl, rfl, rfl⟩ |
    ⟨rfl, rfl, rfl⟩ <;>
  first
  | exact absurd rfl hne
  | omega

theorem entry_of_lookup (hmap : initializeMap ringsize = some map2vector) {i : ℕ}
    (h : map2vector.lookup name = some (offset, length)) (hi : i < length) :
    Entry map2vector (ringsize / 2) name i offset length :=
  ⟨h, hi, (register_fits hmap h).2⟩

variable {R : Type} [CommRing R] {n : ℕ}

/-! ### `mul` and `owrite` -/

/-- The slot is one of a register. -/
def InRegister (map2vector : Registers) (k : ℕ) : Prop :=
  ∃ name offset length, map2vector.lookup name = some (offset, length) ∧
    offset ≤ k ∧ k < offset + length

/-- `mul` multiplies the slot `k₀` by `val`, and leaves the other slots of the registers as they
are. -/
def MulTouches (map2vector : Registers) (ct : Slots n R) (name : String) (val : R) (index : ℤ)
    (k₀ : ℕ) : Prop :=
  ∃ ct', mul map2vector ct name val index = .ok ct' ∧ ∀ k : Fin n,
    ((k : ℕ) = k₀ → ct' k = ct k * .C val) ∧
      (InRegister map2vector k → (k : ℕ) ≠ k₀ → ct' k = ct k)

/-- `owrite` sets the slot `k₀` to `val`, and leaves all other slots as they are. -/
def OwriteTouches (map2vector : Registers) (ct : Slots n R) (name : String) (val : R) (index : ℤ)
    (k₀ : ℕ) : Prop :=
  ∃ ct', owrite map2vector ct name val index = .ok ct' ∧ ∀ k : Fin n,
    ((k : ℕ) = k₀ → ct' k = .C val) ∧ ((k : ℕ) ≠ k₀ → ct' k = ct k)

variable {i : ℕ} {ct : Slots n R} {val : R}

theorem mulTouches_iff (h : Entry map2vector n name i offset length) :
    MulTouches map2vector ct name val i (offset + i) ↔
      ∀ k : Fin n, InRegister map2vector k → offset + length ≤ k → ct k = 0 := by
  have hlt := h.lt
  constructor
  · rintro ⟨ct', hct', htouch⟩ k hk hle
    obtain rfl := Except.ok.inj ((mul_eq h ct val).symm.trans hct')
    have hkept := (htouch k).2 hk (by omega)
    beta_reduce at hkept
    rw [if_neg (by omega), if_neg (by omega), mul_zero] at hkept
    exact hkept.symm
  · intro hzero
    refine ⟨_, mul_eq h ct val, fun k => ⟨fun hk => by rw [if_pos hk], fun hk hne => ?_⟩⟩
    rw [if_neg hne]
    by_cases hle : offset + length ≤ k
    · rw [hzero k hk hle, zero_mul]
    · rw [if_pos (by omega), mul_one]

theorem owriteTouches_iff (h : Entry map2vector n name i offset length) :
    OwriteTouches map2vector ct name val i (offset + i) ↔
      ∀ k : Fin n, offset + length ≤ k → ct k = 0 := by
  have hlt := h.lt
  constructor
  · rintro ⟨ct', hct', htouch⟩ k hle
    obtain rfl := Except.ok.inj ((owrite_eq h ct val).symm.trans hct')
    have hkept := (htouch k).2 (by omega)
    beta_reduce at hkept
    rw [if_neg (by omega), if_neg (by omega), if_neg (by omega), mul_zero, add_zero] at hkept
    exact hkept.symm
  · intro hzero
    refine ⟨_, owrite_eq h ct val, fun k => ⟨fun hk => ?_, fun hne => ?_⟩⟩
    · rw [if_pos hk, if_pos hk, QuadraticAlgebra.C_zero, mul_zero, zero_add]
    · rw [if_neg hne, if_neg hne, add_zero]
      by_cases hle : offset + length ≤ k
      · rw [hzero k hle, zero_mul]
      · rw [if_pos (by omega), mul_one]

end

/-- **When `mul` and `owrite` touch one slot only**: if the registers behind that of the slot, and for
`owrite` all slots behind it, are zero. -/
theorem touches_iff {R : Type} [CommRing R] (ringsize : ℕ) (map2vector : Registers)
    (hmap : initializeMap ringsize = some map2vector) (ct : Slots (ringsize / 2) R) (name : String)
    (offset length : ℕ) (h : map2vector.lookup name = some (offset, length)) (val : R) (i : ℕ)
    (hi : i < length) :
    (MulTouches map2vector ct name val i (offset + i) ↔
      ∀ k : Fin (ringsize / 2), InRegister map2vector k → offset + length ≤ k → ct k = 0) ∧
    (OwriteTouches map2vector ct name val i (offset + i) ↔
      ∀ k : Fin (ringsize / 2), offset + length ≤ k → ct k = 0) :=
  ⟨mulTouches_iff (entry_of_lookup hmap h hi), owriteTouches_iff (entry_of_lookup hmap h hi)⟩

/-- The first entry of the last register. -/
theorem touches_zero :
    MulTouches Statistics.map2vector (fun _ => 1 : Slots 13 ℤ) "n" 5 0 12 ∧
      OwriteTouches Statistics.map2vector (fun _ => 1 : Slots 13 ℤ) "n" 5 0 12 := by
  obtain ⟨hmul, howrite⟩ := touches_iff 26 Statistics.map2vector (Statistics.initializeMap_eq le_rfl)
    (fun _ => 1 : Slots (26 / 2) ℤ) "n" 12 1 rfl 5 0 Nat.one_pos
  have hbehind : ∀ k : Fin (26 / 2), ¬ 12 + 1 ≤ (k : ℕ) := fun k => by omega
  exact ⟨hmul.mpr fun k _ hk => absurd hk (hbehind k), howrite.mpr fun k hk => absurd hk (hbehind k)⟩

/-- `v2` is lost by an access to `v1`. -/
theorem not_touches : ¬ ∀ (ringsize : ℕ) (map2vector : Registers),
    initializeMap ringsize = some map2vector → ∀ (ct : Slots (ringsize / 2) ℤ) (name : String)
      (offset length : ℕ), map2vector.lookup name = some (offset, length) → ∀ (val : ℤ) (i : ℕ),
        i < length → MulTouches map2vector ct name val i (offset + i) ∧
          OwriteTouches map2vector ct name val i (offset + i) := by
  intro h
  have hmap : initializeMap 26 = some Statistics.map2vector := Statistics.initializeMap_eq le_rfl
  have htouch := (h 26 _ hmap (fun _ => 1) "v1" 0 4 rfl 2 0 (by decide)).1
  have hzero := (mulTouches_iff (entry_of_lookup hmap rfl (by decide))).mp htouch ⟨4, by decide⟩
    ⟨"v2", 4, 4, rfl, le_rfl, by decide⟩ le_rfl
  exact one_ne_zero hzero

/-! ### Rejected accesses -/

section

variable {map2vector : Registers} {ringsize : ℕ} {name : String} {offset length : ℕ} {index : ℤ}
  {R : Type} [CommRing R] {n : ℕ} {ct : Slots n R} {val : R}

/-- No write outside of a vector, and, if the access is rejected or the index is negative, the
ciphertext as it was: an exception leaves it alone too. -/
structure Harmless (map2vector : Registers) (ct : Slots n R) (name : String) (index : ℤ)
    (result : Except Fault (Slots n R)) : Prop where
  inRange : result ≠ .error .outOfRange
  unchanged : getOffset map2vector name index = -1 ∨ index < 0 → ∀ ct', result = .ok ct' → ct' = ct

/-- What makes an access harmless: there is no such register, or the index is in it, or it leads to
an earlier slot, to which zero is added. -/
def Spared (map2vector : Registers) (name : String) (val : R) (index : ℤ) : Prop :=
  map2vector.lookup name = none ∨ ∃ offset length : ℕ, map2vector.lookup name = some (offset, length) ∧
    (0 ≤ index ∧ index < length ∨ index < 0 ∧ 0 ≤ offset + index ∧ val = 0)

/-- A value that is added to a slot leaves it as it is. -/
theorem add_slot_iff {k₀ : ℕ} (hk₀ : k₀ < n) :
    (fun k => ct k + if (k : ℕ) = k₀ then .C val else 0 : Slots n R) = ct ↔ val = 0 := by
  constructor
  · intro h
    have hslot := congrFun h ⟨k₀, hk₀⟩
    rw [if_pos rfl, add_eq_left] at hslot
    exact QuadraticAlgebra.C_eq_zero_iff.mp hslot
  · rintro rfl
    funext k
    split
    · rw [QuadraticAlgebra.C_zero, add_zero]
    · rw [add_zero]

/-- A negative index. -/
theorem harmless_neg_iff (h : map2vector.lookup name = some (offset, length))
    (hn : offset + length ≤ n) (hneg : index < 0) :
    Harmless map2vector ct name index (write map2vector ct name val index) ↔
      0 ≤ offset + index ∧ val = 0 := by
  rw [write_of_neg h hn hneg]
  by_cases hslot : 0 ≤ (offset : ℤ) + index
  · rw [if_pos hslot]
    obtain ⟨k₀, hk₀⟩ := Int.eq_ofNat_of_zero_le hslot
    have hcast : ∀ k : ℕ, (k : ℤ) = offset + index ↔ k = k₀ := fun k => by omega
    have hadd : (fun k => ct k + if (k : ℕ) = k₀ then .C val else 0 : Slots n R) = ct ↔ val = 0 :=
      add_slot_iff (by omega)
    simp only [hcast]
    constructor
    · intro hh
      exact ⟨hslot, hadd.mp (hh.unchanged (.inr hneg) _ rfl)⟩
    · rintro ⟨-, hval⟩
      exact ⟨fun he => (by cases he), fun _ ct' he => (Except.ok.inj he).symm.trans (hadd.mpr hval)⟩
  · rw [if_neg hslot]
    exact ⟨fun hh => absurd rfl hh.inRange, fun hh => absurd hh.1 hslot⟩

/-- An index that is not negative. -/
theorem harmless_nonneg_iff (h : map2vector.lookup name = some (offset, length)) (hpos : 0 < length)
    (hn : offset + length ≤ n) (hnonneg : 0 ≤ index) :
    Harmless map2vector ct name index (write map2vector ct name val index) ↔ index < length := by
  obtain ⟨i, rfl⟩ := Int.eq_ofNat_of_zero_le hnonneg
  by_cases hi : i < length
  · rw [write_eq ⟨h, hi, hn⟩]
    refine ⟨fun _ => by omega, fun _ => ⟨fun he => (by cases he), fun hrej => ?_⟩⟩
    rw [getOffset_of_lt h (by omega)] at hrej
    omega
  · rw [write_of_ge h hpos (by omega)]
    exact ⟨fun hh => absurd rfl hh.inRange, fun hlt => by omega⟩

theorem harmless_write_iff (hmap : initializeMap ringsize = some map2vector)
    (ct : Slots (ringsize / 2) R) :
    Harmless map2vector ct name index (write map2vector ct name val index) ↔
      Spared map2vector name val index := by
  unfold Spared
  cases h : map2vector.lookup name with
  | none =>
    rw [write_none h]
    refine ⟨fun _ => .inl rfl, fun _ => ⟨fun he => ?_, fun _ ct' he => ?_⟩⟩
    · cases he
    · cases he
  | some register =>
    obtain ⟨offset, length⟩ := register
    obtain ⟨hpos, hfit⟩ := register_fits hmap h
    have hregister : (some (offset, length) = none ∨ ∃ o l : ℕ, some (offset, length) = some (o, l) ∧
        (0 ≤ index ∧ index < l ∨ index < 0 ∧ 0 ≤ o + index ∧ val = 0)) ↔
          (0 ≤ index ∧ index < length ∨ index < 0 ∧ 0 ≤ offset + index ∧ val = 0) := by
      simp
    rw [hregister]
    by_cases hneg : index < 0
    · rw [harmless_neg_iff h hfit hneg]
      exact ⟨fun hh => .inr ⟨hneg, hh⟩, fun hh => hh.elim (fun hh => by omega) fun hh => hh.2⟩
    · rw [harmless_nonneg_iff h hpos hfit (by omega)]
      exact ⟨fun hh => .inl ⟨by omega, hh⟩, fun hh => hh.elim (fun hh => hh.2) fun hh => by omega⟩

end

/-- **When `write`, `add` and `sub` are harmless if an access is rejected.** -/
theorem rejected_iff {R : Type} [CommRing R] (ringsize : ℕ) (map2vector : Registers)
    (hmap : initializeMap ringsize = some map2vector) (ct : Slots (ringsize / 2) R) (name : String)
    (val : R) (index : ℤ) :
    (Harmless map2vector ct name index (write map2vector ct name val index) ∧
      Harmless map2vector ct name index (add map2vector ct name val index) ∧
      Harmless map2vector ct name index (sub map2vector ct name val index)) ↔
    Spared map2vector name val index := by
  have hneg : Spared map2vector name (-val) index ↔ Spared map2vector name val index := by
    unfold Spared
    simp only [neg_eq_zero]
  unfold add sub
  rw [harmless_write_iff hmap, harmless_write_iff hmap, hneg, and_self, and_self]

/-- A register that does not exist, and one that does. -/
theorem rejected_two : Harmless Statistics.map2vector (0 : Slots 13 ℤ) "v4" 0
      (write Statistics.map2vector 0 "v4" 1 0) ∧
    Harmless Statistics.map2vector (0 : Slots 13 ℤ) "v1" 3
      (sub Statistics.map2vector 0 "v1" 1 3) := by
  have hmap : initializeMap 26 = some Statistics.map2vector := Statistics.initializeMap_eq le_rfl
  have hnone := (rejected_iff 26 _ hmap (0 : Slots (26 / 2) ℤ) "v4" 1 0).mpr (.inl rfl)
  have hsome := (rejected_iff 26 _ hmap (0 : Slots (26 / 2) ℤ) "v1" 1 3).mpr
    (.inr ⟨0, 4, rfl, .inl (by decide)⟩)
  exact ⟨hnone.1, hsome.2.2⟩

/-- A fifth node writes outside of the vector. -/
theorem not_rejected : ¬ ∀ (ringsize : ℕ) (map2vector : Registers),
    initializeMap ringsize = some map2vector → ∀ (ct : Slots (ringsize / 2) ℤ) (name : String)
      (val : ℤ) (index : ℤ),
        Harmless map2vector ct name index (write map2vector ct name val index) ∧
        Harmless map2vector ct name index (add map2vector ct name val index) ∧
        Harmless map2vector ct name index (sub map2vector ct name val index) := by
  intro h
  have hmap : initializeMap 26 = some Statistics.map2vector := Statistics.initializeMap_eq le_rfl
  have hlookup : Statistics.map2vector.lookup "v1" = some (0, 4) := rfl
  refine (h 26 _ hmap 0 "v1" 1 4).1.inRange ?_
  exact write_of_ge hlookup (by decide) (by decide) _ _

end RegisterFunctions

end P2P

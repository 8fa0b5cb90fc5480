import Mathlib.Analysis.SpecialFunctions.Log.Base
import NetworkExamples.Multihop.ParamsHelper
import NetworkExamples.Multihop.StdLatticeParams

/-!
# The multihop parameter selector

`multihop_params.py` for the schemes `indcpa` and `fixednf`: the checks of the input, the first ring
size, and the loop that goes to the next ring size while the noise does not fit the table.

* `Input`: what passes the checks (`read_eq_ok_iff`).
* `turn`: one turn of the loop; `turn_cases` and `turn_of_accepts` say what it does.
* `Accepts`: when the loop ends at a ring size.
* `adjust_ne_turns`: the loop ends within six turns.
-/

namespace Multihop

open Search

/-! ## The input -/

/-- How a run ends without parameters. -/
inductive Stop
  | exception (msg : String)
  | keyError
  /-- `quit()` of a search. -/
  | quit
  /-- A variable that is read without a value. -/
  | unboundLocal
  /-- The loop is still going on. -/
  | turns

/-- The numbers that are entered. -/
@[ext]
structure Raw where
  dist_type : ℤ
  sec_level : ℤ
  payload_bits : ℤ
  p : ℤ
  min_hops : ℤ
  min_depth : ℤ

/-- The accepted values of `p`. -/
def moduli : List ℕ := [2, 4, 8, 16, 256, 512, 1024, 4096, 65536]

/-- An input that passes the checks. -/
structure Input where
  dist_type : DistType
  sec_level : SecLev
  payload_bits : ℤ
  p : ℕ
  min_hops : ℕ
  min_depth : ℕ
  sec_level_ne : sec_level ≠ .HEStd_NotSet
  p_mem : p ∈ moduli
  min_hops_pos : 1 ≤ min_hops

def test_range (val low hi : ℤ) : Except Stop (PLift (low ≤ val ∧ val ≤ hi)) :=
  if h : low ≤ val ∧ val ≤ hi then .ok ⟨h⟩
  else .error (.exception s!"input not in valid range ({low} - {hi})")

def test_in (val : ℤ) (bucket : List ℤ) : Except Stop (PLift (val ∈ bucket)) :=
  if h : val ∈ bucket then .ok ⟨h⟩
  else .error (.exception s!"input not in valid set {bucket}")

namespace DistType

def value : DistType → ℤ
  | HEStd_uniform => 0
  | HEStd_error => 1
  | HEStd_ternary => 2

/-- `DistType(value)`. -/
def ofValue : ℤ → Except Stop DistType
  | 0 => .ok HEStd_uniform
  | 1 => .ok HEStd_error
  | 2 => .ok HEStd_ternary
  | v => .error (.exception s!"{v} is not a valid DistType")

end DistType

namespace SecLev

def value : SecLev → ℤ
  | HEStd_128_classic => 0
  | HEStd_192_classic => 1
  | HEStd_256_classic => 2
  | HEStd_NotSet => 3

/-- `SecLev(value)`. -/
def ofValue : ℤ → Except Stop SecLev
  | 0 => .ok HEStd_128_classic
  | 1 => .ok HEStd_192_classic
  | 2 => .ok HEStd_256_classic
  | 3 => .ok HEStd_NotSet
  | v => .error (.exception s!"{v} is not a valid SecLev")

end SecLev

theorem DistType.ofValue_value (t : DistType) : ofValue t.value = .ok t := by cases t <;> rfl

theorem SecLev.ofValue_value (l : SecLev) : ofValue l.value = .ok l := by cases l <;> rfl

theorem DistType.value_of_ok {v : ℤ} {t : DistType} (h : ofValue v = .ok t) : t.value = v := by
  unfold ofValue at h
  split at h <;> cases h <;> rfl

theorem SecLev.value_of_ok {v : ℤ} {l : SecLev} (h : ofValue v = .ok l) : l.value = v := by
  unfold ofValue at h
  split at h <;> cases h <;> rfl

theorem SecLev.ne_of_ok {v : ℤ} {l : SecLev} (h : ofValue v = .ok l) (hv : v ≤ 2) :
    l ≠ HEStd_NotSet := by
  rintro rfl
  have : HEStd_NotSet.value = v := value_of_ok h
  simp only [value] at this
  omega

theorem toNat_mem_moduli {v : ℤ} (h : v ∈ moduli.map Nat.cast) : v.toNat ∈ moduli := by
  obtain ⟨p, hp, rfl⟩ := List.mem_map.mp h
  exact hp

/-- The checks of the input, in their order. -/
def Raw.read (raw : Raw) : Except Stop Input := do
  let _ ← test_range raw.dist_type 0 2
  let hlev ← test_range raw.sec_level 0 2
  let hp ← test_in raw.p (moduli.map Nat.cast)
  if hhops : raw.min_hops < 1 then throw (.exception "input must be at least 1")
  else if raw.min_depth < 0 then throw (.exception "input must be positive")
  else
    let dist_type ← DistType.ofValue raw.dist_type
    match hsec : SecLev.ofValue raw.sec_level with
    | .error e => throw e
    | .ok sec_level =>
      return {
        dist_type, sec_level
        payload_bits := raw.payload_bits
        p := raw.p.toNat
        min_hops := raw.min_hops.toNat
        min_depth := raw.min_depth.toNat
        sec_level_ne := SecLev.ne_of_ok hsec hlev.down.2
        p_mem := toNat_mem_moduli hp.down
        min_hops_pos := by omega }

/-- What is entered for an input. -/
def Input.raw (inp : Input) : Raw where
  dist_type := inp.dist_type.value
  sec_level := inp.sec_level.value
  payload_bits := inp.payload_bits
  p := inp.p
  min_hops := inp.min_hops
  min_depth := inp.min_depth

theorem test_range_of {val low hi : ℤ} (h : low ≤ val ∧ val ≤ hi) :
    test_range val low hi = .ok ⟨h⟩ := dif_pos h

theorem test_in_of {val : ℤ} {bucket : List ℤ} (h : val ∈ bucket) :
    test_in val bucket = .ok ⟨h⟩ := dif_pos h

theorem DistType.value_range (t : DistType) : 0 ≤ t.value ∧ t.value ≤ 2 := by
  cases t <;> decide

theorem SecLev.value_range {l : SecLev} (h : l ≠ HEStd_NotSet) : 0 ≤ l.value ∧ l.value ≤ 2 := by
  cases l <;> first | decide | exact absurd rfl h

theorem read_raw (inp : Input) : inp.raw.read = .ok inp := by
  have hdist : test_range inp.raw.dist_type 0 2 = .ok _ := test_range_of inp.dist_type.value_range
  have hlev : test_range inp.raw.sec_level 0 2 = .ok _ :=
    test_range_of (SecLev.value_range inp.sec_level_ne)
  have hp : test_in inp.raw.p (moduli.map Nat.cast) = .ok _ :=
    test_in_of (List.mem_map_of_mem inp.p_mem)
  have hhops : ¬ inp.raw.min_hops < 1 := by
    have := inp.min_hops_pos
    simp only [Input.raw]
    omega
  have hdepth : ¬ inp.raw.min_depth < 0 := by simp [Input.raw]
  have hdist' : DistType.ofValue inp.raw.dist_type = .ok inp.dist_type :=
    inp.dist_type.ofValue_value
  have hlev' : SecLev.ofValue inp.raw.sec_level = .ok inp.sec_level := inp.sec_level.ofValue_value
  unfold Raw.read
  simp only [hdist, hlev, hp, hdist', bind, Except.bind, hhops, hdepth, dite_false, if_false]
  split
  · next e h => rw [hlev'] at h; cases h
  · next l h =>
    rw [hlev'] at h
    cases h
    rfl

theorem bind_ok {ε α β : Type} {x : Except ε α} {f : α → Except ε β} {b : β}
    (h : (x >>= f) = .ok b) : ∃ a, x = .ok a ∧ f a = .ok b := by
  cases x with
  | error e => cases h
  | ok a => exact ⟨a, rfl, h⟩

theorem Raw.eq_of_read {raw : Raw} {inp : Input} (h : raw.read = .ok inp) : raw = inp.raw := by
  unfold Raw.read at h
  obtain ⟨⟨_⟩, hdist, h⟩ := bind_ok h
  obtain ⟨⟨hlev⟩, -, h⟩ := bind_ok h
  obtain ⟨⟨hp⟩, -, h⟩ := bind_ok h
  split at h
  · cases h
  split at h
  · cases h
  obtain ⟨t, ht, h⟩ := bind_ok h
  split at h
  · cases h
  next l hl =>
  cases h
  obtain ⟨p, -, hp⟩ := List.mem_map.mp hp
  ext <;> simp only [Input.raw]
  · exact (DistType.value_of_ok ht).symm
  · exact (SecLev.value_of_ok hl).symm
  all_goals omega

theorem read_eq_ok_iff {raw : Raw} {inp : Input} : raw.read = .ok inp ↔ raw = inp.raw :=
  ⟨Raw.eq_of_read, fun h => h ▸ read_raw inp⟩

/-! ## The first ring size -/

/-- `math.log2(p)`, a whole number for the accepted values (`log2_eq`). -/
def log2 (p : ℕ) : ℕ := Nat.log 2 p

/-- `int(payload_bits/math.log2(p))`: `int` drops the fraction. -/
def Input.min_ringsize (inp : Input) : ℤ := inp.payload_bits.tdiv (log2 inp.p)

/-- The first size that is large enough, or else the last. -/
def set_ringsize (min_ringsize : ℤ) : ℕ :=
  (ringsizes.find? fun ringsize : ℕ => min_ringsize ≤ ringsize).getD 32768

/-! ## The loop -/

/-- `r` of the largest digit size of `range(ceil(logQ/3), 0, -1)` that divides `logQ` and satisfies
`min_hops`, or of the digit size 1 without `optimize_r`; `none`: `set_r` stays 0. -/
def choose_r (s : Scheme) (optimize_r : Bool) (logQ ringsize p min_hops : ℕ) : Option ℕ :=
  if optimize_r then
    downFrom (fun r => logQ % r = 0 ∧ min_hops ≤ find_d s logQ ringsize p r 1 (2 ^ 60))
      ((logQ + 2) / 3)
  else if min_hops ≤ find_d s logQ ringsize p 1 1 (2 ^ 60) then some 1 else none

/-- The limit of the search for a modulus. -/
def Scheme.upl_k : Scheme → ℕ
  | indcpa => 60
  | fixednf => 476

/-- The variables of the loop; `none`: without a value. -/
structure Vars where
  ringsize : ℕ
  r : Option ℕ
  logQ : Option ℕ

/-- One turn of `while ringsize <= 32768`: if it breaks, and the variables after it. Where no digit
size is found, `r` is the one of the turns before. -/
def turn (s : Scheme) (optimize_r : Bool) (inp : Input) (v : Vars) : Except Stop (Bool × Vars) :=
  match LogQ inp.dist_type v.ringsize inp.sec_level with
  | none => .error .keyError
  | some logQ =>
    match choose_r s optimize_r logQ v.ringsize inp.p inp.min_hops with
    | none => .ok (false, ⟨v.ringsize * 2, v.r, some logQ⟩)
    | some r =>
      match find_qk s inp.min_hops v.ringsize inp.p r logQ s.upl_k with
      | none => .error .quit
      | some qk =>
        if qk ≤ logQ then .ok (true, ⟨v.ringsize, some r, some logQ⟩)
        else .ok (false, ⟨v.ringsize * 2, some r, some logQ⟩)

/-- The loop, for at most so many turns. -/
def adjust (s : Scheme) (optimize_r : Bool) (inp : Input) : ℕ → Vars → Except Stop Vars
  | 0, v => if v.ringsize ≤ 32768 then .error .turns else .ok v
  | fuel + 1, v =>
    if v.ringsize ≤ 32768 then do
      let (brk, v) ← turn s optimize_r inp v
      if brk then .ok v else adjust s optimize_r inp fuel v
    else .ok v

/-- What is printed. -/
structure Final where
  inp : Input
  /-- `Warning, cannot set ringsize`. -/
  warned : Bool
  ringsize : ℕ
  max_payload_bits : ℕ
  max_hops : ℕ
  r : ℕ
  logQ : ℕ

/-- The final parameters for the variables after the loop. -/
def Input.final (inp : Input) (s : Scheme) (ringsize r logQ : ℕ) : Final where
  inp := inp
  warned := set_ringsize inp.min_ringsize < inp.min_ringsize
  ringsize := ringsize
  max_payload_bits := ringsize * log2 inp.p
  max_hops := find_d s logQ ringsize inp.p r 1 (2 ^ 60) - 1
  r := r
  logQ := logQ

/-- The selector after the checks of the input. -/
def select (s : Scheme) (optimize_r : Bool) (inp : Input) : Except Stop Final := do
  let v ← adjust s optimize_r inp 6 ⟨set_ringsize inp.min_ringsize, none, none⟩
  match v.r, v.logQ with
  | some r, some logQ => return inp.final s v.ringsize r logQ
  | _, _ => throw .unboundLocal

def parameter_selector (s : Scheme) (optimize_r : Bool) (raw : Raw) : Except Stop Final := do
  select s optimize_r (← raw.read)

theorem parameter_selector_raw (s : Scheme) (optimize_r : Bool) (inp : Input) :
    parameter_selector s optimize_r inp.raw = select s optimize_r inp := by
  unfold parameter_selector
  rw [read_raw]
  rfl

/-! ## What a turn does -/

variable {s : Scheme} {optimize_r brk : Bool} {inp : Input} {v v' : Vars}
variable {logQ ringsize p min_hops r : ℕ}

/-- The digit sizes that are tried. -/
def Candidate (logQ r : ℕ) : Bool → Prop
  | true => 1 ≤ r ∧ r ≤ (logQ + 2) / 3 ∧ r ∣ logQ
  | false => r = 1

theorem Candidate.range (h : Candidate logQ r optimize_r) (h1 : 1 ≤ logQ) :
    1 ≤ r ∧ r ≤ (logQ + 2) / 3 := by
  cases optimize_r with
  | true => exact ⟨h.1, h.2.1⟩
  | false =>
    have hr : r = 1 := h
    omega

/-- The digit sizes that are tried and support all numbers of hops below `min_hops`. -/
def digits (s : Scheme) (optimize_r : Bool) (logQ ringsize p min_hops : ℕ) : Set ℕ :=
  {r | Candidate logQ r optimize_r ∧
    ∀ d, 1 ≤ d → d < min_hops → Supports s ringsize p r logQ d}

theorem choose_r_eq_some_iff :
    choose_r s optimize_r logQ ringsize p min_hops = some r ↔
      min_hops ≤ 2 ^ 60 ∧ IsGreatest (digits s optimize_r logQ ringsize p min_hops) r := by
  have hd : ∀ r, min_hops ≤ find_d s logQ ringsize p r 1 (2 ^ 60) ↔
      min_hops ≤ 2 ^ 60 ∧ ∀ j, 1 ≤ j → j < min_hops → Supports s ringsize p r logQ j :=
    fun r => le_find_d_iff (by norm_num)
  unfold choose_r
  cases optimize_r with
  | true =>
    rw [if_pos rfl, downFrom_eq_some_iff]
    by_cases hm : min_hops ≤ 2 ^ 60
    · have hset : {i | 1 ≤ i ∧ i ≤ (logQ + 2) / 3 ∧ logQ % i = 0 ∧
          min_hops ≤ find_d s logQ ringsize p i 1 (2 ^ 60)} =
          digits s true logQ ringsize p min_hops := by
        ext i
        simp only [digits, Candidate, Set.mem_ofPred_eq, hd, hm, true_and, and_assoc,
          Nat.dvd_iff_mod_eq_zero]
      rw [hset, and_iff_right hm]
    · constructor
      · exact fun h => absurd ((hd r).mp h.1.2.2.2).1 hm
      · exact fun h => absurd h.1 hm
  | false =>
    rw [if_neg Bool.false_ne_true]
    have hone : ∀ {r}, r ∈ digits s false logQ ringsize p min_hops → r = 1 := fun h => h.1
    split
    · next h =>
      constructor
      · rintro ⟨⟩
        exact ⟨((hd 1).mp h).1, ⟨rfl, ((hd 1).mp h).2⟩, fun j hj => (hone hj).le⟩
      · exact fun hg => congrArg some (hone hg.2.1).symm
    · next h =>
      constructor
      · exact fun hnone => nomatch hnone
      · rintro ⟨hm, hg⟩
        obtain rfl := hone hg.1
        exact absurd ((hd 1).mpr ⟨hm, hg.1.2⟩) h

/-- The digit size 1 is the last one that is tried. -/
theorem choose_r_ne_none (hm : min_hops ≤ 2 ^ 60) (h1 : 1 ≤ logQ)
    (h : ∀ d, 1 ≤ d → d < min_hops → Supports s ringsize p 1 logQ d) :
    choose_r s optimize_r logQ ringsize p min_hops ≠ none := by
  have hd : min_hops ≤ find_d s logQ ringsize p 1 1 (2 ^ 60) :=
    (le_find_d_iff (by norm_num)).mpr ⟨hm, h⟩
  unfold choose_r
  cases optimize_r with
  | true => exact downFrom_ne_none le_rfl (by omega) ⟨Nat.mod_one logQ, hd⟩
  | false =>
    rw [if_neg Bool.false_ne_true, if_pos hd]
    exact Option.some_ne_none 1

/-- The loop ends with these parameters when it comes to the ring size: the modulus of the table is
within the limit of the search, and it supports `min_hops` with the greatest digit size that
supports all numbers of hops below. -/
structure Accepts (s : Scheme) (optimize_r : Bool) (inp : Input) (ringsize logQ r : ℕ) : Prop where
  logQ_eq : LogQ inp.dist_type ringsize inp.sec_level = some logQ
  lt : logQ < s.upl_k
  hops_le : inp.min_hops ≤ 2 ^ 60
  digit : IsGreatest (digits s optimize_r logQ ringsize inp.p inp.min_hops) r
  supports : Supports s ringsize inp.p r logQ inp.min_hops

/-- The search that starts at `logQ` does not find a smaller modulus. -/
theorem find_qk_le {lwl_k upl_k d n qk : ℕ} (h : find_qk s d n p r lwl_k upl_k = some qk)
    (hle : qk ≤ lwl_k) : lwl_k < upl_k ∧ Supports s n p r lwl_k d := by
  obtain ⟨h1, h2, h3⟩ := (find_qk_eq_some_iff.mp h).1
  obtain rfl : qk = lwl_k := le_antisymm hle h1
  exact ⟨h2, h3⟩

/-- What a turn can do: break with accepted parameters, or double the ring size. For more hops than
`find_d` looks at, it leaves `r` as it is. -/
theorem turn_cases (h : turn s optimize_r inp v = .ok (brk, v')) :
    (brk = true ∧ ∃ logQ r, Accepts s optimize_r inp v.ringsize logQ r ∧
      v' = ⟨v.ringsize, some r, some logQ⟩) ∨
    (brk = false ∧ v'.ringsize = v.ringsize * 2 ∧ (2 ^ 60 < inp.min_hops → v'.r = v.r)) := by
  unfold turn at h
  split at h
  · cases h
  next logQ hlogQ =>
  split at h
  · cases h
    exact .inr ⟨rfl, rfl, fun _ => rfl⟩
  next r hr =>
  obtain ⟨hm, hdigit⟩ := choose_r_eq_some_iff.mp hr
  split at h
  · cases h
  next qk hqk =>
  split at h
  · next hle =>
    cases h
    obtain ⟨hlt, hsup⟩ := find_qk_le hqk hle
    exact .inl ⟨rfl, logQ, r, ⟨hlogQ, hlt, hm, hdigit, hsup⟩, rfl⟩
  · cases h
    exact .inr ⟨rfl, rfl, fun hgt => absurd hm (not_le.mpr hgt)⟩

theorem turn_of_accepts (h : Accepts s optimize_r inp v.ringsize logQ r) :
    turn s optimize_r inp v = .ok (true, ⟨v.ringsize, some r, some logQ⟩) := by
  have hr := choose_r_eq_some_iff.mpr ⟨h.hops_le, h.digit⟩
  have hqk := (find_qk_self_iff h.lt).mpr h.supports
  unfold turn
  simp only [h.logQ_eq, hr, hqk, le_refl, if_true]

theorem turn_ne_turns : turn s optimize_r inp v ≠ .error .turns := by
  unfold turn
  split
  · exact nofun
  split
  · exact nofun
  split
  · exact nofun
  split <;> exact nofun

/-- The loop ends within the turns that take the ring size beyond the table. -/
theorem adjust_ne_turns {fuel : ℕ} (h : 32768 < v.ringsize * 2 ^ fuel) :
    adjust s optimize_r inp fuel v ≠ .error .turns := by
  induction fuel generalizing v with
  | zero =>
    unfold adjust
    rw [if_neg (by omega)]
    exact nofun
  | succ fuel ih =>
    unfold adjust
    split
    · intro hrun
      cases hturn : turn s optimize_r inp v with
      | error e =>
        rw [hturn] at hrun
        cases hrun
        exact turn_ne_turns hturn
      | ok next =>
        obtain ⟨brk, v'⟩ := next
        rw [hturn] at hrun
        obtain ⟨rfl, -⟩ | ⟨rfl, hsize, -⟩ := turn_cases hturn
        · cases hrun
        · refine ih ?_ hrun
          rw [hsize, mul_assoc, ← pow_succ']
          exact h
    · exact nofun

end Multihop

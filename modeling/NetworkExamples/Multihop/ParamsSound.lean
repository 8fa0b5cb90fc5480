import NetworkExamples.Multihop.Params

/-!
# What the selected parameters support

When the parameters that the selector prints are sound (`Sound`): they are from the table, the
payload fits, and the modulus supports the hops.

* `adjust_accepts`: a loop that ends has come to accepted parameters. At the last ring size it never
  does, since the search for a modulus starts beyond its limit there.
* `sound_iff`: the parameters are sound but in two cases. `int` drops the fraction of the ring size
  that the payload needs (`PayloadCut`), and `find_d` does not look at `2 ^ 60` hops (`HopLimit`).
-/

namespace Multihop

open Search

variable {s : Scheme} {optimize_r : Bool} {inp : Input} {v v' : Vars} {f : Final}
variable {ringsize logQ r : ℕ}

/-! ## The first ring size -/

theorem Input.p_range (inp : Input) : 2 ≤ inp.p ∧ inp.p ≤ 2 ^ 16 := by
  have h := inp.p_mem
  simp only [moduli, List.mem_cons, List.not_mem_nil, or_false] at h
  omega

theorem Input.log2_pos (inp : Input) : 1 ≤ log2 inp.p :=
  Nat.log_pos (by norm_num) inp.p_range.1

/-- The logarithms of the accepted `p` are whole numbers. -/
theorem Input.log2_eq (inp : Input) : (log2 inp.p : ℝ) = Real.logb 2 inp.p := by
  have hpow : inp.p = 2 ^ log2 inp.p := by
    have h : ∀ p ∈ moduli, p = 2 ^ log2 p := by decide
    exact h _ inp.p_mem
  conv_rhs => rw [hpow]
  rw [Nat.cast_pow, Nat.cast_ofNat, Real.logb_pow, Real.logb_self_eq_one one_lt_two, mul_one]

theorem min_ringsize_le_iff :
    inp.min_ringsize ≤ ringsize ↔ inp.payload_bits < (ringsize + 1) * log2 inp.p := by
  have hL : (0 : ℤ) < log2 inp.p := by exact_mod_cast inp.log2_pos
  unfold Input.min_ringsize
  rcases le_or_gt 0 inp.payload_bits with h0 | h0
  · rw [Int.tdiv_eq_ediv_of_nonneg h0, ← Int.lt_add_one_iff, Int.ediv_lt_iff_lt_mul hL]
  · have hle : 0 ≤ (-inp.payload_bits).tdiv (log2 inp.p) := Int.tdiv_nonneg (by omega) hL.le
    rw [Int.neg_tdiv] at hle
    have hlt : inp.payload_bits < (ringsize + 1) * log2 inp.p := by
      have : (0 : ℤ) ≤ (ringsize + 1) * log2 inp.p := by positivity
      omega
    exact iff_of_true (by omega) hlt

theorem set_ringsize_mem (m : ℤ) : set_ringsize m ∈ ringsizes := by
  unfold set_ringsize
  cases h : ringsizes.find? fun ringsize : ℕ => m ≤ ringsize with
  | none => decide
  | some ringsize => exact List.mem_of_find?_eq_some h

/-- The first size that is large enough is the smallest one. -/
theorem set_ringsize_spec {m : ℤ} (h : ringsize ∈ ringsizes) (hle : m ≤ ringsize) :
    set_ringsize m ≤ ringsize ∧ m ≤ set_ringsize m := by
  unfold set_ringsize
  cases hfind : ringsizes.find? fun ringsize : ℕ => m ≤ ringsize with
  | none =>
    have := List.find?_eq_none.mp hfind ringsize h
    exact absurd (decide_eq_true hle) this
  | some first =>
    have hleast := find?_isLeast (by decide) hfind
    exact ⟨hleast.2 ⟨h, decide_eq_true hle⟩, of_decide_eq_true hleast.1.2⟩

/-! ## Which turns are taken -/

/-- With `2 ^ 60` hops at most, a digit size is found for every larger modulus. -/
theorem choose_r_large (hn : ringsize ≤ 2 ^ 16) (hm : inp.min_hops ≤ 2 ^ 60) (h : 103 ≤ logQ)
    (hle : logQ ≤ 1023) :
    choose_r s optimize_r logQ ringsize inp.p inp.min_hops ≠ none :=
  choose_r_ne_none hm (by omega) fun _ _ hd =>
    supports_of_le (hd.le.trans hm) hn inp.p_range.2 le_rfl hle h

theorem le_of_mem_ringsizes (h : ringsize ∈ ringsizes) : ringsize ≤ 2 ^ 16 := by
  have := mem_ringsizes_le h
  omega

/-- At the last ring size, the search for a modulus starts beyond its limit. -/
theorem turn_last (hm : inp.min_hops ≤ 2 ^ 60) (hv : v.ringsize = 32768) :
    turn s optimize_r inp v = .error .quit := by
  have hmem : v.ringsize ∈ ringsizes := hv ▸ by decide
  obtain ⟨logQ, hlogQ, hentry⟩ := logQ_of_mem inp.dist_type hmem inp.sec_level_ne
  have hlarge : 476 ≤ logQ := hentry.last (by omega)
  have hupl : s.upl_k ≤ 476 := by cases s <;> decide
  have hne : choose_r s optimize_r logQ v.ringsize inp.p inp.min_hops ≠ none :=
    choose_r_large (le_of_mem_ringsizes hmem) hm (by omega) (hentry.le.trans (by norm_num))
  obtain ⟨r, hr⟩ := Option.ne_none_iff_exists'.mp hne
  have hqk : find_qk s inp.min_hops v.ringsize inp.p r logQ s.upl_k = none :=
    find_qk_eq_none_iff.mpr fun k h1 h2 => by omega
  unfold turn
  simp only [hlogQ, hr, hqk]

/-- **A loop that ends has come to accepted parameters**, at the ring size where it starts or a
later one. -/
theorem adjust_accepts {fuel : ℕ} (hm : inp.min_hops ≤ 2 ^ 60) (hv : v.ringsize ∈ ringsizes)
    (h : adjust s optimize_r inp fuel v = .ok v') :
    ∃ ringsize logQ r, ringsize ∈ ringsizes ∧ v.ringsize ≤ ringsize ∧
      Accepts s optimize_r inp ringsize logQ r ∧ v' = ⟨ringsize, some r, some logQ⟩ := by
  induction fuel generalizing v with
  | zero =>
    unfold adjust at h
    rw [if_pos (by have := mem_ringsizes_le hv; omega)] at h
    cases h
  | succ fuel ih =>
    have hsize := mem_ringsizes_le hv
    unfold adjust at h
    rw [if_pos (by omega)] at h
    obtain ⟨⟨brk, next⟩, hturn, h⟩ := bind_ok h
    obtain ⟨rfl, logQ, r, hacc, rfl⟩ | ⟨rfl, hnext, -⟩ := turn_cases hturn
    · cases h
      exact ⟨v.ringsize, logQ, r, hv, le_rfl, hacc, rfl⟩
    · have hle : v.ringsize ≤ 16384 := by
        by_contra hgt
        rw [turn_last hm (by omega)] at hturn
        cases hturn
      have hmem : next.ringsize ∈ ringsizes := hnext ▸ two_mul_mem_ringsizes hv hle
      obtain ⟨ringsize, logQ, r, h1, h2, h3, h4⟩ := ih hmem h
      exact ⟨ringsize, logQ, r, h1, by omega, h3, h4⟩

/-- For more hops than `find_d` looks at, no digit size is found. -/
theorem adjust_r {fuel : ℕ} (hm : 2 ^ 60 < inp.min_hops)
    (h : adjust s optimize_r inp fuel v = .ok v') : v'.r = v.r := by
  induction fuel generalizing v with
  | zero =>
    unfold adjust at h
    split at h <;> cases h
    rfl
  | succ fuel ih =>
    unfold adjust at h
    split at h
    · obtain ⟨⟨brk, next⟩, hturn, h⟩ := bind_ok h
      obtain ⟨rfl, logQ, r, hacc, -⟩ | ⟨rfl, -, hr⟩ := turn_cases hturn
      · exact absurd hacc.hops_le (not_le.mpr hm)
      · rw [ih h, hr hm]
    · cases h
      rfl

theorem adjust_of_accepts {fuel : ℕ} (hv : v.ringsize ≤ 32768)
    (h : Accepts s optimize_r inp v.ringsize logQ r) :
    adjust s optimize_r inp (fuel + 1) v = .ok ⟨v.ringsize, some r, some logQ⟩ := by
  unfold adjust
  rw [if_pos hv, turn_of_accepts h]
  rfl

/-- What is printed is accepted, and not before the first ring size. -/
theorem select_accepts (h : select s optimize_r inp = .ok f) :
    ∃ ringsize logQ r, ringsize ∈ ringsizes ∧ set_ringsize inp.min_ringsize ≤ ringsize ∧
      Accepts s optimize_r inp ringsize logQ r ∧ f = inp.final s ringsize r logQ := by
  unfold select at h
  obtain ⟨v, hv, h⟩ := bind_ok h
  rcases le_or_gt inp.min_hops (2 ^ 60) with hm | hm
  · obtain ⟨ringsize, logQ, r, hmem, hle, hacc, rfl⟩ := adjust_accepts hm (set_ringsize_mem _) hv
    cases h
    exact ⟨ringsize, logQ, r, hmem, hle, hacc, rfl⟩
  · have hr : v.r = none := adjust_r hm hv
    rw [hr] at h
    cases h

/-- The selector does not go on for ever. -/
theorem select_ne_turns : select s optimize_r inp ≠ .error .turns := by
  have hsize := mem_ringsizes_le (set_ringsize_mem inp.min_ringsize)
  have hrun : adjust s optimize_r inp 6 ⟨set_ringsize inp.min_ringsize, none, none⟩ ≠
      .error .turns :=
    adjust_ne_turns (show 32768 < set_ringsize inp.min_ringsize * 2 ^ 6 by omega)
  unfold select
  intro h
  cases hv : adjust s optimize_r inp 6 ⟨set_ringsize inp.min_ringsize, none, none⟩ with
  | error e =>
    rw [hv] at h hrun
    cases h
    exact hrun rfl
  | ok v =>
    rw [hv] at h
    obtain ⟨ringsize, r, logQ⟩ := v
    cases r <;> cases logQ <;> cases h

theorem select_of_accepts
    (h : Accepts s optimize_r inp (set_ringsize inp.min_ringsize) logQ r) :
    select s optimize_r inp = .ok (inp.final s (set_ringsize inp.min_ringsize) r logQ) := by
  have hsize := mem_ringsizes_le (set_ringsize_mem inp.min_ringsize)
  have hrun : adjust s optimize_r inp 6 ⟨set_ringsize inp.min_ringsize, none, none⟩ = .ok _ :=
    adjust_of_accepts (show set_ringsize inp.min_ringsize ≤ 32768 by omega) h
  unfold select
  rw [hrun]
  rfl

/-! ## The runs with fixed noise -/

/-- With `2 ^ 60` hops at most, the modulus of a ring size of 16384 supports the greatest digit
size. -/
theorem accepts_16384 (hm : inp.min_hops ≤ 2 ^ 60) :
    ∃ logQ r, Accepts .fixednf optimize_r inp 16384 logQ r := by
  have hmem : 16384 ∈ ringsizes := by decide
  obtain ⟨logQ, hlogQ, hentry⟩ := logQ_of_mem inp.dist_type hmem inp.sec_level_ne
  have hlow : 237 ≤ logQ := hentry.large le_rfl
  have hhigh : logQ ≤ 440 := hentry.small le_rfl
  have hne : choose_r .fixednf optimize_r logQ 16384 inp.p inp.min_hops ≠ none :=
    choose_r_large (le_of_mem_ringsizes hmem) hm (by omega) (by omega)
  obtain ⟨r, hr⟩ := Option.ne_none_iff_exists'.mp hne
  have hdigit := (choose_r_eq_some_iff.mp hr).2
  obtain ⟨h1, h2⟩ := hdigit.1.1.range hentry.pos
  have hsup : Supports .fixednf 16384 inp.p r logQ inp.min_hops :=
    supports_of_le hm (le_of_mem_ringsizes hmem) inp.p_range.2 h1 (by omega) (by omega)
  exact ⟨logQ, r, hlogQ, show logQ < 476 by omega, hm, hdigit, hsup⟩

/-- Before the last ring size, a turn does not quit: 249 bits support the greatest digit size of any
table entry. -/
theorem turn_ok (hm : inp.min_hops ≤ 2 ^ 60) (hv : v.ringsize ∈ ringsizes)
    (hle : v.ringsize ≤ 16384) :
    ∃ brk v', turn .fixednf optimize_r inp v = .ok (brk, v') := by
  obtain ⟨logQ, hlogQ, hentry⟩ := logQ_of_mem inp.dist_type hv inp.sec_level_ne
  have hhigh : logQ ≤ 440 := hentry.small hle
  unfold turn
  simp only [hlogQ]
  split
  · exact ⟨_, _, rfl⟩
  next r hr =>
  obtain ⟨h1, h2⟩ := (choose_r_eq_some_iff.mp hr).2.1.1.range hentry.pos
  have hsup : Supports .fixednf v.ringsize inp.p r (max logQ 249) inp.min_hops :=
    supports_of_le hm (le_of_mem_ringsizes hv) inp.p_range.2 h1 (by omega) (by omega)
  split
  · next hnone =>
    have hlt : max logQ 249 < 476 := by omega
    exact absurd hsup (find_qk_eq_none_iff.mp hnone _ (le_max_left _ _) hlt)
  · split <;> exact ⟨_, _, rfl⟩

theorem adjust_16384 {fuel : ℕ} (hm : inp.min_hops ≤ 2 ^ 60) (hv : v.ringsize = 16384) :
    ∃ v', adjust .fixednf optimize_r inp (fuel + 1) v = .ok v' := by
  obtain ⟨logQ, r, hacc⟩ : ∃ logQ r, Accepts .fixednf optimize_r inp v.ringsize logQ r :=
    hv ▸ accepts_16384 hm
  exact ⟨_, adjust_of_accepts (by omega) hacc⟩

/-- A loop that starts before the last ring size ends with parameters. -/
theorem adjust_ok {fuel : ℕ} (hm : inp.min_hops ≤ 2 ^ 60) (hv : v.ringsize ∈ ringsizes)
    (hle : v.ringsize ≤ 16384) (hfuel : 16384 ≤ v.ringsize * 2 ^ fuel) :
    ∃ v', adjust .fixednf optimize_r inp (fuel + 1) v = .ok v' := by
  induction fuel generalizing v with
  | zero => exact adjust_16384 hm (by omega)
  | succ fuel ih =>
    by_cases hv' : v.ringsize = 16384
    · exact adjust_16384 hm hv'
    obtain ⟨brk, next, hturn⟩ : ∃ brk next, turn .fixednf optimize_r inp v = .ok (brk, next) :=
      turn_ok hm hv hle
    unfold adjust
    rw [if_pos (by omega), hturn]
    obtain ⟨rfl, -⟩ | ⟨rfl, hnext, -⟩ := turn_cases hturn
    · exact ⟨next, rfl⟩
    · refine ih (hnext ▸ two_mul_mem_ringsizes hv hle) ?_ ?_
      · exact hnext ▸ two_mul_le_of_lt hv (by omega)
      · rw [hnext, mul_assoc, ← pow_succ']
        exact hfuel

/-! ## Soundness -/

/-- What the parameters promise. -/
structure Sound (s : Scheme) (inp : Input) (f : Final) : Prop where
  ringsize_mem : f.ringsize ∈ ringsizes
  max_payload_eq : (f.max_payload_bits : ℝ) = f.ringsize * Real.logb 2 inp.p
  payload_le : inp.payload_bits ≤ f.max_payload_bits
  logQ_eq : LogQ inp.dist_type f.ringsize inp.sec_level = some f.logQ
  supports : Supports s f.ringsize inp.p f.r f.logQ inp.min_hops
  hops_le : inp.min_hops ≤ f.max_hops

/-- The payload needs a part of one more coefficient than a ring size has, and the loop ends at this
ring size. -/
def PayloadCut (s : Scheme) (optimize_r : Bool) (inp : Input) : Prop :=
  ∃ ringsize ∈ ringsizes,
    (ringsize * log2 inp.p : ℤ) < inp.payload_bits ∧
    inp.payload_bits < (ringsize + 1) * log2 inp.p ∧
    ∃ logQ r, Accepts s optimize_r inp ringsize logQ r

/-- With fixed noise, the most hops that `this_d >= min_hops` lets pass, for a payload that fits
before the last ring size. -/
def HopLimit (s : Scheme) (inp : Input) : Prop :=
  s = .fixednf ∧ inp.min_hops = 2 ^ 60 ∧ inp.payload_bits < (16384 + 1) * log2 inp.p

/-- The number of hops that is printed is large enough below the limit of `find_d`. -/
theorem Accepts.max_hops (h : Accepts s optimize_r inp ringsize logQ r)
    (hlt : inp.min_hops < 2 ^ 60) :
    inp.min_hops ≤ find_d s logQ ringsize inp.p r 1 (2 ^ 60) - 1 := by
  have := (lt_find_d_iff inp.min_hops_pos hlt).mpr h.supports
  omega

/-- The search for a modulus ends before the last ring size of the table. -/
theorem Accepts.le_16384 (h : Accepts s optimize_r inp ringsize logQ r)
    (hmem : ringsize ∈ ringsizes) : ringsize ≤ 16384 := by
  obtain ⟨logQ', hlogQ, hentry⟩ := logQ_of_mem inp.dist_type hmem inp.sec_level_ne
  obtain rfl : logQ = logQ' := Option.some.inj (h.logQ_eq.symm.trans hlogQ)
  have hupl : s.upl_k ≤ 476 := by cases s <;> decide
  have hlt := h.lt
  by_contra hgt
  have := hentry.last (not_le.mp hgt)
  omega

/-- Without fixed noise, the limit of `find_d` is not supported by the moduli that are searched. -/
theorem Accepts.lt_of_indcpa (h : Accepts .indcpa optimize_r inp ringsize logQ r) :
    inp.min_hops < 2 ^ 60 := by
  have hp : 1 ≤ inp.p := by have := inp.p_range; omega
  have hlt : (inp.min_hops : ℝ) < 2 ^ logQ := (Scheme.le_noise_indcpa hp).trans_lt h.supports
  have hpow : (2 : ℝ) ^ logQ ≤ 2 ^ 60 := pow_le_pow_right₀ one_le_two h.lt.le
  exact_mod_cast hlt.trans_le hpow

theorem sound_of_accepts (hacc : Accepts s optimize_r inp ringsize logQ r)
    (hmem : ringsize ∈ ringsizes) (hpay : inp.payload_bits ≤ ringsize * log2 inp.p)
    (hlt : inp.min_hops < 2 ^ 60) : Sound s inp (inp.final s ringsize r logQ) where
  ringsize_mem := hmem
  max_payload_eq := by
    rw [← inp.log2_eq]
    exact Nat.cast_mul _ _
  payload_le := by
    simp only [Input.final]
    exact_mod_cast hpay
  logQ_eq := hacc.logQ_eq
  supports := hacc.supports
  hops_le := hacc.max_hops hlt

/-- A payload that is not cut fits the ring size where the loop ends. -/
theorem payload_le (hcut : ¬ PayloadCut s optimize_r inp) (hmem : ringsize ∈ ringsizes)
    (hle : set_ringsize inp.min_ringsize ≤ ringsize)
    (hwarn : inp.min_ringsize ≤ set_ringsize inp.min_ringsize)
    (hacc : Accepts s optimize_r inp ringsize logQ r) :
    inp.payload_bits ≤ ringsize * log2 inp.p := by
  have hlt := min_ringsize_le_iff.mp hwarn
  have hL : (0 : ℤ) ≤ log2 inp.p := Int.natCast_nonneg _
  by_contra hgt
  refine hcut ⟨ringsize, hmem, not_le.mp hgt, hlt.trans_le ?_, logQ, r, hacc⟩
  have hle' : ((set_ringsize inp.min_ringsize : ℕ) : ℤ) ≤ ringsize := by exact_mod_cast hle
  gcongr

/-- The loop starts at the ring size where the payload is cut. -/
theorem set_ringsize_of_cut (hmem : ringsize ∈ ringsizes)
    (hlow : (ringsize * log2 inp.p : ℤ) < inp.payload_bits)
    (hhigh : inp.payload_bits < (ringsize + 1) * log2 inp.p) :
    set_ringsize inp.min_ringsize = ringsize ∧ inp.min_ringsize ≤ ringsize := by
  have hmin : inp.min_ringsize ≤ ringsize := min_ringsize_le_iff.mpr hhigh
  obtain ⟨hle, hge⟩ := set_ringsize_spec hmem hmin
  have hL : (0 : ℤ) < log2 inp.p := by exact_mod_cast inp.log2_pos
  have hlt := hlow.trans (min_ringsize_le_iff.mp hge)
  have hlt' := lt_of_mul_lt_mul_right hlt hL.le
  exact ⟨by omega, hmin⟩

theorem warned_eq : (inp.final s ringsize r logQ).warned = false ↔
    inp.min_ringsize ≤ set_ringsize inp.min_ringsize := by
  simp only [Input.final, decide_eq_false_iff_not, not_lt]

/-- Parameters are printed that the payload does not fit. -/
theorem not_sound_of_cut (h : PayloadCut s optimize_r inp) :
    ∃ f, select s optimize_r inp = .ok f ∧ f.warned = false ∧ ¬ Sound s inp f := by
  obtain ⟨ringsize, hmem, hlow, hhigh, logQ, r, hacc⟩ := h
  obtain ⟨hset, hmin⟩ := set_ringsize_of_cut hmem hlow hhigh
  refine ⟨_, select_of_accepts (hset.symm ▸ hacc), warned_eq.mpr (hset.symm ▸ hmin), fun hs => ?_⟩
  have hpay := hs.payload_le
  rw [hset] at hpay
  simp only [Input.final, Nat.cast_mul] at hpay
  omega

/-- Parameters are printed with fewer hops. -/
theorem not_sound_of_limit (optimize_r : Bool) (h : HopLimit s inp) :
    ∃ f, select s optimize_r inp = .ok f ∧ f.warned = false ∧ ¬ Sound s inp f := by
  obtain ⟨rfl, hm, hpay⟩ := h
  have hmin : inp.min_ringsize ≤ (16384 : ℕ) := min_ringsize_le_iff.mpr hpay
  obtain ⟨hle, hwarn⟩ := set_ringsize_spec (by decide : 16384 ∈ ringsizes) hmin
  have hmem := set_ringsize_mem inp.min_ringsize
  have hsize := mem_ringsizes_le hmem
  obtain ⟨v, hv⟩ : ∃ v, adjust .fixednf optimize_r inp 6
      ⟨set_ringsize inp.min_ringsize, none, none⟩ = .ok v :=
    adjust_ok hm.le hmem hle (show 16384 ≤ set_ringsize inp.min_ringsize * 2 ^ 5 by omega)
  obtain ⟨ringsize, logQ, r, -, -, hacc, rfl⟩ := adjust_accepts hm.le hmem hv
  refine ⟨inp.final .fixednf ringsize r logQ, ?_, warned_eq.mpr hwarn, fun hs => ?_⟩
  · unfold select
    rw [hv]
    rfl
  · have hhops : inp.min_hops ≤ find_d .fixednf logQ ringsize inp.p r 1 (2 ^ 60) - 1 := hs.hops_le
    have hfind : find_d .fixednf logQ ringsize inp.p r 1 (2 ^ 60) ≤ 2 ^ 60 := find_d_le
    omega

/-- **The parameters are sound unless the payload is cut or the number of hops is at the limit.** -/
theorem sound_iff (s : Scheme) (optimize_r : Bool) (inp : Input) :
    (∀ f, parameter_selector s optimize_r inp.raw = .ok f → f.warned = false → Sound s inp f) ↔
      ¬ PayloadCut s optimize_r inp ∧ ¬ HopLimit s inp := by
  rw [parameter_selector_raw]
  constructor
  · intro h
    refine ⟨fun hcut => ?_, fun hlimit => ?_⟩
    · obtain ⟨f, hf, hwarn, hnot⟩ := not_sound_of_cut hcut
      exact hnot (h f hf hwarn)
    · obtain ⟨f, hf, hwarn, hnot⟩ := not_sound_of_limit optimize_r hlimit
      exact hnot (h f hf hwarn)
  · rintro ⟨hcut, hlimit⟩ f hf hwarn
    obtain ⟨ringsize, logQ, r, hmem, hle, hacc, rfl⟩ := select_accepts hf
    have hpay := payload_le hcut hmem hle (warned_eq.mp hwarn) hacc
    refine sound_of_accepts hacc hmem hpay (lt_of_le_of_ne hacc.hops_le fun hm => ?_)
    cases s with
    | indcpa => exact hacc.lt_of_indcpa.ne hm
    | fixednf =>
      have hlast := hle.trans (hacc.le_16384 hmem)
      have hmin : inp.min_ringsize ≤ (16384 : ℕ) :=
        (warned_eq.mp hwarn).trans (by exact_mod_cast hlast)
      exact hlimit ⟨rfl, hm, min_ringsize_le_iff.mp hmin⟩

/-- 3073 bits with `p = 8` need 1025 coefficients; the quotient is rounded down to 1024, and the
parameters are printed for this ring size, with a maximal payload of 3072 bits. -/
def cutInput : Input where
  dist_type := .HEStd_uniform
  sec_level := .HEStd_128_classic
  payload_bits := 3073
  p := 8
  min_hops := 1
  min_depth := 0
  sec_level_ne := by decide
  p_mem := by decide
  min_hops_pos := le_rfl

theorem accepts_cutInput : Accepts .indcpa false cutInput 1024 29 1 where
  logQ_eq := rfl
  lt := by decide
  hops_le := by norm_num [cutInput]
  digit := ⟨⟨rfl, fun d h1 hd => absurd hd (not_lt.mpr h1)⟩, fun r hr => le_of_eq hr.1⟩
  supports := by
    rw [supports_iff]
    norm_num [cutInput, Scheme.extra, Scheme.coeff, B_e, alpha, sigma_e]

/-- The printed parameters are not always sound. -/
theorem not_sound :
    ∃ f, parameter_selector .indcpa false cutInput.raw = .ok f ∧ f.warned = false ∧
      f.max_payload_bits < cutInput.payload_bits ∧ ¬ Sound .indcpa cutInput f := by
  have hset : set_ringsize cutInput.min_ringsize = 1024 := by decide
  have hsel := select_of_accepts (hset.symm ▸ accepts_cutInput)
  have hlt : (((cutInput.final .indcpa (set_ringsize cutInput.min_ringsize) 1 29).max_payload_bits
      : ℕ) : ℤ) < cutInput.payload_bits := by decide
  refine ⟨_, (parameter_selector_raw ..).trans hsel, by decide, hlt, fun hs => ?_⟩
  exact absurd hs.payload_le (not_le.mpr hlt)

end Multihop

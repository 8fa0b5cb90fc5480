import Mathlib.Data.Nat.Basic
import Mathlib.Tactic.Ring

/-!
# Retry loops with a time-out

A loop that makes an attempt, and while that fails sleeps and makes the next one, until the number
of its turns times the sleep has passed the time-out; a time-out of 0 never passes. The numbers
are 32-bit machine words, and so is their product.

* `Loop.next`: one turn of the loop.
* `run_start`, `finished_cases`: what the loop does while all attempts fail, and how it ends.
* `honoured_iff`: when it keeps to its time-out.
-/

namespace Retry

variable {ρ : Type}

/-- A run comes to rest in one state. -/
theorem iterate_eq_of_fixed {α : Type} {f : α → α} {x : α} {k m : ℕ}
    (hk : f (f^[k] x) = f^[k] x) (hm : f (f^[m] x) = f^[m] x) : f^[k] x = f^[m] x := by
  rcases Nat.le_total k m with h | h
  · obtain ⟨d, rfl⟩ := Nat.exists_eq_add_of_le h
    rw [Nat.add_comm k d, Function.iterate_add_apply, Function.iterate_fixed hk]
  · obtain ⟨d, rfl⟩ := Nat.exists_eq_add_of_le h
    rw [Nat.add_comm m d, Function.iterate_add_apply, Function.iterate_fixed hm]

/-- The words of the loop. -/
abbrev usint : Type := UInt32

/-- The state at the head of the loop. -/
structure State (ρ : Type) where
  reply : ρ
  /-- The number of attempts made. -/
  attempts : ℕ
  timeoutCtr : usint
  /-- The time slept, in ms. -/
  slept : ℕ
  finished : Bool

/-- A loop. -/
structure Loop (ρ : Type) where
  attempt : ℕ → ρ
  succeeds : ρ → Bool
  sleepTimeMsec : usint
  timeoutMsec : usint

namespace Loop

variable (L : Loop ρ)

/-- The test at the end of a turn. -/
def TimedOut (timeoutCtr : usint) : Prop :=
  timeoutCtr * L.sleepTimeMsec > L.timeoutMsec ∧ L.timeoutMsec ≠ 0

instance (timeoutCtr : usint) : Decidable (L.TimedOut timeoutCtr) := by
  unfold TimedOut; infer_instance

/-- The state before the first turn, after `n` attempts. -/
def start (n : ℕ) : State ρ where
  reply := L.attempt (n - 1)
  attempts := n
  timeoutCtr := 0
  slept := 0
  finished := false

/-- One turn. -/
def next (s : State ρ) : State ρ :=
  if s.finished then s
  else if L.succeeds s.reply then { s with finished := true }
  else
    { reply := L.attempt s.attempts
      attempts := s.attempts + 1
      timeoutCtr := if L.TimedOut s.timeoutCtr then s.timeoutCtr else s.timeoutCtr + 1
      slept := s.slept + L.sleepTimeMsec.toNat
      finished := L.TimedOut s.timeoutCtr }

/-- The state after `k` turns. -/
def run (s : State ρ) (k : ℕ) : State ρ := L.next^[k] s

/-- The loop ends, having slept for more than its time-out, and for at most two sleeps more. -/
def Honoured (s : State ρ) : Prop :=
  ∃ k, (L.run s k).finished = true ∧ L.timeoutMsec.toNat < (L.run s k).slept ∧
    (L.run s k).slept ≤ L.timeoutMsec.toNat + 2 * L.sleepTimeMsec.toNat

variable {L} {s : State ρ} {k m n : ℕ}

/-! ## Turns -/

theorem run_succ (s : State ρ) (k : ℕ) : L.run s (k + 1) = L.next (L.run s k) :=
  Function.iterate_succ_apply' ..

theorem next_of_finished (h : s.finished = true) : L.next s = s := by
  simp [next, h]

theorem run_of_finished (h : s.finished = true) (k : ℕ) : L.run s k = s :=
  Function.iterate_fixed (next_of_finished h) k

/-- The loop ends once. -/
theorem run_eq_of_finished (hk : (L.run s k).finished = true) (hm : (L.run s m).finished = true) :
    L.run s k = L.run s m :=
  iterate_eq_of_fixed (next_of_finished hk) (next_of_finished hm)

theorem next_of_succeeds (hf : s.finished = false) (h : L.succeeds s.reply = true) :
    L.next s = { s with finished := true } := by
  simp [next, hf, h]

/-! ## The turns before the last -/

/-- After `k` turns that fail and do not time out. -/
theorem run_start (n : ℕ) (hfail : ∀ j < k, L.succeeds (L.attempt (n + j)) = false)
    (htime : ∀ j < k, ¬ L.TimedOut (UInt32.ofNat j)) :
    L.run (L.start (n + 1)) k =
      ⟨L.attempt (n + k), n + k + 1, UInt32.ofNat k, k * L.sleepTimeMsec.toNat, false⟩ := by
  induction k with
  | zero => simp [run, start]
  | succ k ih =>
    rw [run_succ, ih (fun j hj => hfail j (by omega)) fun j hj => htime j (by omega)]
    simp [next, hfail k (by omega), htime k (by omega), UInt32.ofNat_add, Nat.succ_mul, Nat.add_assoc]

/-- A loop that ends has a first turn that succeeds or times out. -/
theorem exists_last (n : ℕ) (h : (L.run (L.start (n + 1)) m).finished = true) :
    ∃ k, (L.succeeds (L.attempt (n + k)) = true ∨ L.TimedOut (UInt32.ofNat k)) ∧
      ∀ j < k, L.succeeds (L.attempt (n + j)) = false ∧ ¬ L.TimedOut (UInt32.ofNat j) := by
  have hex : ∃ k, L.succeeds (L.attempt (n + k)) = true ∨ L.TimedOut (UInt32.ofNat k) := by
    by_contra hno
    push Not at hno
    rw [run_start n (fun j _ => by simpa using (hno j).1) fun j _ => (hno j).2] at h
    cases h
  refine ⟨Nat.find hex, Nat.find_spec hex, fun j hj => ?_⟩
  have hmin := Nat.find_min hex hj
  push Not at hmin
  exact ⟨by simpa using hmin.1, hmin.2⟩

/-- The turn after these, the last one, if it succeeds or times out. -/
theorem run_last (n : ℕ) (hfail : ∀ j < k, L.succeeds (L.attempt (n + j)) = false)
    (htime : ∀ j < k, ¬ L.TimedOut (UInt32.ofNat j))
    (hlast : L.succeeds (L.attempt (n + k)) = true ∨ L.TimedOut (UInt32.ofNat k)) :
    (L.run (L.start (n + 1)) (k + 1)).finished = true ∧
      (L.run (L.start (n + 1)) (k + 1)).attempts =
        if L.succeeds (L.attempt (n + k)) = true then n + k + 1 else n + k + 2 := by
  rw [run_succ, run_start n hfail htime]
  by_cases hs : L.succeeds (L.attempt (n + k)) = true
  · rw [next_of_succeeds rfl hs, if_pos hs]
    exact ⟨rfl, rfl⟩
  · rw [if_neg hs]
    simp [next, hs, hlast.resolve_left hs]

/-- **The end of a loop**: it has succeeded, or it has timed out. -/
theorem finished_cases (n : ℕ) (h : (L.run (L.start (n + 1)) m).finished = true) :
    ∃ k, (∀ j < k, ¬ L.TimedOut (UInt32.ofNat j)) ∧
      (L.succeeds (L.attempt (n + k)) = true ∧ (L.run (L.start (n + 1)) m).attempts = n + k + 1 ∨
        L.TimedOut (UInt32.ofNat k) ∧ (L.run (L.start (n + 1)) m).attempts = n + k + 2) := by
  obtain ⟨k, hlast, hbefore⟩ := exists_last n h
  obtain ⟨hfin, hattempts⟩ := run_last n (fun j hj => (hbefore j hj).1)
    (fun j hj => (hbefore j hj).2) hlast
  refine ⟨k, fun j hj => (hbefore j hj).2, ?_⟩
  rw [run_eq_of_finished h hfin, hattempts]
  by_cases hs : L.succeeds (L.attempt (n + k)) = true
  · exact .inl ⟨hs, if_pos hs⟩
  · exact .inr ⟨hlast.resolve_left hs, if_neg hs⟩

/-! ## When all attempts fail -/

theorem timedOut_iff (k : ℕ) : L.TimedOut (UInt32.ofNat k) ↔
    L.timeoutMsec.toNat < k * L.sleepTimeMsec.toNat % 2 ^ 32 ∧ L.timeoutMsec ≠ 0 := by
  unfold TimedOut
  rw [gt_iff_lt, UInt32.lt_iff_toNat_lt, UInt32.toNat_mul, UInt32.toNat_ofNat', Nat.mod_mul_mod]

/-- The test does not hold before the first multiple of the sleep above the time-out. -/
theorem not_timedOut {j : ℕ} (hj : j < L.timeoutMsec.toNat / L.sleepTimeMsec.toNat + 1) :
    ¬ L.TimedOut (UInt32.ofNat j) := by
  intro hto
  have hlt := ((timedOut_iff j).mp hto).1
  have hle : j * L.sleepTimeMsec.toNat ≤
      L.timeoutMsec.toNat / L.sleepTimeMsec.toNat * L.sleepTimeMsec.toNat :=
    Nat.mul_le_mul_right _ (by omega)
  have hdiv := Nat.div_mul_le_self L.timeoutMsec.toNat L.sleepTimeMsec.toNat
  have hmod := Nat.mod_le (j * L.sleepTimeMsec.toNat) (2 ^ 32)
  omega

theorem timeout_lt (L : Loop ρ) (hpos : 0 < L.sleepTimeMsec.toNat) : L.timeoutMsec.toNat <
    (L.timeoutMsec.toNat / L.sleepTimeMsec.toNat + 1) * L.sleepTimeMsec.toNat := by
  rw [mul_comm]
  exact Nat.lt_mul_div_succ _ hpos

/-- It holds at this multiple, if it fits. -/
theorem timedOut_of_fit (ht : L.timeoutMsec ≠ 0) (hpos : 0 < L.sleepTimeMsec.toNat)
    (hfit : (L.timeoutMsec.toNat / L.sleepTimeMsec.toNat + 1) * L.sleepTimeMsec.toNat < 2 ^ 32) :
    L.TimedOut (UInt32.ofNat (L.timeoutMsec.toNat / L.sleepTimeMsec.toNat + 1)) := by
  refine (timedOut_iff _).mpr ⟨?_, ht⟩
  rw [Nat.mod_eq_of_lt hfit]
  exact L.timeout_lt hpos

/-- The state after `k` turns in vain. -/
structure Vain (L : Loop ρ) (k : ℕ) (s : State ρ) : Prop where
  reply : L.succeeds s.reply = false
  timeoutCtr : s.timeoutCtr = UInt32.ofNat k
  slept : s.slept = k * L.sleepTimeMsec.toNat
  finished : s.finished = false

/-- A multiple of the sleep that has passed the time-out only after a wrap comes too late. -/
theorem not_honoured_of_wrap {sleep timeout m : ℕ} (hsleep : sleep < 2 ^ 32)
    (hwrap : 2 ^ 32 ≤ (timeout / sleep + 1) * sleep) (hm : timeout < m * sleep % 2 ^ 32) :
    ¬ (m + 1) * sleep ≤ timeout + 2 * sleep := by
  have hdiv := Nat.div_add_mod (m * sleep) (2 ^ 32)
  have hsucc : (m + 1) * sleep = m * sleep + sleep := Nat.succ_mul m sleep
  rcases Nat.eq_zero_or_pos (m * sleep / 2 ^ 32) with h0 | hq
  · have hlt : timeout < m * sleep := by omega
    have hm' : timeout / sleep < m := (Nat.div_lt_iff_lt_mul (by
      rcases Nat.eq_zero_or_pos sleep with h | h
      · subst h; omega
      · exact h)).mpr hlt
    have hle : (timeout / sleep + 1) * sleep ≤ m * sleep := Nat.mul_le_mul_right _ hm'
    omega
  · have hge : 2 ^ 32 * 1 ≤ 2 ^ 32 * (m * sleep / 2 ^ 32) := Nat.mul_le_mul_left _ hq
    omega

variable (hfail : ∀ n, L.succeeds (L.attempt n) = false)

include hfail

theorem vain_start (n : ℕ) : Vain L 0 (L.start n) :=
  ⟨hfail _, rfl, by simp [start], rfl⟩

theorem Vain.next (h : Vain L k s) (ht : ¬ L.TimedOut (UInt32.ofNat k)) :
    Vain L (k + 1) (L.next s) := by
  have hnext : L.next s = ⟨L.attempt s.attempts, s.attempts + 1, UInt32.ofNat k + 1,
      s.slept + L.sleepTimeMsec.toNat, false⟩ := by
    simp [Loop.next, h.finished, h.reply, h.timeoutCtr, ht]
  rw [hnext]
  exact ⟨hfail _, by simp [UInt32.ofNat_add], by simp [h.slept, Nat.succ_mul], rfl⟩

theorem vain_run (n : ℕ) (hk : ∀ j < k, ¬ L.TimedOut (UInt32.ofNat j)) :
    Vain L k (L.run (L.start n) k) := by
  induction k with
  | zero => exact vain_start hfail n
  | succ k ih =>
    rw [run_succ]
    exact (ih fun j hj => hk j (by omega)).next hfail (hk k (by omega))

/-- The loop ends in the first turn whose test holds. -/
theorem finished_run (n : ℕ) (hk : ∀ j < k, ¬ L.TimedOut (UInt32.ofNat j))
    (ht : L.TimedOut (UInt32.ofNat k)) :
    (L.run (L.start n) (k + 1)).finished = true ∧
      (L.run (L.start n) (k + 1)).slept = (k + 1) * L.sleepTimeMsec.toNat := by
  have hv := vain_run hfail n hk
  rw [run_succ]
  simp [Loop.next, hv.finished, hv.reply, hv.timeoutCtr, ht, hv.slept, Nat.succ_mul]

/-- **When a loop keeps to its time-out**: the first multiple of its sleep above the time-out fits
into a machine word. -/
theorem honoured_iff (ht : L.timeoutMsec ≠ 0) (n : ℕ) : L.Honoured (L.start n) ↔
    L.sleepTimeMsec ≠ 0 ∧
      (L.timeoutMsec.toNat / L.sleepTimeMsec.toNat + 1) * L.sleepTimeMsec.toNat < 2 ^ 32 := by
  constructor
  · rintro ⟨k, hfin, hlt, hle⟩
    have hex : ∃ m, L.TimedOut (UInt32.ofNat m) := by
      by_contra hno
      have hv := vain_run (k := k) hfail n fun j _ hj => hno ⟨j, hj⟩
      rw [hv.finished] at hfin
      cases hfin
    -- the first turn whose test holds, with its number and the multiple of the sleep apart
    obtain ⟨hend, hslept⟩ := finished_run hfail n (fun j hj => Nat.find_min hex hj)
      (Nat.find_spec hex)
    have hmul := ((timedOut_iff _).mp (Nat.find_spec hex)).1
    rw [run_eq_of_finished hfin hend, hslept] at hle
    generalize Nat.find hex = m at hmul hle
    have hs : L.sleepTimeMsec ≠ 0 := by
      rintro h0
      rw [h0] at hmul
      simp at hmul
    refine ⟨hs, ?_⟩
    by_contra hwrap
    exact not_honoured_of_wrap (UInt32.toNat_lt _) (by omega) hmul hle
  · rintro ⟨hs, hfit⟩
    have hpos : 0 < L.sleepTimeMsec.toNat := by
      rw [Nat.pos_iff_ne_zero]
      exact fun h => hs (UInt32.toNat_inj.mp h)
    have hdiv := Nat.div_mul_le_self L.timeoutMsec.toNat L.sleepTimeMsec.toNat
    have hsucc := Nat.add_one_mul (L.timeoutMsec.toNat / L.sleepTimeMsec.toNat) L.sleepTimeMsec.toNat
    have habove := L.timeout_lt hpos
    obtain ⟨hend, hslept⟩ :=
      finished_run hfail n (fun _ => not_timedOut) (timedOut_of_fit ht hpos hfit)
    refine ⟨_, hend, ?_, ?_⟩
    · rw [hslept, Nat.add_one_mul]
      omega
    · rw [hslept, Nat.add_one_mul]
      omega

end Loop

end Retry

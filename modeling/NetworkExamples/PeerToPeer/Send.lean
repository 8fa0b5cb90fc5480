import NetworkExamples.Rpc.Retry
import NetworkExamples.PeerToPeer.Queue

/-!
# The attempts of a send, and the waits

`sendMsg` (`node.h`) makes attempts until one is acknowledged. To a node that it has not sent to
before it first connects, in a loop of its own that counts to ten seconds; then comes the loop with
the time-out of the caller. `getMsgWait` waits in the same loop with looks for attempts.

* `sendMsg_stops_iff`: when no attempt follows the first acknowledged one.
* `time_outs_iff`: when the waits keep to their time-outs.
-/

namespace PeerToPeer

open Retry

/-- What comes of an attempt: it is delivered and acknowledged, or it is not delivered. -/
inductive Outcome where
  | acknowledged
  /-- The error is `failed to connect to all addresses`. -/
  | unreachable
  | failed
  deriving DecidableEq

/-- A call of `sendMsg`. -/
structure Send where
  /-- What comes of each of its attempts. -/
  outcome : ℕ → Outcome
  establishedConnection : Bool
  allowOverride : Bool
  sleepTimeMsec : usint
  timeoutMsec : usint

namespace Send

variable (S : Send)

/-- The call raises its sleep and time-out, and connects first. -/
def Overrides : Prop := S.establishedConnection = false ∧ S.allowOverride = true

instance : Decidable S.Overrides := by unfold Overrides; infer_instance

/-- The second loop. -/
def loop : Loop Outcome where
  attempt := S.outcome
  succeeds reply := reply = .acknowledged
  sleepTimeMsec := if S.Overrides then 10 else S.sleepTimeMsec
  timeoutMsec := if S.Overrides then 10000 else S.timeoutMsec

/-- The state of a call. -/
inductive State where
  /-- At the head of the first loop. -/
  | connecting (wait_ctr : usint) (reply : Outcome) (attempts : ℕ)
  /-- In the second loop, or after it. -/
  | waiting (s : Retry.State Outcome)

namespace State

def attempts : State → ℕ
  | connecting _ _ n => n
  | waiting s => s.attempts

def returned : State → Bool
  | connecting .. => false
  | waiting s => s.finished

end State

/-- The call has made its first attempt. -/
def start : State :=
  if S.Overrides then .connecting 0 (S.outcome 0) 1 else .waiting (S.loop.start 1)

/-- One turn of a loop. The first loop goes on, whatever the reply is, when its count is over the
time-out. -/
def next : State → State
  | .connecting wait_ctr reply n =>
    if reply = .unreachable ∨
        (wait_ctr * S.loop.sleepTimeMsec > S.loop.timeoutMsec ∧ S.loop.timeoutMsec ≠ 0) then
      .connecting (wait_ctr + 1) (S.outcome n) (n + 1)
    else .waiting ⟨reply, n, 0, 0, false⟩
  | .waiting s => .waiting (S.loop.next s)

def run (k : ℕ) : State := S.next^[k] S.start

/-- The copies of the message in the queue of the receiver after `n` attempts. -/
def copies (n : ℕ) : ℕ := (List.range n).countP (S.outcome · = .acknowledged)

/-- Attempt `a` is the first one that is acknowledged. -/
def FirstAck (a : ℕ) : Prop := S.outcome a = .acknowledged ∧ ∀ j < a, S.outcome j ≠ .acknowledged

/-- No attempt follows the first acknowledged one: the call returns, with one copy queued. -/
def StopsAtFirstAck : Prop :=
  ∀ a, S.FirstAck a → (∃ k, (S.run k).attempts = a + 1) →
    ∃ k, (S.run k).returned = true ∧ (S.run k).attempts = a + 1 ∧ S.copies (S.run k).attempts = 1

/-- After attempt `j` the first loop goes on. -/
def GoesOn (j : ℕ) : Prop := S.outcome j = .unreachable ∨ 10000 < j * 10 % 2 ^ 32

/-- The first loop is still going on at attempt `a`, and its count is over the time-out. -/
def Overruns (a : ℕ) : Prop := (∀ j < a, S.GoesOn j) ∧ 10000 < a * 10 % 2 ^ 32

variable {S} {a k n : ℕ} {s : State}

theorem run_succ (k : ℕ) : S.run (k + 1) = S.next (S.run k) := Function.iterate_succ_apply' ..

theorem goesOn_iff (h : S.Overrides) (k : ℕ) (reply : Outcome) :
    (reply = .unreachable ∨ (UInt32.ofNat k * S.loop.sleepTimeMsec > S.loop.timeoutMsec ∧
      S.loop.timeoutMsec ≠ 0)) ↔ reply = .unreachable ∨ 10000 < k * 10 % 2 ^ 32 := by
  have hsleep : S.loop.sleepTimeMsec = 10 := if_pos h
  have htimeout : S.loop.timeoutMsec = 10000 := if_pos h
  have hne : (10000 : usint) ≠ 0 := by decide
  have hten : (10 : usint).toNat = 10 := rfl
  have hbound : (10000 : usint).toNat = 10000 := rfl
  rw [hsleep, htimeout, gt_iff_lt, UInt32.lt_iff_toNat_lt, UInt32.toNat_mul, UInt32.toNat_ofNat',
    Nat.mod_mul_mod, hten, hbound]
  simp [hne]

/-- A turn of the first loop. -/
theorem next_connecting (h : S.Overrides) (hk : S.GoesOn k) :
    S.next (.connecting (UInt32.ofNat k) (S.outcome k) (k + 1)) =
      .connecting (UInt32.ofNat (k + 1)) (S.outcome (k + 1)) (k + 1 + 1) := by
  unfold next
  dsimp only
  rw [if_pos ((goesOn_iff h k _).mpr hk), UInt32.ofNat_add]
  rfl

/-- The end of the first loop. -/
theorem next_connecting_of_not (h : S.Overrides) (hk : ¬ S.GoesOn k) :
    S.next (.connecting (UInt32.ofNat k) (S.outcome k) (k + 1)) =
      .waiting ⟨S.outcome k, k + 1, 0, 0, false⟩ := by
  unfold next
  dsimp only
  rw [if_neg fun hg => hk ((goesOn_iff h k _).mp hg)]

theorem run_connecting (h : S.Overrides) (hk : ∀ j < k, S.GoesOn j) :
    S.run k = .connecting (UInt32.ofNat k) (S.outcome k) (k + 1) := by
  induction k with
  | zero => exact if_pos h
  | succ k ih =>
    rw [run_succ, ih fun j hj => hk j (by omega), next_connecting h (hk k (by omega))]

theorem attempts_next_le (s : State) : s.attempts ≤ (S.next s).attempts := by
  cases s with
  | connecting w r n =>
    unfold next
    dsimp only
    split
    · exact Nat.le_succ n
    · exact Nat.le_refl n
  | waiting s =>
    simp only [next, Loop.next, State.attempts]
    split
    · exact Nat.le_refl _
    · split
      · exact Nat.le_refl _
      · exact Nat.le_succ _

theorem attempts_run_le {k m : ℕ} (h : k ≤ m) : (S.run k).attempts ≤ (S.run m).attempts := by
  induction m, h using Nat.le_induction with
  | base => exact Nat.le_refl _
  | succ m _ ih =>
    rw [run_succ]
    exact ih.trans (attempts_next_le _)

theorem copies_of_firstAck (h : S.FirstAck a) : S.copies (a + 1) = 1 := by
  have hnone : (List.range a).countP (S.outcome · = .acknowledged) = 0 :=
    List.countP_eq_zero.mpr fun j hj => by simpa using h.2 j (List.mem_range.mp hj)
  simp [copies, List.range_succ, hnone, h.1]

/-! ## No attempt after the first acknowledged one -/

/-- What holds of a call whose first acknowledged attempt is `a`, in each of its states. -/
def Within (S : Send) (a : ℕ) : State → Prop
  | .connecting wait_ctr reply n => S.Overrides ∧ ∃ k ≤ a, n = k + 1 ∧
      wait_ctr = UInt32.ofNat k ∧ reply = S.outcome k ∧ ∀ j < k, S.GoesOn j
  | .waiting s => 1 ≤ s.attempts ∧ s.attempts ≤ a + 1 ∧ s.reply = S.outcome (s.attempts - 1)

theorem not_goesOn (ha : S.FirstAck a) (hover : ¬ S.Overruns a) (hk : ∀ j < a, S.GoesOn j) :
    ¬ S.GoesOn a := by
  rintro (hu | hw)
  · rw [ha.1] at hu
    cases hu
  · exact hover ⟨hk, hw⟩

theorem within_start (S : Send) (a : ℕ) : S.Within a S.start := by
  unfold start
  split
  · next h => exact ⟨h, 0, by omega, rfl, rfl, rfl, by simp⟩
  · exact ⟨Nat.le_refl 1, Nat.succ_le_succ (Nat.zero_le a), rfl⟩

theorem Within.next (ha : S.FirstAck a) (hover : S.Overrides → ¬ S.Overruns a)
    (h : S.Within a s) : S.Within a (S.next s) := by
  cases s with
  | connecting w r n =>
    obtain ⟨ho, k, hle, rfl, rfl, rfl, hk⟩ := h
    by_cases hg : S.GoesOn k
    · rw [next_connecting ho hg]
      have hka : k ≠ a := by
        rintro rfl
        exact not_goesOn ha (hover ho) hk hg
      refine ⟨ho, k + 1, by omega, rfl, rfl, rfl, fun j hj => ?_⟩
      rcases Nat.lt_succ_iff_lt_or_eq.mp hj with hj | rfl
      · exact hk j hj
      · exact hg
    · rw [next_connecting_of_not ho hg]
      exact ⟨Nat.le_add_left 1 k, Nat.succ_le_succ hle, rfl⟩
  | waiting s =>
    obtain ⟨hpos, hle, hreply⟩ := h
    simp only [Send.next, Loop.next, Within]
    split
    · exact ⟨hpos, hle, hreply⟩
    · split
      · exact ⟨hpos, hle, hreply⟩
      · next hack =>
        have hne : s.attempts - 1 ≠ a := by
          intro heq
          rw [heq, ha.1] at hreply
          simp [loop, hreply] at hack
        exact ⟨by simp, by dsimp only; omega, rfl⟩

theorem within_run (ha : S.FirstAck a) (hover : S.Overrides → ¬ S.Overruns a) (k : ℕ) :
    S.Within a (S.run k) := by
  induction k with
  | zero => exact within_start S a
  | succ k ih =>
    rw [run_succ]
    exact ih.next ha hover

/-- In the second loop the call returns at once. -/
theorem returned_waiting {r : Retry.State Outcome} (ha : S.FirstAck a)
    (h : S.Within a (.waiting r)) (hr : r.attempts = a + 1) :
    (S.next (.waiting r)).returned = true ∧ (S.next (.waiting r)).attempts = a + 1 := by
  have hreply : r.reply = .acknowledged := by
    rw [h.2.2, hr, Nat.add_sub_cancel, ha.1]
  have hsucc : S.loop.succeeds r.reply = true := by simp [loop, hreply]
  unfold next State.returned State.attempts
  dsimp only
  cases hf : r.finished with
  | true =>
    rw [Loop.next_of_finished hf]
    exact ⟨hf, hr⟩
  | false =>
    rw [Loop.next_of_succeeds hf hsucc]
    exact ⟨rfl, hr⟩

theorem stops_of_not_overruns (h : ∀ a, S.FirstAck a → S.Overrides → ¬ S.Overruns a) :
    S.StopsAtFirstAck := by
  rintro a ha ⟨k, hk⟩
  suffices hs : ∃ m, (S.run m).returned = true ∧ (S.run m).attempts = a + 1 by
    obtain ⟨m, hr, hm⟩ := hs
    exact ⟨m, hr, hm, hm ▸ copies_of_firstAck ha⟩
  have hw := within_run ha (h a ha) k
  cases hrun : S.run k with
  | waiting r =>
    rw [hrun] at hw hk
    have hret := returned_waiting ha hw hk
    rw [← hrun, ← run_succ] at hret
    exact ⟨k + 1, hret⟩
  | connecting w r n =>
    rw [hrun] at hw hk
    obtain ⟨ho, j, hle, rfl, rfl, rfl, hj⟩ := hw
    obtain rfl : j = a := by simpa [State.attempts] using hk
    have hnext := next_connecting_of_not ho (not_goesOn ha (h j ha ho) hj)
    rw [← hrun, ← run_succ] at hnext
    have hw' := within_run ha (h j ha) (k + 1)
    rw [hnext] at hw'
    have hret := returned_waiting ha hw' rfl
    rw [← hnext, ← run_succ] at hret
    exact ⟨k + 2, hret⟩

theorem not_stops_of_overruns (ha : S.FirstAck a) (ho : S.Overrides) (hover : S.Overruns a) :
    ¬ S.StopsAtFirstAck := by
  intro h
  have hgo : ∀ j < a + 1, S.GoesOn j := fun j hj => by
    rcases Nat.lt_succ_iff_lt_or_eq.mp hj with hj | rfl
    · exact hover.1 j hj
    · exact .inr hover.2
  obtain ⟨k, hret, hk, -⟩ := h a ha ⟨a, by rw [run_connecting ho hover.1]; rfl⟩
  rcases Nat.lt_or_ge a k with hlt | hle
  · have hmono := attempts_run_le (S := S) (show a + 1 ≤ k from hlt)
    rw [run_connecting ho hgo, hk] at hmono
    simp only [State.attempts] at hmono
    omega
  · rw [run_connecting ho fun j hj => hover.1 j (by omega)] at hret
    cases hret

/-- **When a send stops at the first acknowledgement**: if it does not connect first, or the first
loop has not overrun its ten seconds when the acknowledgement comes. -/
theorem sendMsg_stops_iff (S : Send) : S.StopsAtFirstAck ↔
    S.establishedConnection = true ∨ S.allowOverride = false ∨
      ∀ a, S.FirstAck a → ¬ S.Overruns a := by
  constructor
  · intro h
    by_contra hno
    simp only [not_or, Bool.not_eq_true, Bool.not_eq_false, not_forall, not_not] at hno
    obtain ⟨he, ho, a, ha, hover⟩ := hno
    exact not_stops_of_overruns ha ⟨he, ho⟩ hover h
  · intro h
    refine stops_of_not_overruns fun a ha ho => ?_
    rcases h with he | he | h
    · exact absurd ho.1 (by simp [he])
    · exact absurd ho.2 (by simp [he])
    · exact h a ha

/-- The receiver starts 1001 attempts late. -/
def late : Send where
  outcome n := if n < 1001 then .unreachable else .acknowledged
  establishedConnection := false
  allowOverride := true
  sleepTimeMsec := 1
  timeoutMsec := 0

theorem not_stops_late : ¬ late.StopsAtFirstAck := by
  refine not_stops_of_overruns (a := 1001) ⟨rfl, fun j hj => ?_⟩ ⟨rfl, rfl⟩ ⟨fun j hj => ?_, by decide⟩
  · simp [late, hj]
  · exact .inl (by simp [late, hj])

/-! ## Time-outs -/

/-- A call that times out returns having slept for more than its time-out, and for at most two
sleeps more. -/
def Honoured (S : Send) : Prop :=
  ∃ k s, S.run k = .waiting s ∧ s.finished = true ∧ S.timeoutMsec.toNat < s.slept ∧
    s.slept ≤ S.timeoutMsec.toNat + 2 * S.sleepTimeMsec.toNat

theorem run_of_established (h : S.establishedConnection = true) (k : ℕ) :
    S.run k = .waiting (S.loop.run (S.loop.start 1) k) := by
  have ho : ¬ S.Overrides := fun ho => by simp [ho.1] at h
  induction k with
  | zero => exact if_neg ho
  | succ k ih =>
    rw [run_succ, ih, Loop.run_succ]
    rfl

theorem honoured_iff_loop (h : S.establishedConnection = true) :
    S.Honoured ↔ S.loop.Honoured (S.loop.start 1) := by
  have ho : ¬ S.Overrides := fun ho => by simp [ho.1] at h
  have hsleep : S.loop.sleepTimeMsec = S.sleepTimeMsec := if_neg ho
  have htimeout : S.loop.timeoutMsec = S.timeoutMsec := if_neg ho
  unfold Honoured Loop.Honoured
  rw [hsleep, htimeout]
  simp [run_of_established h]

end Send

/-- The loop of `getMsgWait`, whose looks into the queue return `look 0`, `look 1`, …. -/
def getMsgWaitLoop (look : ℕ → MessageFormat) (sleepTimeMsec timeoutMsec : usint) :
    Loop MessageFormat where
  attempt := look
  succeeds reply := reply.acknowledgement
  sleepTimeMsec := sleepTimeMsec
  timeoutMsec := timeoutMsec

/-- The first multiple of the sleep above the time-out fits into a machine word. -/
def Fits (sleepTimeMsec timeoutMsec : usint) : Prop :=
  sleepTimeMsec ≠ 0 ∧
    (timeoutMsec.toNat / sleepTimeMsec.toNat + 1) * sleepTimeMsec.toNat < 2 ^ 32

instance (sleepTimeMsec timeoutMsec : usint) : Decidable (Fits sleepTimeMsec timeoutMsec) := by
  unfold Fits; infer_instance

variable {sleepTimeMsec timeoutMsec : usint} {look : ℕ → MessageFormat} {outcome : ℕ → Outcome}
  {allowOverride : Bool}

theorem getMsgWait_honoured_iff (ht : timeoutMsec ≠ 0)
    (hlook : ∀ n, (look n).acknowledgement = false) :
    (getMsgWaitLoop look sleepTimeMsec timeoutMsec).Honoured
        ((getMsgWaitLoop look sleepTimeMsec timeoutMsec).start 1) ↔
      Fits sleepTimeMsec timeoutMsec :=
  Loop.honoured_iff hlook ht 1

theorem sendMsg_honoured_iff (ht : timeoutMsec ≠ 0) (hout : ∀ n, outcome n ≠ .acknowledged) :
    Send.Honoured ⟨outcome, true, allowOverride, sleepTimeMsec, timeoutMsec⟩ ↔
      Fits sleepTimeMsec timeoutMsec := by
  rw [Send.honoured_iff_loop rfl]
  exact Loop.honoured_iff (fun n => by simpa [Send.loop] using hout n) ht 1

/-- **When the time-outs are honoured**, if every attempt fails. -/
theorem time_outs_iff (ht : timeoutMsec ≠ 0) (hlook : ∀ n, (look n).acknowledgement = false)
    (hout : ∀ n, outcome n ≠ .acknowledged) :
    ((getMsgWaitLoop look sleepTimeMsec timeoutMsec).Honoured
        ((getMsgWaitLoop look sleepTimeMsec timeoutMsec).start 1) ↔
      Fits sleepTimeMsec timeoutMsec) ∧
    (Send.Honoured ⟨outcome, true, allowOverride, sleepTimeMsec, timeoutMsec⟩ ↔
      Fits sleepTimeMsec timeoutMsec) :=
  ⟨getMsgWait_honoured_iff ht hlook, sendMsg_honoured_iff ht hout⟩

theorem time_outs_second :
    Send.Honoured ⟨fun _ => .failed, true, true, 10, 1000⟩ :=
  (time_outs_iff (by decide) (fun _ => show MessageFormat.default.acknowledgement = false from rfl)
    (fun _ => by decide)).2.mpr (by decide)

/-- A sleep of 0 never passes a time-out, and neither does any sleep the largest one. -/
theorem not_time_outs : (¬ (getMsgWaitLoop (fun _ => .default) 0 1000).Honoured
      ((getMsgWaitLoop (fun _ => .default) 0 1000).start 1)) ∧
    ¬ Send.Honoured ⟨fun _ => .failed, true, true, 1, 4294967295⟩ :=
  ⟨fun h => absurd ((getMsgWait_honoured_iff (by decide) fun _ => rfl).mp h) (by decide),
    fun h => absurd ((sendMsg_honoured_iff (by decide) fun _ => by decide).mp h) (by decide)⟩

end PeerToPeer

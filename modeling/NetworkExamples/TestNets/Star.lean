import NetworkExamples.TestNets.Scripts

/-!
# A server and its clients

In the tests of the dropouts a server broadcasts its messages to its clients, and these only receive.

* `chan_rounds`: the queue of a client that takes the first rounds, and leaves.
* `Star.runs`: a server and its clients run by their scripts.
-/

namespace TestNets.Dropout

open Fifo PeerToPeer

/-- The message `i` of the server. -/
def message (i : ℕ) : MessageFormat := ⟨false, nodeName 0, "HelloMsg", "Msg:" ++ toString i⟩

def numToSend : ℕ := 5

/-! ## The scripts -/

/-- The server broadcasts the messages `0, …, n`. -/
def rounds (n : ℕ) (L : List ℕ) (failed : ℕ → ℕ) (bounded : Bool) : Script ℕ MessageFormat String :=
  greets 0 L (message 0) failed ++
    (List.range' 1 n).flatMap fun i => broadcasts (2 * i) L (message i) bounded

/-- A client looks for the messages `K`, gets them, and prints a line for each. -/
def heard (K : List ℕ) (looks : ℕ → ℕ) (line : ℕ → String) : Script ℕ MessageFormat String :=
  K.flatMap fun i => spins (2 * i + 1) (looks i) ++
    [(2 * i + 1, .got 0 (.got (message i))), (2 * i + 1, .noted (endl (line i)))]

/-- A client waits in vain, and prints a line each time. -/
def missed (K : List ℕ) (looks : ℕ → ℕ) (line : ℕ → String) : Script ℕ MessageFormat String :=
  K.flatMap fun i => spins (2 * i + 1) (looks i) ++
    [(2 * i + 1, .got 0 .timedOut), (2 * i + 1, .noted (endl (line i)))]

variable {K L : List ℕ} {N n i : ℕ} {failed looks : ℕ → ℕ} {bounded : Bool} {line : ℕ → String}
  {e : ℕ × Event ℕ MessageFormat String}

/-! ### The queues -/

theorem sents_rounds (hL : L.Nodup) (d : ℕ) : sents (rounds n L failed bounded) d =
    if d ∈ L then (0, message 0, false) :: (List.range' 1 n).map fun i => (2 * i, message i, bounded)
    else [] := by
  rw [rounds, sents_append, sents_greets hL, sents_turns]
  unfold broadcasts
  simp only [sents_map hL]
  split
  · rw [List.map_eq_flatMap]
    rfl
  · exact List.flatMap_eq_nil_iff.mpr fun _ _ => rfl

theorem takes_rounds (a : ℕ) : takes (rounds n L failed bounded) a = [] := by
  rw [rounds, takes_append, takes_greets, takes_turns]
  apply List.flatMap_eq_nil_iff.mpr
  intro k _
  exact takes_map_sent L _ _ _ a

/-- A wait sends nothing. -/
theorem sents_wait (t n d : ℕ) (r : Reply MessageFormat) (x : String) :
    sents (spins t n ++ [(t, .got 0 r), (t, .noted x)]) d = [] := by
  rw [sents_append, sents_spins]
  rfl

theorem takes_wait (t n a : ℕ) (r : Reply MessageFormat) (x : String) :
    takes (spins t n ++ [(t, .got 0 r), (t, .noted x)]) a = if a = 0 then [(t, r)] else [] := by
  rw [takes_append, takes_spins, List.nil_append]
  split
  · next ha => subst ha; rfl
  · next ha => simp [Ne.symm ha]

theorem sents_heard (d : ℕ) : sents (heard K looks line) d = [] := by
  rw [heard, sents_turns]
  exact List.flatMap_eq_nil_iff.mpr fun _ _ => sents_wait _ _ d _ _

theorem takes_heard (a : ℕ) : takes (heard K looks line) a =
    if a = 0 then K.map fun i => (2 * i + 1, .got (message i)) else [] := by
  rw [heard, takes_turns]
  simp only [takes_wait]
  split
  · rw [List.map_eq_flatMap]
  · exact List.flatMap_eq_nil_iff.mpr fun _ _ => rfl

theorem sents_missed (d : ℕ) : sents (missed K looks line) d = [] := by
  rw [missed, sents_turns]
  exact List.flatMap_eq_nil_iff.mpr fun _ _ => sents_wait _ _ d _ _

theorem takes_missed (a : ℕ) : takes (missed K looks line) a =
    if a = 0 then K.map fun i => (2 * i + 1, .timedOut) else [] := by
  rw [missed, takes_turns]
  simp only [takes_wait]
  split
  · rw [List.map_eq_flatMap]
  · exact List.flatMap_eq_nil_iff.mpr fun _ _ => rfl

theorem wire_rounds (K : List ℕ) (bounded : Bool) :
    Wire (K.map fun i => (2 * i, message i, bounded)) (K.map fun i => (2 * i + 1, .got (message i))) := by
  induction K with
  | nil => exact .nil
  | cons k K ih => exact .cons ⟨Nat.lt_succ_self _, rfl⟩ ih

/-- The rounds `K'` that a client does not take, if it leaves after the rounds `K`: each send gives up. -/
theorem chan_rounds {K' : List ℕ} (h : K' ≠ [] → bounded = true) :
    Chan none ((K ++ K').map fun i => (2 * i, message i, bounded))
      (K.map fun i => (2 * i + 1, .got (message i))) := by
  have hrest : Chan (none : Option (List MessageFormat))
      (K'.map fun i => (2 * i, message i, bounded)) [] := by
    refine .nil fun x hx => ?_
    obtain ⟨k, hk, rfl⟩ := List.mem_map.mp hx
    exact h (List.ne_nil_of_mem hk)
  have hchan := (wire_rounds K bounded).chan hrest
  rw [List.map_append]
  rwa [List.append_nil] at hchan

theorem chan_missed (K : List ℕ) :
    Chan (none : Option (List MessageFormat)) [] (K.map fun i => (2 * i + 1, .timedOut)) := by
  induction K with
  | nil => exact .nil fun x hx => absurd hx List.not_mem_nil
  | cons k K ih => exact .late ih

/-! ### The times -/

theorem mem_rounds (he : e ∈ rounds n L failed bounded) : e.1 ≤ 2 * n := by
  rcases List.mem_append.mp he with he | he
  · rw [(mem_greets he).1]
    exact Nat.zero_le _
  · obtain ⟨i, hi, he⟩ := List.mem_flatMap.mp he
    obtain ⟨-, hin⟩ := List.mem_range'_1.mp hi
    rw [(mem_broadcasts he).1]
    omega

theorem mem_wait {t : ℕ} {r : Reply MessageFormat} {x : String}
    (he : e ∈ spins t n ++ [(t, .got 0 r), (t, .noted x)]) : e.1 = t := by
  rcases List.mem_append.mp he with he | he
  · exact (mem_spins he).1
  · simp only [List.mem_cons, List.not_mem_nil, or_false] at he
    rcases he with rfl | rfl
    · rfl
    · rfl

theorem mem_heard (he : e ∈ heard K looks line) : ∃ i ∈ K, e.1 = 2 * i + 1 := by
  obtain ⟨i, hi, he⟩ := List.mem_flatMap.mp he
  exact ⟨i, hi, mem_wait he⟩

theorem mem_missed (he : e ∈ missed K looks line) : ∃ i ∈ K, e.1 = 2 * i + 1 := by
  obtain ⟨i, hi, he⟩ := List.mem_flatMap.mp he
  exact ⟨i, hi, mem_wait he⟩

theorem sorted_rounds (n : ℕ) (L : List ℕ) (failed : ℕ → ℕ) (bounded : Bool) :
    (rounds n L failed bounded).Pairwise (·.1 ≤ ·.1) := by
  refine List.pairwise_append.mpr ⟨sorted_greets 0 L _ failed, ?_, fun e he e' _ => ?_⟩
  · apply sorted_turns List.pairwise_lt_range' fun i => sorted_broadcasts _ L _ bounded
    intro k k' hk e he e' he'
    rw [(mem_broadcasts he).1, (mem_broadcasts he').1]
    omega
  · rw [(mem_greets he).1]
    exact Nat.zero_le _

/-- Waits in a row. -/
theorem sorted_waits {r : ℕ → Reply MessageFormat} (hK : K.Pairwise (· < ·)) :
    (K.flatMap fun i => spins (2 * i + 1) (looks i) ++
      [(2 * i + 1, .got 0 (r i)), (2 * i + 1, .noted (line i))]).Pairwise (·.1 ≤ ·.1) := by
  apply sorted_turns hK fun i => sorted_of_eq fun e he => mem_wait he
  intro k k' hk e he e' he'
  rw [mem_wait he, mem_wait he']
  omega

/-! ### The output -/

theorem stdout_rounds (n : ℕ) (L : List ℕ) (failed : ℕ → ℕ) (bounded : Bool) :
    stdout (rounds n L failed bounded).events = spinners L failed := by
  rw [rounds, events_append, stdout_append, stdout_greets, stdout_turns]
  simp only [stdout_broadcasts]
  rw [List.flatMap_eq_nil_iff.mpr fun _ _ => rfl, List.append_nil]

theorem stdout_wait (t n : ℕ) (r : Reply MessageFormat) (x : String) :
    stdout (Script.events (spins t n ++ [(t, .got 0 r), (t, .noted (endl x))])) =
      spinner n ++ x.toList ++ ['\n'] := by
  have hevents : Script.events [(t, .got 0 r), (t, .noted (endl x))] =
      [(.got 0 r : Event ℕ MessageFormat String), .noted (endl x)] := rfl
  rw [events_append, stdout_append, stdout_spins, hevents, stdout_got, stdout_noted, stdout_nil,
    List.append_nil, toList_endl, List.append_assoc]

theorem stdout_heard (K : List ℕ) (looks : ℕ → ℕ) (line : ℕ → String) :
    stdout (heard K looks line).events = text (K.map fun i => spinner (looks i) ++ (line i).toList) := by
  rw [heard, stdout_turns, text, List.flatMap_map]
  exact List.flatMap_congr fun i _ => stdout_wait _ _ _ _

theorem stdout_missed (K : List ℕ) (looks : ℕ → ℕ) (line : ℕ → String) :
    stdout (missed K looks line).events = text (K.map fun i => spinner (looks i) ++ (line i).toList) := by
  rw [missed, stdout_turns, text, List.flatMap_map]
  exact List.flatMap_congr fun i _ => stdout_wait _ _ _ _

/-! ## The server -/

/-- The connections before the round `i`. -/
def connected (L : List ℕ) (i : ℕ) : Connections :=
  if i = 0 then fun _ => false else greeted (fun _ => false) L

/-- The first broadcast, or a later one. -/
def round (L : List ℕ) (failed : ℕ → ℕ) (bounded : Bool) (i : ℕ) : Script ℕ MessageFormat String :=
  if i = 0 then greets 0 L (message 0) failed else broadcasts (2 * i) L (message i) bounded

theorem rounds_eq (n : ℕ) (L : List ℕ) (failed : ℕ → ℕ) (bounded : Bool) :
    rounds n L failed bounded = (List.range (n + 1)).flatMap (round L failed bounded) := by
  rw [List.range_eq_range', List.range'_succ, List.flatMap_cons, rounds, round, if_pos rfl]
  congr 1
  apply List.flatMap_congr
  intro i hi
  have hne : i ≠ 0 := by
    obtain ⟨hle, -⟩ := List.mem_range'_1.mp hi
    omega
  rw [round, if_neg hne]

theorem follows_round (hL : L.Nodup) (failed : ℕ → ℕ) (timeoutMsec i : ℕ) :
    Follows (broadcastMsg failed (connected L i) L (message i) timeoutMsec)
      (round L failed (timeoutMsec != 0) i).events (.ret (connected L (i + 1))) := by
  have hnext : connected L (i + 1) = greeted (fun _ => false) L := if_neg (Nat.succ_ne_zero i)
  rw [hnext]
  unfold connected round
  split
  · next hi =>
    rw [hi]
    exact follows_greets hL (fun _ _ => rfl) 0 timeoutMsec
  · have hest : ∀ d ∈ L, greeted (fun _ => false) L d = true := by
      intro d hd
      simp [greeted, hd]
    have hbroadcast : Follows (broadcastMsg failed _ L (message i) timeoutMsec) _ _ :=
      follows_broadcastMsg hest (2 * i) timeoutMsec
    rwa [greeted_greeted] at hbroadcast

/-! ## All parties -/

def parties (N : ℕ) (S : Script ℕ MessageFormat String) (C : ℕ → Script ℕ MessageFormat String)
    (i : ℕ) : Script ℕ MessageFormat String :=
  if i < N then if i = 0 then S else C i else []

/-- The server only sends, to the clients, and these only receive, from the server. -/
structure Star (N : ℕ) (S : Script ℕ MessageFormat String)
    (C : ℕ → Script ℕ MessageFormat String) : Prop where
  sorted_server : S.Pairwise (·.1 ≤ ·.1)
  sorted_client : ∀ i, (C i).Pairwise (·.1 ≤ ·.1)
  takes_server : ∀ a, takes S a = []
  sents_client : ∀ i d, sents (C i) d = []
  takes_client : ∀ i a, a ≠ 0 → takes (C i) a = []
  sents_outside : ∀ d, ¬ (0 < d ∧ d < N) → sents S d = []
  chan : ∀ i, Chan none (sents S i) (takes (C i) 0) ∨ ¬ (0 < i ∧ i < N)
  late : ∀ i u, (u, .timedOut) ∈ takes (C i) 0 → ∀ e ∈ S, e.1 < u

section

variable {S : Script ℕ MessageFormat String} {C : ℕ → Script ℕ MessageFormat String}

theorem parties_zero (h : 0 < N) : parties N S C 0 = S := by rw [parties, if_pos h, if_pos rfl]

theorem parties_client (h : 0 < i) (hN : i < N) : parties N S C i = C i := by
  rw [parties, if_pos hN, if_neg h.ne']

theorem parties_outside (h : ¬ i < N) : parties N S C i = [] := if_neg h

/-- The server, a client, or none. -/
theorem place_cases (N i : ℕ) : (i = 0 ∧ 0 < N) ∨ (0 < i ∧ i < N) ∨ ¬ i < N := by omega

theorem chan_nil : Chan (none : Option (List MessageFormat)) [] [] :=
  .nil fun _ hx => absurd hx List.not_mem_nil

theorem Star.chan_parties (h : Star N S C) (a b : ℕ) :
    Chan none (sents (parties N S C a) b) (takes (parties N S C b) a) := by
  have hsents : ¬ (a = 0 ∧ 0 < b ∧ b < N) → sents (parties N S C a) b = [] := by
    intro hne
    rcases place_cases N a with ⟨rfl, hN⟩ | ⟨ha, haN⟩ | ha
    · rw [parties_zero hN]
      exact h.sents_outside b fun hb => hne ⟨rfl, hb⟩
    · rw [parties_client ha haN, h.sents_client]
    · rw [parties_outside ha, sents_nil]
  rcases place_cases N b with ⟨rfl, hN⟩ | ⟨hb, hbN⟩ | hb
  · rw [hsents fun hne => absurd hne.2.1 (Nat.lt_irrefl 0), parties_zero hN, h.takes_server]
    exact chan_nil
  · by_cases ha : a = 0
    · subst ha
      rw [parties_client hb hbN, parties_zero (Nat.zero_lt_of_lt hbN)]
      exact (h.chan b).resolve_right fun hne => hne ⟨hb, hbN⟩
    · rw [hsents fun hne => ha hne.1, parties_client hb hbN, h.takes_client b a ha]
      exact chan_nil
  · rw [hsents fun hne => hb hne.2.2, parties_outside hb, takes_nil]
    exact chan_nil

theorem Star.sorted_parties (h : Star N S C) (i : ℕ) : (parties N S C i).Pairwise (·.1 ≤ ·.1) := by
  rcases place_cases N i with ⟨rfl, hN⟩ | ⟨hi, hiN⟩ | hi
  · rw [parties_zero hN]
    exact h.sorted_server
  · rw [parties_client hi hiN]
    exact h.sorted_client i
  · rw [parties_outside hi]
    exact .nil

/-- Only a client waits in vain, and only for the server. -/
theorem Star.waits (h : Star N S C) {u a : ℕ} (hu : (u, .got a .timedOut) ∈ parties N S C i) :
    a = 0 ∧ 0 < N ∧ (u, .timedOut) ∈ takes (C i) 0 := by
  have hmem := mem_takes hu
  rcases place_cases N i with ⟨rfl, hN⟩ | ⟨hi, hiN⟩ | hi
  · rw [parties_zero hN, h.takes_server] at hmem
    cases hmem
  · rw [parties_client hi hiN] at hmem
    by_cases ha : a = 0
    · subst ha
      exact ⟨rfl, Nat.zero_lt_of_lt hiN, hmem⟩
    · rw [h.takes_client i a ha] at hmem
      cases hmem
  · rw [parties_outside hi] at hmem
    cases hmem

/-- **A server and its clients run by their scripts**, with the notes `A` after them, if a server that
is waited for in vain has none. -/
theorem Star.runs (h : Star N S C) {A : ℕ → List String} {T : ℕ} {prog : ℕ → Node Unit}
    (hT : ∀ i, ∀ e ∈ parties N S C i, e.1 < T)
    (hA : ∀ i u, (u, .timedOut) ∈ takes (C i) 0 → A 0 = []) (hout : ∀ i, ¬ i < N → A i = [])
    (hf : ∀ i, Follows (prog i) (framed (before N) A T (parties N S C) i).events (.ret ())) :
    Plan.Runs ⟨framed (before N) A T (parties N S C), fun _ => .ret (), fun _ _ => none⟩
      (Finset.range N) prog := by
  have hfits : Plan.Fits ⟨parties N S C, fun _ => (.ret () : Node Unit), fun _ _ => none⟩
      (fun _ _ => []) (parties N S C) := by
    refine ⟨h.sorted_parties, h.chan_parties, fun i u a hu => ⟨rfl, fun e he => ?_⟩⟩
    obtain ⟨rfl, hN, hmem⟩ := h.waits hu
    rw [show parties N S C 0 = S from parties_zero hN] at he
    exact h.late i u hmem e he
  have hrange : ∀ i, i ∉ Finset.range N → ¬ i < N := fun i hi h => hi (Finset.mem_range.mpr h)
  refine hfits.frame (fun _ _ => rfl) hT (fun i u a hu => ?_) (fun _ => rfl)
    (fun i hi => parties_outside (hrange i hi))
    (fun i hi => ⟨(frame_outside hi).1, hout i (hrange i hi)⟩) hf
  obtain ⟨rfl, -, hmem⟩ := h.waits hu
  exact hA i u hmem

end

end TestNets.Dropout

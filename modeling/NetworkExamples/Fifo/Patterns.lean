import NetworkExamples.Fifo.Phase

/-!
# Communication patterns

The phases (`Phase`) that protocols between the nodes `1, …, N` are made of.

* `chainDown`, `chainUp`: each node receives from its predecessor, then sends to its successor.
* `spread`: each node sends its message to a list of nodes, then receives from a list of nodes.
* `fromOne`, `gather`: the spreads from one node to others, and from others to one node.
* `exchange`: every node sends to and receives from each other node in turn.
-/

namespace Fifo

variable {M E : Type}

/-! ## One burst of messages -/

/-- The messages `l`, sent to `d` at time `t`. -/
def sendAll (t : ℕ) (d : ℕ) (l : List M) : Script ℕ M E := l.map fun x => (t, .sent d x false)

/-- The messages `l`, received from `a` at time `t`. -/
def recvAll (t : ℕ) (a : ℕ) (l : List M) : Script ℕ M E := l.map fun x => (t, .got a (.got x))

theorem sents_sendAll (t d d' : ℕ) (l : List M) :
    sents (sendAll t d l : Script ℕ M E) d' =
      if d = d' then l.map fun x => (t, x, false) else [] := by
  induction l with
  | nil => simp [sendAll]
  | cons x l ih =>
    simp only [sendAll, List.map_cons] at ih ⊢
    rw [sents_cons_sent, ih]
    split <;> simp

@[simp] theorem takes_sendAll (t d a : ℕ) (l : List M) :
    takes (sendAll t d l : Script ℕ M E) a = [] := by
  induction l with
  | nil => rfl
  | cons x l ih => exact ih

@[simp] theorem sents_recvAll (t a d : ℕ) (l : List M) :
    sents (recvAll t a l : Script ℕ M E) d = [] := by
  induction l with
  | nil => rfl
  | cons x l ih => exact ih

theorem takes_recvAll (t a a' : ℕ) (l : List M) :
    takes (recvAll t a l : Script ℕ M E) a' =
      if a = a' then l.map fun x => (t, .got x) else [] := by
  induction l with
  | nil => simp [recvAll]
  | cons x l ih =>
    simp only [recvAll, List.map_cons] at ih ⊢
    rw [takes_cons_got, ih]
    split <;> simp

theorem wire_map {t u : ℕ} (h : t < u) (l : List M) (b : Bool) :
    Wire (l.map fun x => (t, x, b)) (l.map fun x => (u, .got x)) := by
  induction l with
  | nil => exact .nil
  | cons x l ih => exact .cons ⟨h, rfl⟩ ih

theorem wire_one {t u : ℕ} (h : t < u) (x : M) (b : Bool) :
    Wire [(t, x, b)] [(u, .got x)] :=
  .cons ⟨h, rfl⟩ .nil

/-- A script in which every action has the time `t` or, later, the time `u`. -/
theorem sorted_two {t u : ℕ} {σ τ : Script ℕ M E} (hσ : ∀ e ∈ σ, e.1 = t) (hτ : ∀ e ∈ τ, e.1 = u)
    (h : t ≤ u) : (σ ++ τ).Pairwise (·.1 ≤ ·.1) := by
  refine List.pairwise_append.mpr ⟨?_, ?_, fun x hx y hy => by rw [hσ x hx, hτ y hy]; exact h⟩
  · exact List.pairwise_of_forall_mem_list fun x hx y hy => by rw [hσ x hx, hσ y hy]
  · exact List.pairwise_of_forall_mem_list fun x hx y hy => by rw [hτ x hx, hτ y hy]

/-! ## Chains -/

/-- Node `i` receives the messages `m (i - 1)` of its predecessor, then sends `m i` to its
successor. -/
def chainDown (N : ℕ) (m : ℕ → List M) (i : ℕ) : Script ℕ M E :=
  (if 1 < i ∧ i ≤ N then recvAll (2 * i) (i - 1) (m (i - 1)) else []) ++
    if 1 ≤ i ∧ i < N then sendAll (2 * i + 1) (i + 1) (m i) else []

/-- Node `i` receives the messages `m (i + 1)` of its successor, then sends `m i` to its
predecessor. -/
def chainUp (N : ℕ) (m : ℕ → List M) (i : ℕ) : Script ℕ M E :=
  (if 1 ≤ i ∧ i < N then recvAll (2 * (N - i)) (i + 1) (m (i + 1)) else []) ++
    if 1 < i ∧ i ≤ N then sendAll (2 * (N - i) + 1) (i - 1) (m i) else []

theorem time_recvAll {t a : ℕ} {l : List M} {e : ℕ × Event ℕ M E} (h : e ∈ recvAll t a l) :
    e.1 = t := by
  obtain ⟨x, -, rfl⟩ := List.mem_map.mp h; rfl

theorem time_sendAll {t d : ℕ} {l : List M} {e : ℕ × Event ℕ M E} (h : e ∈ sendAll t d l) :
    e.1 = t := by
  obtain ⟨x, -, rfl⟩ := List.mem_map.mp h; rfl

theorem mem_ite_nil {α : Type} {p : Prop} [Decidable p] {l : List α} {x : α}
    (h : x ∈ if p then l else []) : p ∧ x ∈ l := by
  split at h
  · next hp => exact ⟨hp, h⟩
  · cases h

theorem sents_ite (p : Prop) [Decidable p] (σ : Script ℕ M E) (d : ℕ) :
    sents (if p then σ else []) d = if p then sents σ d else [] := by
  split <;> rfl

theorem takes_ite (p : Prop) [Decidable p] (σ : Script ℕ M E) (a : ℕ) :
    takes (if p then σ else []) a = if p then takes σ a else [] := by
  split <;> rfl

theorem chainDown_phase (N : ℕ) (m : ℕ → List M) :
    Phase (chainDown N m : ℕ → Script ℕ M E) (2 * N + 2) := by
  refine ⟨fun i => ?_, fun i e he => ?_, fun a b => ?_⟩
  · exact sorted_two (fun e he => time_recvAll (mem_ite_nil he).2)
      (fun e he => time_sendAll (mem_ite_nil he).2) (Nat.le_succ _)
  · rcases List.mem_append.mp he with he | he
    · obtain ⟨hi, he⟩ := mem_ite_nil he
      rw [time_recvAll he]; omega
    · obtain ⟨hi, he⟩ := mem_ite_nil he
      rw [time_sendAll he]; omega
  · simp only [chainDown, sents_append, takes_append, sents_ite, takes_ite, sents_recvAll,
      takes_sendAll, sents_sendAll, takes_recvAll, ite_self, List.nil_append, List.append_nil]
    by_cases h : 1 ≤ a ∧ b = a + 1 ∧ b ≤ N
    · obtain ⟨h1, rfl, h2⟩ := h
      rw [if_pos (by omega), if_pos rfl, if_pos (by omega), if_pos (by omega)]
      exact wire_map (by omega) _ _
    · have hs : ¬ (1 ≤ a ∧ a < N ∧ a + 1 = b) := by omega
      have ht : ¬ (1 < b ∧ b ≤ N ∧ b - 1 = a) := by omega
      split_ifs <;> first | exact .nil | (exfalso; omega)

theorem chainUp_phase (N : ℕ) (m : ℕ → List M) :
    Phase (chainUp N m : ℕ → Script ℕ M E) (2 * N + 2) := by
  refine ⟨fun i => ?_, fun i e he => ?_, fun a b => ?_⟩
  · exact sorted_two (fun e he => time_recvAll (mem_ite_nil he).2)
      (fun e he => time_sendAll (mem_ite_nil he).2) (Nat.le_succ _)
  · rcases List.mem_append.mp he with he | he
    · rw [time_recvAll (mem_ite_nil he).2]; omega
    · rw [time_sendAll (mem_ite_nil he).2]; omega
  · simp only [chainUp, sents_append, takes_append, sents_ite, takes_ite, sents_recvAll,
      takes_sendAll, sents_sendAll, takes_recvAll, ite_self, List.nil_append, List.append_nil]
    by_cases h : 1 ≤ b ∧ a = b + 1 ∧ a ≤ N
    · obtain ⟨h1, rfl, h2⟩ := h
      rw [if_pos (by omega), if_pos (by omega), if_pos (by omega), if_pos rfl]
      exact wire_map (by omega) _ _
    · split_ifs <;> first | exact .nil | (exfalso; omega)

section

variable {N i : ℕ} (m : ℕ → List M)

theorem events_chainDown_first (h : 1 < N) :
    (chainDown N m 1 : Script ℕ M E).events = (m 1).map fun x => .sent 2 x false := by
  simp [chainDown, sendAll, h]

theorem events_chainDown_mid (h1 : 1 < i) (h2 : i < N) :
    (chainDown N m i : Script ℕ M E).events =
      ((m (i - 1)).map fun x => .got (i - 1) (.got x)) ++ (m i).map fun x => .sent (i + 1) x false := by
  simp [chainDown, sendAll, recvAll, h1, h1.le, h2, h2.le, Function.comp_def]

theorem events_chainDown_last (h : 1 < N) :
    (chainDown N m N : Script ℕ M E).events = (m (N - 1)).map fun x => .got (N - 1) (.got x) := by
  simp [chainDown, recvAll, h]

@[simp] theorem notes_chainDown : notes (chainDown N m i : Script ℕ M E) = [] := by
  refine notes_eq_nil fun e he x hx => ?_
  rcases List.mem_append.mp he with he | he
  · obtain ⟨y, -, rfl⟩ := List.mem_map.mp (mem_ite_nil he).2; cases hx
  · obtain ⟨y, -, rfl⟩ := List.mem_map.mp (mem_ite_nil he).2; cases hx

theorem chainDown_outside (h : ¬ (1 ≤ i ∧ i ≤ N)) : (chainDown N m i : Script ℕ M E) = [] := by
  rw [chainDown, if_neg (by omega), if_neg (by omega)]; rfl

theorem events_chainUp_first (h : 1 < N) :
    (chainUp N m 1 : Script ℕ M E).events = (m 2).map fun x => .got 2 (.got x) := by
  simp [chainUp, recvAll, h]

theorem events_chainUp_mid (h1 : 1 < i) (h2 : i < N) :
    (chainUp N m i : Script ℕ M E).events =
      ((m (i + 1)).map fun x => .got (i + 1) (.got x)) ++ (m i).map fun x => .sent (i - 1) x false := by
  simp [chainUp, sendAll, recvAll, h1, h1.le, h2, h2.le, Function.comp_def]

theorem events_chainUp_last (h : 1 < N) :
    (chainUp N m N : Script ℕ M E).events = (m N).map fun x => .sent (N - 1) x false := by
  simp [chainUp, sendAll, h]

@[simp] theorem notes_chainUp : notes (chainUp N m i : Script ℕ M E) = [] := by
  refine notes_eq_nil fun e he x hx => ?_
  rcases List.mem_append.mp he with he | he
  · obtain ⟨y, -, rfl⟩ := List.mem_map.mp (mem_ite_nil he).2; cases hx
  · obtain ⟨y, -, rfl⟩ := List.mem_map.mp (mem_ite_nil he).2; cases hx

theorem chainUp_outside (h : ¬ (1 ≤ i ∧ i ≤ N)) : (chainUp N m i : Script ℕ M E) = [] := by
  rw [chainUp, if_neg (by omega), if_neg (by omega)]; rfl

end

/-! ## Spreads -/

/-- Node `i` sends its message `m i` to the nodes `out i`, then receives from the nodes `inn i`. -/
def spread (out inn : ℕ → List ℕ) (m : ℕ → M) (b : Bool) (i : ℕ) : Script ℕ M E :=
  ((out i).map fun d => (0, .sent d (m i) b)) ++ (inn i).map fun a => (1, .got a (.got (m a)))

theorem sents_map {L : List ℕ} (hL : L.Nodup) (t : ℕ) (m : M) (b : Bool) (d : ℕ) :
    sents (L.map fun d => (t, .sent d m b) : Script ℕ M E) d = if d ∈ L then [(t, m, b)] else [] := by
  rw [List.map_eq_flatMap, sents_flatMap hL fun j _ hj => by simp [hj]]
  simp

@[simp] theorem takes_map_sent (L : List ℕ) (t : ℕ) (m : M) (b : Bool) (a : ℕ) :
    takes (L.map fun d => (t, .sent d m b) : Script ℕ M E) a = [] := by
  rw [List.map_eq_flatMap]
  exact takes_flatMap_nil fun j _ => by simp

theorem takes_map_reply {L : List ℕ} (hL : L.Nodup) (t : ℕ) (r : ℕ → Reply M) (a : ℕ) :
    takes (L.map fun a => (t, .got a (r a)) : Script ℕ M E) a =
      if a ∈ L then [(t, r a)] else [] := by
  rw [List.map_eq_flatMap, takes_flatMap hL fun j _ hj => by simp [hj]]
  simp

@[simp] theorem sents_map_got (L : List ℕ) (t : ℕ) (r : ℕ → Reply M) (d : ℕ) :
    sents (L.map fun a => (t, .got a (r a)) : Script ℕ M E) d = [] := by
  rw [List.map_eq_flatMap]
  exact sents_flatMap_nil fun j _ => by simp

theorem spread_sents {out inn : ℕ → List ℕ} (m : ℕ → M) (b : Bool) {a d : ℕ}
    (h : (out a).Nodup) :
    sents (spread out inn m b a : Script ℕ M E) d = if d ∈ out a then [(0, m a, b)] else [] := by
  rw [spread, sents_append, sents_map h, sents_map_got, List.append_nil]

theorem spread_takes {out inn : ℕ → List ℕ} (m : ℕ → M) (b : Bool) {a d : ℕ}
    (h : (inn d).Nodup) :
    takes (spread out inn m b d : Script ℕ M E) a = if a ∈ inn d then [(1, .got (m a))] else [] := by
  rw [spread, takes_append, takes_map_reply h 1 fun a => .got (m a), takes_map_sent, List.nil_append]

theorem spread_sorted (out inn : ℕ → List ℕ) (m : ℕ → M) (b : Bool) (i : ℕ) :
    (spread out inn m b i : Script ℕ M E).Pairwise (·.1 ≤ ·.1) := by
  refine sorted_two (t := 0) (u := 1) (fun e he => ?_) (fun e he => ?_) (Nat.zero_le _)
  · obtain ⟨x, -, rfl⟩ := List.mem_map.mp he; rfl
  · obtain ⟨x, -, rfl⟩ := List.mem_map.mp he; rfl

theorem spread_phase {out inn : ℕ → List ℕ} (m : ℕ → M) (b : Bool) (hout : ∀ i, (out i).Nodup)
    (hinn : ∀ i, (inn i).Nodup) (h : ∀ i j, j ∈ out i ↔ i ∈ inn j) :
    Phase (spread out inn m b : ℕ → Script ℕ M E) 2 := by
  refine ⟨spread_sorted out inn m b, fun i e he => ?_, fun a d => ?_⟩
  · rcases List.mem_append.mp he with he | he
    · obtain ⟨x, -, rfl⟩ := List.mem_map.mp he; exact Nat.zero_lt_two
    · obtain ⟨x, -, rfl⟩ := List.mem_map.mp he; exact Nat.one_lt_two
  · rw [spread_sents m b (hout a), spread_takes m b (hinn d), if_congr (h a d) rfl rfl]
    split
    · exact wire_one Nat.zero_lt_one _ _
    · exact .nil

@[simp] theorem notes_spread (out inn : ℕ → List ℕ) (m : ℕ → M) (b : Bool) (i : ℕ) :
    notes (spread out inn m b i : Script ℕ M E) = [] := by
  refine notes_eq_nil fun e he x hx => ?_
  rcases List.mem_append.mp he with he | he
  · obtain ⟨y, -, rfl⟩ := List.mem_map.mp he; cases hx
  · obtain ⟨y, -, rfl⟩ := List.mem_map.mp he; cases hx

/-- Node `c` sends `m` to the nodes `L`. -/
def fromOne (c : ℕ) (L : List ℕ) (m : M) (b : Bool) : ℕ → Script ℕ M E :=
  spread (fun i => if i = c then L else []) (fun i => if i ∈ L then [c] else []) (fun _ => m) b

@[simp] theorem notes_fromOne (c : ℕ) (L : List ℕ) (m : M) (b : Bool) (i : ℕ) :
    notes (fromOne c L m b i : Script ℕ M E) = [] := notes_spread _ _ _ _ _

theorem fromOne_phase (c : ℕ) {L : List ℕ} (hL : L.Nodup) (m : M) (b : Bool) :
    Phase (fromOne c L m b : ℕ → Script ℕ M E) 2 := by
  refine spread_phase _ b (fun i => ?_) (fun i => ?_) fun i j => ?_
  · split <;> simp [hL]
  · split <;> simp
  · split <;> split <;> simp_all

section

variable {c i : ℕ} {L : List ℕ} (b : Bool)

theorem events_fromOne_root (h : c ∉ L) (m : M) :
    (fromOne c L m b c : Script ℕ M E).events = L.map fun d => .sent d m b := by
  simp [fromOne, spread, h, Function.comp_def]

theorem events_fromOne_leaf (h : i ∈ L) (hc : i ≠ c) (m : M) :
    (fromOne c L m b i : Script ℕ M E).events = [.got c (.got m)] := by
  simp [fromOne, spread, h, hc]

theorem fromOne_outside (h : i ∉ L) (hc : i ≠ c) (m : M) :
    (fromOne c L m b i : Script ℕ M E) = [] := by
  simp [fromOne, spread, h, hc]

end

/-- The nodes `L` send to node `c`, which receives from them in the order of `L`. -/
def gather (c : ℕ) (L : List ℕ) (m : ℕ → M) (b : Bool) : ℕ → Script ℕ M E :=
  spread (fun i => if i ∈ L then [c] else []) (fun i => if i = c then L else []) m b

@[simp] theorem notes_gather (c : ℕ) (L : List ℕ) (m : ℕ → M) (b : Bool) (i : ℕ) :
    notes (gather c L m b i : Script ℕ M E) = [] := notes_spread _ _ _ _ _

theorem gather_phase (c : ℕ) {L : List ℕ} (hL : L.Nodup) (m : ℕ → M) (b : Bool) :
    Phase (gather c L m b : ℕ → Script ℕ M E) 2 := by
  refine spread_phase _ b (fun i => ?_) (fun i => ?_) fun i j => ?_
  · split <;> simp
  · split <;> simp [hL]
  · split <;> split <;> simp_all

section

variable {c i : ℕ} {L : List ℕ} (m : ℕ → M) (b : Bool)

theorem events_gather_root (h : c ∉ L) :
    (gather c L m b c : Script ℕ M E).events = L.map fun a => .got a (.got (m a)) := by
  simp [gather, spread, h, Function.comp_def]

theorem events_gather_leaf (h : i ∈ L) (hc : i ≠ c) :
    (gather c L m b i : Script ℕ M E).events = [.sent c (m i) b] := by
  simp [gather, spread, h, hc]

theorem gather_outside (h : i ∉ L) (hc : i ≠ c) : (gather c L m b i : Script ℕ M E) = [] := by
  simp [gather, spread, h, hc]

end

/-! ## Pairwise exchange -/

/-- The nodes `1, …, N` without `i`, in order. -/
def others (N i : ℕ) : List ℕ := (List.range' 1 N).filter (· ≠ i)

theorem mem_others {N i j : ℕ} : j ∈ others N i ↔ 1 ≤ j ∧ j ≤ N ∧ j ≠ i := by
  simp only [others, List.mem_filter, List.mem_range'_1, decide_eq_true_eq]
  omega

theorem nodup_others (N i : ℕ) : (others N i).Nodup := (List.nodup_range' 1).filter _

/-- A loop over all nodes that skips node `i`. -/
theorem others_map {α : Type} (N i : ℕ) (f : ℕ → α) :
    (others N i).map f = (List.range' 1 N).flatMap fun j => if i ≠ j then [f j] else [] := by
  unfold others
  induction List.range' 1 N with
  | nil => rfl
  | cons j L ih =>
    by_cases h : i = j
    · subst h; simpa using ih
    · simpa [h, Ne.symm h] using ih

/-- Node `i` sends `m i j` to each other node `j` in turn, and receives `m j i` before the next. -/
def exchange (N : ℕ) (m : ℕ → ℕ → M) (i : ℕ) : Script ℕ M E :=
  if 1 ≤ i ∧ i ≤ N then
    (others N i).flatMap fun j =>
      [(2 * (i + j), .sent j (m i j) false), (2 * (i + j) + 1, .got j (.got (m j i)))]
  else []

theorem exchange_phase (N : ℕ) (m : ℕ → ℕ → M) : Phase (exchange N m : ℕ → Script ℕ M E) (4 * N + 2) := by
  refine ⟨fun i => ?_, fun i e he => ?_, fun a b => ?_⟩
  · unfold exchange
    split
    · refine List.pairwise_flatMap.mpr ⟨fun j _ => by simp, ?_⟩
      refine ((List.pairwise_lt_range' (s := 1) (n := N)).filter (· ≠ i)).imp ?_
      intro j k hjk x hx y hy
      simp only [List.mem_cons, List.not_mem_nil, or_false] at hx hy
      rcases hx with rfl | rfl <;> rcases hy with rfl | rfl <;> simp only <;> omega
    · exact .nil
  · obtain ⟨hi, he⟩ := mem_ite_nil he
    obtain ⟨j, hj, he⟩ := List.mem_flatMap.mp he
    have := mem_others.mp hj
    simp only [List.mem_cons, List.not_mem_nil, or_false] at he
    rcases he with rfl | rfl <;> simp only <;> omega
  · rw [exchange, exchange, sents_ite, takes_ite,
      sents_flatMap (nodup_others N a) fun j _ hj => by simp [hj],
      takes_flatMap (nodup_others N b) fun j _ hj => by simp [hj]]
    by_cases h : 1 ≤ a ∧ a ≤ N ∧ 1 ≤ b ∧ b ≤ N ∧ a ≠ b
    · rw [if_pos (by omega), if_pos (mem_others.mpr (by omega)), if_pos (by omega),
        if_pos (mem_others.mpr (by omega))]
      simpa using wire_one (t := 2 * (a + b)) (u := 2 * (b + a) + 1) (by omega) (m a b) false
    · simp only [mem_others]
      split_ifs <;> first | exact .nil | (exfalso; omega)

@[simp] theorem notes_exchange (N : ℕ) (m : ℕ → ℕ → M) (i : ℕ) :
    notes (exchange N m i : Script ℕ M E) = [] := by
  refine notes_eq_nil fun e he x hx => ?_
  obtain ⟨j, -, he⟩ := List.mem_flatMap.mp (mem_ite_nil he).2
  simp only [List.mem_cons, List.not_mem_nil, or_false] at he
  rcases he with rfl | rfl <;> cases hx

/-! ## One message -/

/-- Process `a` sends `m` to `b` before the scripts `σ`, and `b` receives it after them. -/
def around (a b : ℕ) (m : M) (T : ℕ) (σ : ℕ → Script ℕ M E) (i : ℕ) : Script ℕ M E :=
  (if i = a then [(0, .sent b m false)] else []) ++
    shift 1 (σ i ++ shift T (if i = b then [(0, .got a (.got m))] else []))

theorem events_around (a b : ℕ) (m : M) (T : ℕ) (σ : ℕ → Script ℕ M E) (i : ℕ) :
    (around a b m T σ i).events = (if i = a then [.sent b m false] else []) ++
      ((σ i).events ++ if i = b then [.got a (.got m)] else []) := by
  unfold around
  rw [Script.events, List.map_append]
  congr 1
  · split <;> rfl
  · rw [← Script.events, events_shift, Script.events, List.map_append]
    congr 1
    rw [← Script.events, events_shift]
    split <;> rfl

/-- Nothing else is on the way from `a` to `b` in the meantime. -/
theorem around_phase {a b : ℕ} (m : M) {T : ℕ} {σ : ℕ → Script ℕ M E} (h : Phase σ T)
    (hab : sents (σ a) b = []) : Phase (around a b m T σ) (1 + (T + 1)) := by
  have hgot : ∀ i, ∀ e ∈ (if i = b then [(0, .got a (.got m))] else [] : Script ℕ M E),
      e.1 = 0 := fun i e he => by
    rw [List.mem_singleton.mp (mem_ite_nil he).2]
  refine ⟨fun i => ?_, fun i e he => ?_, fun c d => ?_⟩
  · refine List.pairwise_append.mpr ⟨?_, sorted_shift (h.sorted_append ?_), fun x hx y hy => ?_⟩
    · split <;> simp
    · split <;> simp
    · rw [List.mem_singleton.mp (mem_ite_nil hx).2]
      exact Nat.zero_le _
  · rcases List.mem_append.mp he with he | he
    · rw [List.mem_singleton.mp (mem_ite_nil he).2]
      omega
    · obtain ⟨t, ht, he⟩ := mem_shift.mp he
      rcases List.mem_append.mp ht with ht | ht
      · have := h.bound i _ ht
        simp only at this
        omega
      · obtain ⟨u, hu, ht⟩ := mem_shift.mp ht
        have := hgot i _ hu
        simp only at this ht
        omega
  · have hw := (h.wire c d).shift 1
    simp only [around, sents_append, takes_append, sents_shift, takes_shift, sents_ite, takes_ite,
      sents_cons_sent, sents_cons_got, takes_cons_sent, takes_cons_got, sents_nil, takes_nil,
      ite_self, List.map_append, List.nil_append, List.map_nil, List.append_nil]
    by_cases hcd : c = a ∧ d = b
    · obtain ⟨rfl, rfl⟩ := hcd
      have ht : takes (σ d) c = [] := by
        have hwire := h.wire c d
        rw [hab] at hwire
        exact List.forall₂_nil_left_iff.mp hwire
      simp only [hab, ht, if_true, List.map_nil, List.map_cons, List.nil_append, List.append_nil]
      exact .cons ⟨by omega, rfl⟩ .nil
    · have hs : (if c = a then (if b = d then [(0, m, false)] else []) else []) = [] := by
        split_ifs <;> first | rfl | (exfalso; omega)
      have ht : (if d = b then (if a = c then [((0 : ℕ), Reply.got m)] else []) else []) = [] := by
        split_ifs <;> first | rfl | (exfalso; omega)
      rw [hs, ht]
      simpa using hw

/-- Process `c` sends `m` to `d`, which receives it in another place or not at all. -/
def sendOne (c d : ℕ) (m : M) (i : ℕ) : Script ℕ M E :=
  if i = c then [(0, .sent d m false)] else []

theorem sendOne_open {B : ℕ → Prop} {c d : ℕ} (hd : B d) (m : M) :
    OpenPhase B (sendOne c d m : ℕ → Script ℕ M E) 1 := by
  refine ⟨fun i => ?_, fun i e he => ?_, fun a b hb => ?_, fun a b _ => ?_⟩
  · unfold sendOne; split <;> simp
  · rw [List.mem_singleton.mp (mem_ite_nil he).2]
    exact Nat.zero_lt_one
  · have hdb : d ≠ b := fun h => hb (h ▸ hd)
    unfold sendOne
    rw [sents_ite, takes_ite]
    simp [hdb]
  · unfold sendOne
    rw [takes_ite]
    simp

end Fifo

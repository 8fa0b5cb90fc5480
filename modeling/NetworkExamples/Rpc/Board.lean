import NetworkExamples.Rpc.Schedule
import Mathlib.Algebra.BigOperators.Group.Finset.Basic
import Mathlib.Algebra.Order.BigOperators.Group.Finset

/-!
# Clients of a board

A **board** is a server with one entry for each slot, and clients that upload entries and poll for
those of the others. A call of the server is one step; between the steps of a client the others go
on in any order. A poll for an entry that is not ready changes nothing, and the client polls again; a
query asks once.

A client may use what it has polled for what it uploads. If for one value `spec s` of each slot
every client uploads `spec s` as long as all that it gets are those values, and asks once only for
what it has had or uploaded before (`Promises`), then no poll ever returns anything else (`Promised.polled`), in whatever order the clients act. If in addition
the slots can be ranked such that every client uploads only what ranks higher than all it has polled
before (`Ordered`), no run gets stuck (`Promised.completes`).
-/

namespace Rpc

open Schedule

variable {ι Slot E α β γ : Type} {Val : Slot → Type}

/-- The program of a client; `E` is the type of its ghost notes. -/
inductive Client (Slot : Type) (Val : Slot → Type) (E α : Type) where
  | ret (a : α)
  | throw (e : String)
  | note (x : E) (k : Client Slot Val E α)
  | upload (s : Slot) (v : Val s) (k : Client Slot Val E α)
  /-- Poll until the entry is ready. -/
  | poll (s : Slot) (k : Val s → Client Slot Val E α)
  /-- Ask once. -/
  | query (s : Slot) (k : Option (Val s) → Client Slot Val E α)

namespace Client

def bind : Client Slot Val E α → (α → Client Slot Val E β) → Client Slot Val E β
  | ret a, f => f a
  | throw e, _ => throw e
  | note x k, f => note x (k.bind f)
  | upload s v k, f => upload s v (k.bind f)
  | poll s k, f => poll s fun v => (k v).bind f
  | query s k, f => query s fun v => (k v).bind f

instance : Monad (Client Slot Val E) where
  pure := ret
  bind := bind

theorem bind_ret (p : Client Slot Val E α) : p.bind ret = p := by
  induction p with
  | ret | throw => rfl
  | note x k ih => simp [bind, ih]
  | upload s v k ih => simp [bind, ih]
  | poll s k ih => simp [bind, ih]
  | query s k ih => simp [bind, ih]

theorem bind_assoc (p : Client Slot Val E α) (f : α → Client Slot Val E β)
    (g : β → Client Slot Val E γ) : (p.bind f).bind g = p.bind fun a => (f a).bind g := by
  induction p with
  | ret | throw => rfl
  | note x k ih => simp [bind, ih]
  | upload s v k ih => simp [bind, ih]
  | poll s k ih => simp [bind, ih]
  | query s k ih => simp [bind, ih]

instance : LawfulMonad (Client Slot Val E) :=
  LawfulMonad.mk' _ bind_ret (fun _ _ => rfl) bind_assoc

/-- The same program on a board with more slots. -/
def onLeft {Slot' : Type} {Val' : Slot' → Type} :
    Client Slot Val E α → Client (Slot ⊕ Slot') (Sum.elim Val Val') E α
  | ret a => ret a
  | throw e => throw e
  | note x k => note x k.onLeft
  | upload s v k => upload (.inl s) v k.onLeft
  | poll s k => poll (.inl s) fun v => (k v).onLeft
  | query s k => query (.inl s) fun v => (k v).onLeft

end Client

/-- The entries of the server. -/
structure Board (Slot : Type) (Val : Slot → Type) where
  keys : ∀ s, Option (Val s)
  ready : Slot → Bool

namespace Board

variable (b : Board Slot Val)

def empty : Board Slot Val := ⟨fun _ => none, fun _ => false⟩

/-- The handler of an upload. -/
def fromClient [DecidableEq Slot] (s : Slot) (v : Val s) : Board Slot Val where
  keys := Function.update b.keys s (some v)
  ready := Function.update b.ready s true

/-- The handler of a poll: whether the entry is available, and the entry. -/
def toClient (s : Slot) : Bool × Option (Val s) :=
  if b.ready s then (true, b.keys s) else (false, none)

/-- What was ready stays ready, and `s` becomes so. -/
theorem ready_fromClient [DecidableEq Slot] (s s' : Slot) (v : Val s) :
    (b.fromClient s v).ready s' = true ↔ s' = s ∨ b.ready s' = true := by
  unfold fromClient
  by_cases hs : s' = s
  · subst hs
    simp
  · simp [hs]

end Board

/-- The server and its clients, and what each client has noted. -/
structure System (ι Slot : Type) (Val : Slot → Type) (E α : Type) where
  board : Board Slot Val
  client : ι → Client Slot Val E α
  hist : ι → List E

namespace System

def init (p : ι → Client Slot Val E α) : System ι Slot Val E α := ⟨.empty, p, fun _ => []⟩

variable [DecidableEq ι]

/-- Client `i` goes on with `k`. -/
def goOn (σ : System ι Slot Val E α) (i : ι) (k : Client Slot Val E α) : System ι Slot Val E α :=
  { σ with client := Function.update σ.client i k }

variable [DecidableEq Slot]

/-- The next step of client `i`. -/
def step (σ : System ι Slot Val E α) (i : ι) : System ι Slot Val E α :=
  match σ.client i with
  | .ret _ | .throw _ => σ
  | .note x k => { σ.goOn i k with hist := Function.update σ.hist i (σ.hist i ++ [x]) }
  | .upload s v k => { σ.goOn i k with board := σ.board.fromClient s v }
  | .poll s k =>
    match σ.board.toClient s with
    | (true, some v) => σ.goOn i (k v)
    | (true, none) => σ.goOn i (.throw "Received empty serialized")
    | (false, _) => σ
  | .query s k => σ.goOn i (k (σ.board.toClient s).2)

/-- The states of the runs. -/
abbrev Runs (σ σ' : System ι Slot Val E α) : Prop := Reach step (fun _ _ => True) σ σ'

end System

/-! ## Promises -/

namespace Client

variable (spec : ∀ s, Val s) {P : E → Prop} {Q Q' : Set Slot → α → Prop}
  {R : Set Slot → β → Prop} {K : Set Slot}

/-- **As long as it gets only `spec`, the client uploads only `spec`**; it notes what satisfies
`P`, throws nothing, and returns what satisfies `Q`. `K` are the slots that it knows to be ready. -/
def Promises (P : E → Prop) (Q : Set Slot → α → Prop) (K : Set Slot) :
    Client Slot Val E α → Prop
  | ret a => Q K a
  | throw _ => False
  | note x k => P x ∧ k.Promises P Q K
  | upload s v k => v = spec s ∧ k.Promises P Q (insert s K)
  | poll s k => (k (spec s)).Promises P Q (insert s K)
  | query s k => s ∈ K ∧ (k (some (spec s))).Promises P Q K

variable {spec}

theorem Promises.bind {p : Client Slot Val E α} {f : α → Client Slot Val E β}
    (h : p.Promises spec P Q K) (hf : ∀ K' a, Q K' a → (f a).Promises spec P R K') :
    (p >>= f).Promises spec P R K := by
  induction p generalizing K with
  | ret a => exact hf K a h
  | throw e => exact h
  | note x k ih => exact ⟨h.1, ih h.2⟩
  | upload s v k ih => exact ⟨h.1, ih h.2⟩
  | poll s k ih => exact ih _ h
  | query s k ih => exact ⟨h.1, ih _ h.2⟩

/-- A client forgets nothing. -/
theorem Promises.imp {p : Client Slot Val E α} (h : p.Promises spec P Q K)
    (hQ : ∀ K' a, K ⊆ K' → Q K' a → Q' K' a) : p.Promises spec P Q' K := by
  induction p generalizing K with
  | ret a => exact hQ K a subset_rfl h
  | throw e => exact h
  | note x k ih => exact ⟨h.1, ih h.2 hQ⟩
  | upload s v k ih =>
    exact ⟨h.1, ih h.2 fun K' a hK => hQ K' a ((Set.subset_insert s K).trans hK)⟩
  | poll s k ih => exact ih _ h fun K' a hK => hQ K' a ((Set.subset_insert s K).trans hK)
  | query s k ih => exact ⟨h.1, ih _ h.2 hQ⟩

variable (spec)

/-- The client will upload the slot `s`. -/
def Uploads (s : Slot) : Client Slot Val E α → Prop
  | ret _ | throw _ => False
  | note _ k => k.Uploads s
  | upload s' _ k => s = s' ∨ k.Uploads s
  | poll s' k => (k (spec s')).Uploads s
  | query s' k => (k (some (spec s'))).Uploads s

/-- **The client uploads only what ranks higher than all it has polled before**, and `t`; it polls
only slots of `U`, and none that ranks higher than `t'`. -/
def Ordered (U : Slot → Prop) (rank : Slot → ℕ) (t t' : ℕ) : Client Slot Val E α → Prop
  | ret _ | throw _ => t ≤ t'
  | note _ k => k.Ordered U rank t t'
  | upload s _ k => t < rank s ∧ k.Ordered U rank t t'
  | poll s k => U s ∧ (k (spec s)).Ordered U rank (max t (rank s)) t'
  | query s k => (k (some (spec s))).Ordered U rank t t'

/-- The number of the client's steps. -/
def size : Client Slot Val E α → ℕ
  | ret _ | throw _ => 0
  | note _ k => k.size + 1
  | upload _ _ k => k.size + 1
  | poll s k => (k (spec s)).size + 1
  | query s k => (k (some (spec s))).size + 1

variable {spec} {U : Slot → Prop} {rank : Slot → ℕ} {t t' t'' : ℕ}

theorem Ordered.mono {p : Client Slot Val E α} (h : p.Ordered spec U rank t t'') (ht : t' ≤ t) :
    p.Ordered spec U rank t' t'' := by
  induction p generalizing t t' with
  | ret | throw => exact ht.trans h
  | note x k ih => exact ih h ht
  | upload s v k ih => exact ⟨lt_of_le_of_lt ht h.1, ih h.2 ht⟩
  | poll s k ih => exact ⟨h.1, ih _ h.2 (max_le_max_right _ ht)⟩
  | query s k ih => exact ih _ h ht

theorem Ordered.imp {U' : Slot → Prop} {p : Client Slot Val E α}
    (h : p.Ordered spec U rank t t') (hU : ∀ s, U s → U' s) : p.Ordered spec U' rank t t' := by
  induction p generalizing t with
  | ret | throw => exact h
  | note x k ih => exact ih h
  | upload s v k ih => exact ⟨h.1, ih h.2⟩
  | poll s k ih => exact ⟨hU s h.1, ih _ h.2⟩
  | query s k ih => exact ih _ h

theorem Ordered.ret (a : α) (h : t ≤ t') :
    (.ret a : Client Slot Val E α).Ordered spec U rank t t' := h

theorem Ordered.upload {s : Slot} {v : Val s} {k : Client Slot Val E α} (hs : t < rank s)
    (h : k.Ordered spec U rank t t') : (upload s v k).Ordered spec U rank t t' := ⟨hs, h⟩

theorem Ordered.poll {s : Slot} {k : Val s → Client Slot Val E α} (hU : U s) (hs : t ≤ rank s)
    (h : (k (spec s)).Ordered spec U rank (rank s) t') : (poll s k).Ordered spec U rank t t' :=
  ⟨hU, by rwa [max_eq_right hs]⟩

theorem Ordered.bind {p : Client Slot Val E α} {f : α → Client Slot Val E β}
    (h : p.Ordered spec U rank t t') (hp : p.Promises spec P Q K)
    (hf : ∀ K' a, Q K' a → (f a).Ordered spec U rank t' t'') :
    (p >>= f).Ordered spec U rank t t'' := by
  induction p generalizing t K with
  | ret a => exact (hf K a hp).mono h
  | throw e => exact hp.elim
  | note x k ih => exact ih h hp.2
  | upload s v k ih => exact ⟨h.1, ih h.2 hp.2⟩
  | poll s k ih => exact ⟨h.1, ih _ h.2 hp⟩
  | query s k ih => exact ih _ h hp.2

/-- After `p` the client uploads what it uploads in the rest. -/
theorem uploads_bind {p : Client Slot Val E α} {f : α → Client Slot Val E β} {s : Slot}
    (hp : p.Promises spec P Q K) (hf : ∀ K' a, Q K' a → (f a).Uploads spec s) :
    (p >>= f).Uploads spec s := by
  induction p generalizing K with
  | ret a => exact hf K a hp
  | throw e => exact hp.elim
  | note x k ih => exact ih hp.2
  | upload s' v k ih => exact .inr (ih hp.2)
  | poll s' k ih => exact ih _ hp
  | query s' k ih => exact ih _ hp.2

theorem Uploads.bind {p : Client Slot Val E α} {s : Slot} (h : p.Uploads spec s)
    (f : α → Client Slot Val E β) : (p >>= f).Uploads spec s := by
  induction p with
  | ret | throw => exact h.elim
  | note x k ih => exact ih h
  | upload s' v k ih => exact h.imp_right ih
  | poll s' k ih => exact ih _ h
  | query s' k ih => exact ih _ h

theorem Ordered.lt_rank {s : Slot} {p : Client Slot Val E α} (h : p.Ordered spec U rank t t')
    (hs : p.Uploads spec s) : t < rank s := by
  induction p generalizing t with
  | ret | throw => exact hs.elim
  | note x k ih => exact ih h hs
  | upload s' v k ih =>
    rcases hs with rfl | hs
    · exact h.1
    · exact ih h.2 hs
  | poll s' k ih => exact lt_of_le_of_lt (le_max_left _ _) (ih _ h.2 hs)
  | query s' k ih => exact ih _ h hs

/-! ### Loops -/

/-- A loop whose every turn returns the value of `g`. -/
theorem Promises.mapM {f : γ → Client Slot Val E α} {g : γ → α} {l : List γ}
    (hf : ∀ x ∈ l, ∀ K, (f x).Promises spec P (fun _ a => a = g x) K) :
    (l.mapM f).Promises spec P (fun _ as => as = l.map g) K := by
  induction l generalizing K with
  | nil => exact rfl
  | cons x l ih =>
    rw [List.mapM_cons]
    refine (hf x List.mem_cons_self K).bind ?_
    rintro K' _ rfl
    refine (ih fun y hy => hf y (List.mem_cons_of_mem x hy)).bind ?_
    rintro K'' _ rfl
    rfl

/-- A loop whose turns poll slots of one rank. -/
theorem Ordered.mapM {f : γ → Client Slot Val E α} {g : γ → α} {l : List γ} (ht : t ≤ t')
    (hp : ∀ x ∈ l, ∀ K, (f x).Promises spec P (fun _ a => a = g x) K)
    (hf : ∀ x ∈ l, (f x).Ordered spec U rank t' t') : (l.mapM f).Ordered spec U rank t t' := by
  induction l generalizing t with
  | nil => exact ht
  | cons x l ih =>
    rw [List.mapM_cons]
    have hl : ∀ y ∈ l, y ∈ x :: l := fun y hy => List.mem_cons_of_mem x hy
    have hpl : ∀ y ∈ l, ∀ K, (f y).Promises spec P (fun _ a => a = g y) K :=
      fun y hy => hp y (hl y hy)
    refine ((hf x List.mem_cons_self).mono ht).bind (hp x List.mem_cons_self ∅) fun _ _ _ => ?_
    exact (ih le_rfl hpl fun y hy => hf y (hl y hy)).bind (Promises.mapM (K := ∅) hpl)
      fun _ _ _ => .ret _ le_rfl

/-! ### More slots -/

section More

variable {Slot' : Type} {Val' : Slot' → Type} {spec' : ∀ s, Val' s} {K : Set (Slot ⊕ Slot')}
  {U' : Slot ⊕ Slot' → Prop} {rank' : Slot ⊕ Slot' → ℕ}

variable (spec spec') in
/-- The promised entries of both boards. -/
def bothSpec : ∀ s : Slot ⊕ Slot', Sum.elim Val Val' s
  | .inl s => spec s
  | .inr s => spec' s

theorem Promises.onLeft {p : Client Slot Val E α}
    (h : p.Promises spec P Q (Set.preimage Sum.inl K)) :
    p.onLeft.Promises (bothSpec spec spec') P (fun K' => Q (Set.preimage Sum.inl K')) K := by
  have hinsert : ∀ (s : Slot) (K : Set (Slot ⊕ Slot')),
      insert s (Set.preimage Sum.inl K) = Set.preimage Sum.inl (insert (Sum.inl s) K) := by
    intro s K
    ext s'
    simp
  induction p generalizing K with
  | ret a => exact h
  | throw e => exact h
  | note x k ih => exact ⟨h.1, ih h.2⟩
  | upload s v k ih => exact ⟨h.1, ih (hinsert s K ▸ h.2)⟩
  | poll s k ih =>
    refine ih _ (K := insert (Sum.inl s) K) ?_
    rw [← hinsert]
    exact h
  | query s k ih => exact ⟨h.1, ih _ h.2⟩

theorem Ordered.onLeft {p : Client Slot Val E α} (h : p.Ordered spec U rank t t')
    (hU : ∀ s, U s → U' (.inl s)) (hrank : ∀ s, rank' (.inl s) = rank s) :
    p.onLeft.Ordered (bothSpec spec spec') U' rank' t t' := by
  induction p generalizing t with
  | ret | throw => exact h
  | note x k ih => exact ih h
  | upload s v k ih => exact ⟨(hrank s).symm ▸ h.1, ih h.2⟩
  | poll s k ih => exact ⟨hU s h.1, (hrank s).symm ▸ ih _ h.2⟩
  | query s k ih => exact ih _ h

theorem Uploads.onLeft {p : Client Slot Val E α} {s : Slot} (h : p.Uploads spec s) :
    p.onLeft.Uploads (bothSpec spec spec') (.inl s) := by
  induction p with
  | ret | throw => exact h
  | note x k ih => exact ih h
  | upload s' v k ih => exact h.imp (congrArg Sum.inl) ih
  | poll s' k ih => exact ih _ h
  | query s' k ih => exact ih _ h

end More

end Client

/-! ## Runs -/

namespace System

variable {σ σ' : System ι Slot Val E α} {i : ι}
  {spec : ∀ s, Val s} {P : ι → E → Prop} {Q : ι → α → Prop}

variable (spec P Q) in
/-- The invariant of clients that keep their promises. -/
structure Promised (σ : System ι Slot Val E α) : Prop where
  ready : ∀ s, σ.board.ready s = true → σ.board.keys s = some (spec s)
  client : ∀ i, ∃ K, (∀ s ∈ K, σ.board.ready s = true) ∧
    (σ.client i).Promises spec (P i) (fun _ => Q i) K
  hist : ∀ i, ∀ x ∈ σ.hist i, P i x

theorem Promised.init {p : ι → Client Slot Val E α}
    (h : ∀ i, (p i).Promises spec (P i) (fun _ => Q i) ∅) : (init p).Promised spec P Q where
  ready s hs := by cases hs
  client i := ⟨∅, fun s hs => hs.elim, h i⟩
  hist i x hx := by cases hx

/-- **No poll returns anything but `spec`.** -/
theorem Promised.polled (h : σ.Promised spec P Q) {s : Slot} {v : Option (Val s)}
    (hs : σ.board.toClient s = (true, v)) : v = some (spec s) := by
  unfold Board.toClient at hs
  split at hs
  · next hr =>
    cases hs
    exact h.ready s hr
  · cases hs

variable [DecidableEq ι]

theorem Promised.goOn (h : σ.Promised spec P Q) {k : Client Slot Val E α} {K : Set Slot}
    (hK : ∀ s ∈ K, σ.board.ready s = true) (hk : k.Promises spec (P i) (fun _ => Q i) K) :
    (σ.goOn i k).Promised spec P Q where
  ready := h.ready
  client j := by
    by_cases hj : j = i
    · subst hj
      exact ⟨K, hK, by simpa [System.goOn] using hk⟩
    · simpa [System.goOn, hj] using h.client j
  hist := h.hist

theorem Promised.note (h : σ.Promised spec P Q) {x : E} {k : Client Slot Val E α} {K : Set Slot}
    (hK : ∀ s ∈ K, σ.board.ready s = true) (hk : k.Promises spec (P i) (fun _ => Q i) K)
    (hx : P i x) : System.Promised spec P Q
      { σ.goOn i k with hist := Function.update σ.hist i (σ.hist i ++ [x]) } where
  ready := h.ready
  client := (h.goOn hK hk).client
  hist j y hy := by
    by_cases hj : j = i
    · subst hj
      rcases (by simpa using hy : y ∈ σ.hist j ∨ y = x) with hy | rfl
      · exact h.hist j y hy
      · exact hx
    · exact h.hist j y (by simpa [hj] using hy)

variable [DecidableEq Slot]

/-- **What a step does**: a client that has ended does nothing, a note is taken, an upload is the
promised one, and a poll or a query returns the promised entry, or a poll nothing. -/
theorem Promised.step_cases (h : σ.Promised spec P Q) (i : ι) :
    ((σ.client i).size spec = 0 ∧ σ.step i = σ) ∨
    (∃ x k, σ.client i = .note x k ∧ P i x ∧
      σ.step i = { σ.goOn i k with hist := Function.update σ.hist i (σ.hist i ++ [x]) }) ∨
    (∃ s k, σ.client i = .upload s (spec s) k ∧
      σ.step i = { σ.goOn i k with board := σ.board.fromClient s (spec s) }) ∨
    (∃ s k, σ.client i = .poll s k ∧ σ.board.ready s = true ∧ σ.step i = σ.goOn i (k (spec s))) ∨
    (∃ s k, σ.client i = .poll s k ∧ σ.board.ready s = false ∧ σ.step i = σ) ∨
    (∃ s k, σ.client i = .query s k ∧ σ.step i = σ.goOn i (k (some (spec s)))) := by
  obtain ⟨K, hK, hp⟩ := h.client i
  unfold step
  cases hc : σ.client i with
  | ret a => exact .inl ⟨rfl, rfl⟩
  | throw e =>
    rw [hc] at hp
    exact hp.elim
  | note x k =>
    rw [hc] at hp
    exact .inr (.inl ⟨x, k, rfl, hp.1, rfl⟩)
  | upload s v k =>
    rw [hc] at hp
    obtain ⟨rfl, -⟩ := hp
    exact .inr (.inr (.inl ⟨s, k, rfl, rfl⟩))
  | poll s k =>
    cases hr : σ.board.ready s with
    | true =>
      refine .inr (.inr (.inr (.inl ⟨s, k, rfl, hr, ?_⟩)))
      simp [Board.toClient, hr, h.ready s hr]
    | false =>
      refine .inr (.inr (.inr (.inr (.inl ⟨s, k, rfl, hr, ?_⟩))))
      simp [Board.toClient, hr]
  | query s k =>
    rw [hc] at hp
    have hr := hK s hp.1
    refine .inr (.inr (.inr (.inr (.inr ⟨s, k, rfl, ?_⟩))))
    simp [Board.toClient, hr, h.ready s hr]

theorem Promised.upload (h : σ.Promised spec P Q) {s : Slot} {k : Client Slot Val E α} {K : Set Slot}
    (hK : ∀ s ∈ K, σ.board.ready s = true)
    (hk : k.Promises spec (P i) (fun _ => Q i) (insert s K)) : System.Promised spec P Q
      { σ.goOn i k with board := σ.board.fromClient s (spec s) } where
  ready s' hs' := by
    by_cases hss : s' = s
    · subst hss
      simp [Board.fromClient]
    · have hr : σ.board.ready s' = true := ((σ.board.ready_fromClient s s' _).mp hs').resolve_left hss
      simpa [Board.fromClient, hss] using h.ready s' hr
  client j := by
    have hready : ∀ s', s' = s ∨ σ.board.ready s' = true →
        (σ.board.fromClient s (spec s)).ready s' = true := fun s' =>
      (σ.board.ready_fromClient s s' _).mpr
    by_cases hj : j = i
    · subst hj
      refine ⟨insert s K, fun s' hs' => hready s' (hs'.imp_right (hK s')), ?_⟩
      simpa [System.goOn] using hk
    · obtain ⟨K', hK', hp'⟩ := h.client j
      refine ⟨K', fun s' hs' => hready s' (.inr (hK' s' hs')), ?_⟩
      simpa [System.goOn, hj] using hp'
  hist := h.hist

theorem Promised.step (h : σ.Promised spec P Q) (i : ι) : (σ.step i).Promised spec P Q := by
  obtain ⟨K, hK, hp⟩ := h.client i
  obtain ⟨-, hs⟩ | ⟨x, k, hc, hx, hs⟩ | ⟨s, k, hc, hs⟩ | ⟨s, k, hc, hr, hs⟩ | ⟨s, k, hc, -, hs⟩ |
    ⟨s, k, hc, hs⟩ := h.step_cases i
  · rwa [hs]
  · rw [hc] at hp
    rw [hs]
    exact h.note hK hp.2 hx
  · rw [hc] at hp
    rw [hs]
    exact h.upload hK hp.2
  · rw [hc] at hp
    rw [hs]
    refine h.goOn (fun s' hs' => ?_) hp
    rcases hs' with rfl | hs'
    · exact hr
    · exact hK s' hs'
  · rwa [hs]
  · rw [hc] at hp
    rw [hs]
    exact h.goOn hK hp.2

/-- **In every run the clients keep their promises.** -/
theorem Promised.runs (h : σ.Promised spec P Q) (hr : σ.Runs σ') : σ'.Promised spec P Q :=
  hr.invariant h fun _ i hσ _ => hσ.step i

/-! ## No run gets stuck -/

variable {U : Slot → Prop} {rank : Slot → ℕ}

variable (spec U rank) in
/-- Every slot of `U` is ready or will be uploaded, and the clients upload in the order of the
ranks. -/
structure Orderly (σ : System ι Slot Val E α) : Prop where
  uploads : ∀ s, U s → σ.board.ready s = true ∨ ∃ i, (σ.client i).Uploads spec s
  ordered : ∀ i, ∃ t t', (σ.client i).Ordered spec U rank t t'

omit [DecidableEq Slot] in
/-- The client goes on with `k`, and a slot that it need not upload any more is ready. -/
theorem Orderly.goOn (ho : σ.Orderly spec U rank) {b : Board Slot Val} (hist : ι → List E)
    {k : Client Slot Val E α} (hk : ∃ t t', k.Ordered spec U rank t t')
    (hb : ∀ s, σ.board.ready s = true → b.ready s = true)
    (hup : ∀ s, (σ.client i).Uploads spec s → b.ready s = true ∨ k.Uploads spec s) :
    System.Orderly spec U rank { σ.goOn i k with board := b, hist := hist } where
  uploads s hU := by
    rcases ho.uploads s hU with hr | ⟨j, hj⟩
    · exact .inl (hb s hr)
    · by_cases hji : j = i
      · subst hji
        refine (hup s hj).imp_right fun hk => ⟨j, ?_⟩
        simpa [System.goOn] using hk
      · exact .inr ⟨j, by simpa [System.goOn, hji] using hj⟩
  ordered j := by
    by_cases hji : j = i
    · subst hji
      simpa [System.goOn] using hk
    · simpa [System.goOn, hji] using ho.ordered j

theorem Orderly.step (ho : σ.Orderly spec U rank) (h : σ.Promised spec P Q) (i : ι) :
    (σ.step i).Orderly spec U rank := by
  obtain ⟨t, t', ht⟩ := ho.ordered i
  have hup : ∀ s, (σ.client i).Uploads spec s → (σ.client i).Uploads spec s := fun _ hs => hs
  obtain ⟨-, hs⟩ | ⟨x, k, hc, hx, hs⟩ | ⟨s, k, hc, hs⟩ | ⟨s, k, hc, -, hs⟩ | ⟨s, k, hc, -, hs⟩ |
    ⟨s, k, hc, hs⟩ := h.step_cases i
  · rwa [hs]
  · rw [hc] at ht hup
    rw [hs]
    exact ho.goOn _ ⟨t, t', ht⟩ (fun s hr => hr) fun s hs => .inr (hup s (hc ▸ hs))
  · rw [hc] at ht
    rw [hs]
    refine ho.goOn _ ⟨t, t', ht.2⟩ (fun s' hr => ?_) fun s' hs' => ?_
    · exact (σ.board.ready_fromClient s s' _).mpr (.inr hr)
    · rw [hc] at hs'
      rcases hs' with rfl | hs'
      · exact .inl ((σ.board.ready_fromClient s' s' _).mpr (.inl rfl))
      · exact .inr hs'
  · rw [hc] at ht hup
    rw [hs]
    exact ho.goOn _ ⟨_, t', ht.2⟩ (fun s hr => hr) fun s hs => .inr (hup s (hc ▸ hs))
  · rwa [hs]
  · rw [hc] at ht hup
    rw [hs]
    exact ho.goOn _ ⟨t, t', ht⟩ (fun s hr => hr) fun s hs => .inr (hup s (hc ▸ hs))

theorem Orderly.runs (ho : σ.Orderly spec U rank) (h : σ.Promised spec P Q) (hr : σ.Runs σ') :
    σ'.Orderly spec U rank := by
  induction hr with
  | refl => exact ho
  | tail hr i _ ih => exact ih.step (h.runs hr) i

variable (spec) in
/-- The next step of client `i` takes it on, and no other client. -/
def Proceeds (σ : System ι Slot Val E α) (i : ι) : Prop :=
  ((σ.step i).client i).size spec < (σ.client i).size spec ∧
    ∀ j, j ≠ i → (σ.step i).client j = σ.client j

theorem proceeds_of_client {k : Client Slot Val E α} (hk : k.size spec < (σ.client i).size spec)
    (hs : (σ.step i).client = Function.update σ.client i k) : σ.Proceeds spec i := by
  unfold Proceeds
  rw [hs, Function.update_self]
  exact ⟨hk, fun j hj => Function.update_of_ne hj ..⟩

/-- A client that does not go on has ended, or polls for a slot that is not ready. -/
theorem Promised.proceeds_or (h : σ.Promised spec P Q) (hi : (σ.client i).size spec ≠ 0) :
    σ.Proceeds spec i ∨ ∃ s k, σ.client i = .poll s k ∧ σ.board.ready s = false := by
  obtain ⟨hz, -⟩ | ⟨x, k, hc, -, hs⟩ | ⟨s, k, hc, hs⟩ | ⟨s, k, hc, -, hs⟩ | ⟨s, k, hc, hr, -⟩ |
    ⟨s, k, hc, hs⟩ := h.step_cases i
  · exact absurd hz hi
  · refine .inl (proceeds_of_client (k := k) ?_ (by rw [hs]; rfl))
    rw [hc]
    exact Nat.lt_succ_self _
  · refine .inl (proceeds_of_client (k := k) ?_ (by rw [hs]; rfl))
    rw [hc]
    exact Nat.lt_succ_self _
  · refine .inl (proceeds_of_client (k := k (spec s)) ?_ (by rw [hs]; rfl))
    rw [hc]
    exact Nat.lt_succ_self _
  · exact .inr ⟨s, k, hc, hr⟩
  · refine .inl (proceeds_of_client (k := k (some (spec s))) ?_ (by rw [hs]; rfl))
    rw [hc]
    exact Nat.lt_succ_self _

/-- Some client's next step takes it on. -/
theorem Promised.progress (h : σ.Promised spec P Q) (ho : σ.Orderly spec U rank)
    (hne : ∃ i, (σ.client i).size spec ≠ 0) : ∃ i, σ.Proceeds spec i := by
  by_contra hno
  push Not at hno
  have hpoll : ∀ i, (σ.client i).size spec ≠ 0 →
      ∃ s k, σ.client i = .poll s k ∧ σ.board.ready s = false :=
    fun i hi => (h.proceeds_or hi).resolve_left (hno i)
  -- Among these slots take one of the least rank: its uploader polls for a lower one.
  obtain ⟨i, hi⟩ := hne
  obtain ⟨s₀, k₀, hc₀, hr₀⟩ := hpoll i hi
  have hex : ∃ n s, rank s = n ∧ U s ∧ σ.board.ready s = false := by
    obtain ⟨t, t', ht⟩ := ho.ordered i
    rw [hc₀] at ht
    exact ⟨_, s₀, rfl, ht.1, hr₀⟩
  classical
  obtain ⟨s, hs, hU, hr⟩ := Nat.find_spec hex
  rcases ho.uploads s hU with hr' | ⟨j, hj⟩
  · rw [hr'] at hr
    cases hr
  have hj0 : (σ.client j).size spec ≠ 0 := by
    intro hz
    cases hc : σ.client j with
    | ret | throw =>
      rw [hc] at hj
      exact hj
    | note | upload | poll | query => simp [hc, Client.size] at hz
  obtain ⟨s', k', hc', hr''⟩ := hpoll j hj0
  obtain ⟨t, t', ht⟩ := ho.ordered j
  rw [hc'] at ht hj
  have hlt : rank s' < rank s := lt_of_le_of_lt (le_max_right _ _) (ht.2.lt_rank hj)
  exact Nat.find_min hex (hs ▸ hlt) ⟨s', rfl, ht.1, hr''⟩

/-- **Every run can be continued until all clients have ended.** -/
theorem Promised.completes (h : σ.Promised spec P Q) (ho : σ.Orderly spec U rank)
    {clients : Finset ι} (hout : ∀ i, i ∉ clients → (σ.client i).size spec = 0) :
    ∃ σ', σ.Runs σ' ∧ ∀ i, ∃ a, σ'.client i = .ret a ∧ Q i a := by
  induction hn : ∑ i ∈ clients, (σ.client i).size spec using Nat.strong_induction_on
    generalizing σ with
  | _ n ih =>
    by_cases hne : ∃ i, (σ.client i).size spec ≠ 0
    · obtain ⟨i, hlt, hothers⟩ := h.progress ho hne
      have hi : i ∈ clients := by
        by_contra hi
        rw [hout i hi] at hlt
        exact absurd hlt (Nat.not_lt_zero _)
      have hsum : ∑ j ∈ clients, ((σ.step i).client j).size spec < n := by
        rw [← hn]
        refine Finset.sum_lt_sum (fun j _ => ?_) ⟨i, hi, hlt⟩
        by_cases hj : j = i
        · exact hj ▸ hlt.le
        · rw [hothers j hj]
      have hstep : σ.Runs (σ.step i) := (Reach.refl).tail i trivial
      have hout' : ∀ j, j ∉ clients → ((σ.step i).client j).size spec = 0 := by
        intro j hj
        rw [hothers j fun hji => hj (hji ▸ hi), hout j hj]
      obtain ⟨σ', hr, hend⟩ := ih _ hsum (h.step i) (ho.step h i) hout' rfl
      exact ⟨σ', hstep.trans hr, hend⟩
    · push Not at hne
      refine ⟨σ, .refl, fun i => ?_⟩
      obtain ⟨K, -, hp⟩ := h.client i
      have hz := hne i
      cases hc : σ.client i with
      | ret a => exact ⟨a, rfl, by rw [hc] at hp; exact hp⟩
      | throw e => rw [hc] at hp; exact hp.elim
      | note | upload | poll | query => simp [hc, Client.size] at hz

end System

end Rpc

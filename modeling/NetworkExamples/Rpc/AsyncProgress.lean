import NetworkExamples.Rpc.AtomicCalls
import Mathlib.Algebra.BigOperators.Group.List.Lemmas
import Mathlib.Algebra.GroupWithZero.Nat
import Mathlib.Data.Fintype.Card
import Mathlib.Data.Fintype.EquivFin

/-!
# An asynchronous server can go on

While no client has gone and the server is not shut down, every run can be continued until all calls
are answered (`drains`), and then it can do what the clients do with atomic calls (`performs`).
-/

namespace Async

variable {κ ι σ C Req : Type} {Rep : Req → Type} {S : Service κ σ Rep} {next : C → Next C Rep}
  {env : σ → σ → Prop}

/-! ## The work that is left -/

/-- The number of steps until the servicer `o` with this operation listens or is deleted. -/
def Op.work (o : Option (Servicer κ ι Rep)) : Op → ℕ
  | .request => 0
  | .finish => 2
  | .done _ => if o.map Servicer.status_ = some .PROCESS then 3 else 1

def Server.work (s : Server κ ι σ Rep) : ℕ := (s.ops.map fun x => x.2.work (s.heap x.1)).sum

namespace Server

variable {s : Server κ ι σ Rep} {a b tag fresh : ℕ} {op op' : Op} {o : Option (Servicer κ ι Rep)}

/-- What is written at `a` does not count for the other operations. -/
theorem sum_put (hops : ∀ x ∈ s.ops, x.1 ≠ a) :
    ((s.put a o).ops.map fun x => x.2.work ((s.put a o).heap x.1)).sum = s.work := by
  unfold work
  refine congrArg List.sum (List.map_congr_left fun x hx => ?_)
  rw [put_heap, Function.update_of_ne (hops x hx)]

theorem Tidy.work_delete (h : s.Tidy S) (ha : (a, op) ∈ s.ops) (o : Option (Servicer κ ι Rep)) :
    op.work (s.heap a) + ({ s with ops := s.ops.erase (a, op) }.put a o).work = s.work := by
  have hne : ∀ x ∈ s.ops.erase (a, op), x.1 ≠ a := fun x hx =>
    ((mem_erase_ops h.nodup ha).mp hx).1
  have hsum := ((List.perm_cons_erase ha).map fun x => x.2.work (s.heap x.1)).sum_eq
  rw [List.map_cons, List.sum_cons] at hsum
  unfold work
  rw [hsum]
  exact congrArg _ (sum_put (s := { s with ops := s.ops.erase (a, op) }) (o := o) hne)

theorem Tidy.work_replace (h : s.Tidy S) (ha : (a, op) ∈ s.ops) (o : Option (Servicer κ ι Rep))
    (op' : Op) :
    op.work (s.heap a) + (({ s with ops := s.ops.erase (a, op) }.put a o).start a op').work =
      op'.work o + s.work := by
  have hstart : (({ s with ops := s.ops.erase (a, op) }.put a o).start a op').work =
      op'.work o + ({ s with ops := s.ops.erase (a, op) }.put a o).work := by
    unfold work
    rw [start_ops, List.map_cons, List.sum_cons]
    simp
  rw [hstart, ← h.work_delete ha o]
  omega

theorem Tidy.work_new (h : s.Tidy S) (hb : s.heap b = none) (hdown : s.down = false) (k : κ) :
    (s.new k b).work = s.work := by
  have hne : ∀ x ∈ s.ops, x.1 ≠ b := by
    rintro x hx rfl
    exact h.heap_of_mem hx hb
  have hsum := sum_put (o := some ⟨k, .PROCESS, none⟩) hne
  unfold work at hsum ⊢
  rw [new_ops, List.map_cons, List.sum_cons, new_heap]
  simp only [requestOp, hdown, Bool.false_eq_true, if_false, Op.work, Nat.zero_add]
  exact hsum

theorem Tidy.work_serve (h : s.Tidy S) {i : ι} {r : Req} (hop : (tag, .done true) ∈ s.ops)
    (ho : s.heap tag = some ⟨S.kind r, .PROCESS, some ⟨i, r, none⟩⟩) (hb : s.heap fresh = none)
    (hdown : s.down = false) (rep : Rep r) (state : σ) :
    (s.serve S tag fresh i r rep state).work < s.work := by
  have hne : tag ≠ fresh := by
    rintro rfl
    rw [hb] at ho
    cases ho
  have hrep : Op.work ((s.new (S.kind r) fresh).heap tag) (.done true) +
      (s.serve S tag fresh i r rep state).work = 2 + (s.new (S.kind r) fresh).work :=
    (h.new hb (S.kind r)).work_replace (List.mem_cons_of_mem _ hop) _ _
  rw [h.work_new hb hdown, new_heap, Function.update_of_ne hne, ho] at hrep
  have hthree : Op.work (some (⟨S.kind r, .PROCESS, some ⟨i, r, none⟩⟩ : Servicer κ ι Rep))
      (.done true) = 3 := rfl
  omega

theorem Tidy.work_done (h : s.Tidy S) (ha : (a, .finish) ∈ s.ops) (ok : Bool) :
    ({ s with ops := s.ops.erase (a, .finish) }.start a (.done ok)).work < s.work := by
  have hrep := h.work_replace ha (s.heap a) (.done ok)
  have hput : ({ s with ops := s.ops.erase (a, .finish) }.put a (s.heap a)) =
      { s with ops := s.ops.erase (a, .finish) } := by
    simp [Server.put]
  rw [hput] at hrep
  obtain ⟨o, ho, hfit⟩ := h.fits a _ ha
  rw [ho] at hrep
  cases hfit with
  | replies i r rep =>
    have hone : Op.work (some (⟨S.kind r, .FINISH, some ⟨i, r, some rep⟩⟩ : Servicer κ ι Rep))
        (.done ok) = 1 := rfl
    have htwo : Op.work (some (⟨S.kind r, .FINISH, some ⟨i, r, some rep⟩⟩ : Servicer κ ι Rep))
        .finish = 2 := rfl
    omega

end Server

/-! ## Going on -/

namespace System

variable {x x' : System κ ι σ C Rep} {i : ι}

/-- No client has gone, and the server is not shut down. -/
structure Up (x : System κ ι σ C Rep) : Prop where
  down : x.server.down = false
  gone : ∀ i, x.gone i = false

/-- No call is on its way. -/
structure Quiet (x : System κ ι σ C Rep) : Prop where
  ops : ∀ a op, (a, op) ∈ x.server.ops → op = .request
  phase : ∀ i, x.phase i = .idle

theorem init_up (kinds : List κ) (state : σ) (client : ι → C) :
    (init kinds state client : System κ ι σ C Rep).Up :=
  ⟨(Server.handleRpcs_init kinds state).2.1, fun _ => rfl⟩

theorem init_quiet (kinds : List κ) (state : σ) (client : ι → C) :
    (init kinds state client : System κ ι σ C Rep).Quiet :=
  ⟨(Server.handleRpcs_init kinds state).2.2, fun _ => rfl⟩

/-- The server has a servicer for each method. -/
theorem Inv.init_univ [DecidableEq κ] {kinds : List κ} (hkinds : kinds.Nodup)
    (hall : ∀ k, k ∈ kinds) (state : σ) (client : ι → C) :
    (System.init kinds state client : System κ ι σ C Rep).Inv S next Set.univ := by
  rw [← Set.eq_univ_of_forall (s := {k | k ∈ kinds}) hall]
  exact .init hkinds state client

/-- An address that is free. -/
theorem exists_fresh (h : x.server.Tidy S) : ∃ b, x.server.heap b = none := by
  obtain ⟨b, hb⟩ := Infinite.exists_notMem_finset (x.server.ops.map Prod.fst).toFinset
  refine ⟨b, ?_⟩
  by_contra hne
  exact hb (List.mem_toFinset.mpr (h.live b hne))

/-- The servicer that waits for the calls of a method. -/
theorem Inv.exists_request (h : x.Inv S next Set.univ)
    (hops : ∀ a op, (a, op) ∈ x.server.ops → op = .request)
    (k : κ) : ∃ a, (a, .request) ∈ x.server.ops ∧
      x.server.heap a = some (⟨k, .PROCESS, none⟩ : Servicer κ ι Rep) := by
  obtain ⟨listener, hlistener⟩ := h.listening
  obtain ⟨call, ha⟩ := (hlistener k _).mpr ⟨trivial, rfl⟩
  obtain ⟨op, hop, hfit⟩ := h.tidy.exists_op ha
  obtain rfl := hops _ op hop
  cases hfit
  exact ⟨_, hop, ha⟩

/-- The calls of the clients make no handler throw. -/
def Handled (S : Service κ σ Rep) (next : C → Next C Rep) : Prop :=
  ∀ c r k, next c = .call r k → ∀ state, ∃ y, S.handle r state = .ok y

/-- The loop can take an event out of the queue. -/
theorem Inv.progress_turn [DecidableEq κ] (h : x.Inv S next Set.univ) (hup : x.Up)
    (hhandled : Handled S next) {a : ℕ} {ok : Bool} (hop : (a, .done ok) ∈ x.server.ops) :
    ∃ fresh s, x.server.heap fresh = none ∧ x.server.turn S a ok fresh = .ok s ∧
      s.down = false ∧ s.work < x.server.work := by
  obtain ⟨fresh, hfresh⟩ := exists_fresh h.tidy
  refine ⟨fresh, ?_⟩
  obtain ⟨rfl, -⟩ | ⟨i, r, rfl, ho, ⟨e, he, -⟩ | ⟨rep, state, -, hturn⟩⟩ |
    ⟨i, r, rep, rfl, ho, hturn⟩ := h.tidy.turn_cases hop fresh
  · rcases h.notOk a hop with ⟨k, hk⟩ | ⟨i, hgone⟩
    · have hdown := h.tidy.down_of_listens hop hk
      rw [hup.down] at hdown
      cases hdown
    · rw [hup.gone i] at hgone
      cases hgone
  · obtain ⟨-, k, hk⟩ := h.held a ⟨i, r, none⟩ ⟨_, _, hop, ho, rfl, .inl rfl⟩
    obtain ⟨y, hy⟩ := hhandled _ r k hk x.server.state
    rw [hy] at he
    cases he
  · exact ⟨_, hfresh, hturn, hup.down, h.tidy.work_serve hop ho hfresh hup.down rep state⟩
  · refine ⟨_, hfresh, hturn, hup.down, ?_⟩
    have hwork := h.tidy.work_delete hop none
    rw [ho] at hwork
    have hone : Op.work (some (⟨S.kind r, .FINISH, some ⟨i, r, some rep⟩⟩ : Servicer κ ι Rep))
        (.done true) = 1 := rfl
    omega

section

variable [DecidableEq ι]

/-- **An operation that goes on can end**. -/
theorem Inv.progress_ops [DecidableEq κ] (h : x.Inv S next Set.univ) (hup : x.Up)
    (hhandled : Handled S next) {a : ℕ} {op : Op} (hop : (a, op) ∈ x.server.ops)
    (hne : op ≠ .request) (env : σ → σ → Prop) : ∃ x', Step S next env x x' ∧ x'.Up ∧
      x'.server.work < x.server.work ∧ ∀ i, x'.phase i = x.phase i ∨ x'.phase i = .idle := by
  cases op with
  | request => exact absurd rfl hne
  | finish =>
    obtain ⟨o, ho, hfit⟩ := h.tidy.fits a _ hop
    cases hfit with
    | replies i r rep =>
      obtain ⟨-, k, hk⟩ := h.held a ⟨i, r, some rep⟩ ⟨_, _, hop, ho, rfl, .inr rfl⟩
      refine ⟨_, .finish (hup.gone i) hop ho rfl hk, ⟨hup.down, hup.gone⟩,
        h.tidy.work_done hop true, fun j => ?_⟩
      by_cases hji : j = i
      · subst hji
        exact .inr (Function.update_self ..)
      · exact .inl (Function.update_of_ne hji ..)
  | done ok =>
    obtain ⟨fresh, s, hfresh, hturn, hdown, hlt⟩ := h.progress_turn hup hhandled hop
    exact ⟨_, .turn hop hfresh hturn, ⟨hdown, hup.gone⟩, hlt, fun _ => .inl rfl⟩

/-- The calls that were taken can all be answered. -/
theorem Inv.settles [DecidableEq κ] (h : x.Inv S next Set.univ) (hup : x.Up)
    (hhandled : Handled S next) (env : σ → σ → Prop) : ∃ x', Runs S next env x x' ∧ x'.Up ∧
      ∀ a op, (a, op) ∈ x'.server.ops → op = .request := by
  induction hn : x.server.work using Nat.strong_induction_on generalizing x with
  | _ n ih =>
    by_cases hops : ∀ a op, (a, op) ∈ x.server.ops → op = .request
    · exact ⟨x, .refl, hup, hops⟩
    · push Not at hops
      obtain ⟨a, op, hop, hne⟩ := hops
      obtain ⟨x', hstep, hup', hlt, -⟩ := h.progress_ops hup hhandled hop hne env
      obtain ⟨x'', hr, hend⟩ := ih _ (hn ▸ hlt) (h.step hstep) hup' rfl
      exact ⟨x'', hr.head hstep, hend⟩

end

variable [DecidableEq ι] [Fintype ι]

/-- The number of steps until all calls that are on their way are answered. -/
def work (x : System κ ι σ C Rep) : ℕ :=
  4 * (Finset.univ.filter fun i => x.phase i = .sent).card + x.server.work

/-- A client whose call is not sent any more. -/
theorem sent_subset (phase : ι → Phase) (i : ι) {p : Phase} (hp : p ≠ .sent) :
    (Finset.univ.filter fun j => Function.update phase i p j = .sent) ⊆
      Finset.univ.filter fun j => phase j = .sent := by
  intro j hj
  by_cases hji : j = i
  · subst hji
    exact absurd (by simpa using hj) hp
  · simpa [hji] using hj

/-- **Something can be done**, as long as a call is on its way. -/
theorem Inv.progress [DecidableEq κ] (h : x.Inv S next Set.univ) (hup : x.Up)
    (hhandled : Handled S next) (hquiet : ¬ x.Quiet) (env : σ → σ → Prop) :
    ∃ x', Step S next env x x' ∧ x'.Up ∧ x'.work < x.work := by
  by_cases hops : ∀ a op, (a, op) ∈ x.server.ops → op = .request
  · -- Some client waits for its call to be taken.
    obtain ⟨i, hi⟩ : ∃ i, x.phase i ≠ .idle := by
      by_contra hno
      push Not at hno
      exact hquiet ⟨hops, hno⟩
    have hsent : x.phase i = .sent := by
      cases hp : x.phase i with
      | idle => exact absurd hp hi
      | sent => rfl
      | taken a =>
        obtain ⟨call, ⟨o, op, hop, ho, hcall, -⟩, -⟩ := h.taken i a hp
        obtain rfl := hops a op hop
        cases h.tidy.fits_of_heap hop ho
        cases hcall
      | lost =>
        have hgone := h.lost i hp
        rw [hup.gone i] at hgone
        cases hgone
    obtain ⟨r, k, hk⟩ := h.sent i hsent
    obtain ⟨a, hop, ho⟩ := h.exists_request hops (S.kind r)
    refine ⟨_, .take (hup.gone i) hsent hk hop ho rfl, ⟨hup.down, hup.gone⟩, ?_⟩
    have hwork := h.tidy.work_replace hop (some ⟨S.kind r, .PROCESS, some ⟨i, r, none⟩⟩)
      (.done true)
    have hthree : Op.work (some (⟨S.kind r, .PROCESS, some ⟨i, r, none⟩⟩ : Servicer κ ι Rep))
        (.done true) = 3 := rfl
    have hzero : Op.work (x.server.heap a) .request = 0 := rfl
    have hcard : (Finset.univ.filter fun j => Function.update x.phase i (.taken a) j =
        .sent).card < (Finset.univ.filter fun j => x.phase j = .sent).card := by
      refine Finset.card_lt_card ⟨sent_subset x.phase i nofun, fun hsub => ?_⟩
      have hmem := hsub (Finset.mem_filter.mpr ⟨Finset.mem_univ i, hsent⟩)
      simp at hmem
    unfold work
    dsimp only
    omega
  · push Not at hops
    obtain ⟨a, op, hop, hne⟩ := hops
    obtain ⟨x', hstep, hup', hlt, hphase⟩ := h.progress_ops hup hhandled hop hne env
    refine ⟨x', hstep, hup', ?_⟩
    have hsub : (Finset.univ.filter fun i => x'.phase i = .sent) ⊆
        Finset.univ.filter fun i => x.phase i = .sent := by
      intro i hi
      rw [Finset.mem_filter] at hi ⊢
      rcases hphase i with hp | hp
      · exact ⟨hi.1, hp.symm.trans hi.2⟩
      · rw [hp] at hi
        cases hi.2
    have hcard := Finset.card_le_card hsub
    unfold work
    omega

/-- **Every call can be answered.** -/
theorem Inv.drains [DecidableEq κ] (h : x.Inv S next Set.univ) (hup : x.Up)
    (hhandled : Handled S next) : ∃ x', Runs S next env x x' ∧ x'.Up ∧ x'.Quiet := by
  induction hn : x.work using Nat.strong_induction_on generalizing x with
  | _ n ih =>
    by_cases hquiet : x.Quiet
    · exact ⟨x, .refl, hup, hquiet⟩
    · obtain ⟨x', hstep, hup', hlt⟩ := h.progress hup hhandled hquiet env
      obtain ⟨x'', hr, hend⟩ := ih _ (hn ▸ hlt) (h.step hstep) hup' rfl
      exact ⟨x'', hr.head hstep, hend⟩

omit [Fintype ι] in
/-- A call that was taken is answered; the other calls stay where they are. -/
theorem Inv.answers [DecidableEq κ] (h : x.Inv S next Set.univ) (hup : x.Up) {a : ℕ} {r : Req}
    {k : Rep r → C} {rep : Rep r} {state : σ} (hop : (a, .done true) ∈ x.server.ops)
    (ho : x.server.heap a = some ⟨S.kind r, .PROCESS, some ⟨i, r, none⟩⟩)
    (hnext : next (x.client i) = .call r k)
    (hhandle : S.handle r x.server.state = .ok (rep, state)) (env : σ → σ → Prop) :
    ∃ x', Runs S next env x x' ∧ x'.Up ∧ x'.server.state = state ∧
      x'.client = Function.update x.client i (k rep) ∧
      x'.phase = Function.update x.phase i .idle ∧
      ∀ c p, (c, p) ∈ x'.server.ops → p = .request ∨ c ≠ a ∧ (c, p) ∈ x.server.ops := by
  obtain ⟨fresh, hfresh⟩ := exists_fresh h.tidy
  have hturn := h.tidy.turn_call hop ho hhandle fresh
  -- The handler has run: the reply is sent.
  let x₁ : System κ ι σ C Rep := { x with server := x.server.serve S a fresh i r rep state }
  have hstep₁ : Step S next env x x₁ := .turn hop hfresh hturn
  have h₁ : x₁.Inv S next Set.univ := h.step hstep₁
  have hop₁ : (a, .finish) ∈ x₁.server.ops := List.mem_cons_self
  have ho₁ : x₁.server.heap a = some ⟨S.kind r, .FINISH, some ⟨i, r, some rep⟩⟩ := by
    simp [x₁]
  -- It has arrived: the servicer is deleted.
  let x₂ : System κ ι σ C Rep := { x₁ with
    server := { x₁.server with ops := x₁.server.ops.erase (a, .finish) }.start a (.done true)
    client := Function.update x.client i (k rep)
    phase := Function.update x.phase i .idle }
  have hstep₂ : Step S next env x₁ x₂ := .finish (hup.gone i) hop₁ ho₁ rfl hnext
  have h₂ : x₂.Inv S next Set.univ := h₁.step hstep₂
  have hop₂ : (a, .done true) ∈ x₂.server.ops := List.mem_cons_self
  have ho₂ : x₂.server.heap a = some ⟨S.kind r, .FINISH, some ⟨i, r, some rep⟩⟩ := ho₁
  obtain ⟨fresh₂, hfresh₂⟩ := exists_fresh h₂.tidy
  have hturn₂ : x₂.server.turn S a true fresh₂ =
      .ok ({ x₂.server with ops := x₂.server.ops.erase (a, .done true) }.put a none) := by
    obtain ⟨h0, -⟩ | ⟨i', r', -, ho', -⟩ | ⟨i', r', rep', -, -, hturn⟩ :=
      h₂.tidy.turn_cases hop₂ fresh₂
    · cases h0
    · cases congrArg (Option.map Servicer.status_) (ho₂.symm.trans ho')
    · exact hturn
  refine ⟨_, ((Relation.ReflTransGen.single hstep₁).tail hstep₂).tail (.turn hop₂ hfresh₂ hturn₂),
    ⟨hup.down, hup.gone⟩, rfl, rfl, rfl, fun c p hc => ?_⟩
  obtain ⟨hca, hc⟩ := (mem_erase_ops h₂.tidy.nodup hop₂).mp hc
  have hc₁ : (c, p) ∈ x₁.server.ops := by
    refine List.mem_of_mem_erase ((List.mem_cons.mp hc).resolve_left ?_)
    rintro ⟨⟩
    exact hca rfl
  have hc₀ : (c, p) ∈ (fresh, x.server.requestOp) :: x.server.ops := by
    refine List.mem_of_mem_erase ((List.mem_cons.mp hc₁).resolve_left ?_)
    rintro ⟨⟩
    exact hca rfl
  rcases List.mem_cons.mp hc₀ with hc₀ | hc₀
  · cases hc₀
    simp [Server.requestOp, hup.down]
  · exact .inr ⟨hca, hc₀⟩

omit [Fintype ι] in
/-- A client makes its call, and gets the answer, while no other call is taken. -/
theorem Inv.calls [DecidableEq κ] (h : x.Inv S next Set.univ) (hup : x.Up)
    (hops : ∀ a op, (a, op) ∈ x.server.ops → op = .request)
    (hphase : x.phase i = .idle ∨ x.phase i = .sent) {r : Req} {k : Rep r → C} {rep : Rep r}
    {state : σ} (hnext : next (x.client i) = .call r k)
    (hhandle : S.handle r x.server.state = .ok (rep, state)) (env : σ → σ → Prop) :
    ∃ x', Runs S next env x x' ∧ x'.Up ∧ x'.server.state = state ∧
      x'.client = Function.update x.client i (k rep) ∧
      x'.phase = Function.update x.phase i .idle ∧
      ∀ a op, (a, op) ∈ x'.server.ops → op = .request := by
  obtain ⟨a, hop, ho⟩ := h.exists_request hops (S.kind r)
  let x₁ : System κ ι σ C Rep := { x with phase := Function.update x.phase i .sent }
  have hrun₁ : Runs S next env x x₁ := by
    rcases hphase with hp | hp
    · exact .single (.send (hup.gone i) hp hnext)
    · rw [show x₁ = x from congrArg (fun phase => { x with phase := phase })
        (by rw [← hp, Function.update_eq_self])]
  let x₂ : System κ ι σ C Rep := { x₁ with
    server := ({ x₁.server with ops := x₁.server.ops.erase (a, .request) }.put a
      (some ⟨S.kind r, .PROCESS, some ⟨i, r, none⟩⟩)).start a (.done true)
    phase := Function.update x₁.phase i (.taken a) }
  have hsent : x₁.phase i = .sent := Function.update_self ..
  have hstep₂ : Step S next env x₁ x₂ := .take (x := x₁) (hup.gone i) hsent hnext hop ho rfl
  have h₂ : x₂.Inv S next Set.univ := (h.runs hrun₁).step hstep₂
  have ho₂ : x₂.server.heap a = some ⟨S.kind r, .PROCESS, some ⟨i, r, none⟩⟩ := by
    simp [x₂]
  obtain ⟨x', hr, hup', hstate, hclient, hphase', hops'⟩ := h₂.answers
    ⟨hup.down, hup.gone⟩ List.mem_cons_self ho₂ hnext hhandle env
  refine ⟨x', (hrun₁.tail hstep₂).trans hr, hup', hstate, hclient, ?_, fun c p hc => ?_⟩
  · rw [hphase']
    simp [x₂, x₁]
  · rcases hops' c p hc with hp | ⟨hca, hc⟩
    · exact hp
    · refine hops c p (List.mem_of_mem_erase ((List.mem_cons.mp hc).resolve_left ?_))
      rintro ⟨⟩
      exact hca rfl

omit [Fintype ι] in
/-- **What atomic calls do, the asynchronous server can do.** -/
theorem Inv.performs [DecidableEq κ] (h : x.Inv S next Set.univ) (hup : x.Up) (hquiet : x.Quiet)
    {t : Atomic ι σ C} (hs : Atomic.Step S next env ⟨x.server.state, x.client⟩ t) :
    ∃ x', Runs S next env x x' ∧ x'.Up ∧ x'.Quiet ∧
      (⟨x'.server.state, x'.client⟩ : Atomic ι σ C) = t := by
  cases hs with
  | @go i c hnext =>
    refine ⟨_, .single (.go (hup.gone i) (hquiet.phase i) hnext), ⟨hup.down, hup.gone⟩,
      ⟨hquiet.ops, hquiet.phase⟩, rfl⟩
  | @env state henv =>
    exact ⟨_, .single (.env henv), ⟨hup.down, hup.gone⟩, ⟨hquiet.ops, hquiet.phase⟩, rfl⟩
  | @call i r k rep state hnext hhandle =>
    obtain ⟨x', hr, hup', hstate, hclient, hphase, hops⟩ := h.calls hup hquiet.ops
      (.inl (hquiet.phase i)) hnext hhandle env
    refine ⟨x', hr, hup', ⟨hops, fun j => ?_⟩, by rw [hstate, hclient]⟩
    rw [hphase, ← hquiet.phase i, Function.update_eq_self]
    exact (hquiet.phase j).trans (hquiet.phase i).symm

omit [Fintype ι] in
theorem Inv.performs_runs [DecidableEq κ] (h : x.Inv S next Set.univ) (hup : x.Up)
    (hquiet : x.Quiet) {t : Atomic ι σ C}
    (hr : Atomic.Runs S next env ⟨x.server.state, x.client⟩ t) :
    ∃ x', Runs S next env x x' ∧ x'.Up ∧ x'.Quiet ∧
      (⟨x'.server.state, x'.client⟩ : Atomic ι σ C) = t := by
  induction hr with
  | refl => exact ⟨x, .refl, hup, hquiet, rfl⟩
  | tail _ hs ih =>
    obtain ⟨x', hr', hup', hquiet', rfl⟩ := ih
    obtain ⟨x'', hr'', hup'', hquiet'', ht⟩ := (h.runs hr').performs hup' hquiet' hs
    exact ⟨x'', hr'.trans hr'', hup'', hquiet'', ht⟩

omit [Fintype ι] in
/-- **A client can end the loop**: it goes away while the server has its call. -/
theorem Inv.ends_of_leave [DecidableEq κ] {K : Set κ} (h : x.Inv S next K) {a : ℕ}
    (hphase : x.phase i = .taken a)
    (hhandle : ∀ r, x.server.Holds a ⟨i, r, none⟩ → ∃ y, S.handle r x.server.state = .ok y)
    (env : σ → σ → Prop) :
    ∃ x', Runs S next env x x' ∧ x'.server.down = x.server.down ∧
      (∀ j, j ≠ i → x'.gone j = x.gone j) ∧ ∃ tag, (tag, .done false) ∈ x'.server.ops ∧
        ∀ fresh, x'.server.turn S tag false fresh = .error .notOk := by
  have hlose : ∀ y : System κ ι σ C Rep, ∀ o call, (a, .finish) ∈ y.server.ops →
      y.server.heap a = some o → o.call = some call → call.client = i →
      ∃ x', Runs S next env y x' ∧ x'.server.down = y.server.down ∧
        (∀ j, j ≠ i → x'.gone j = y.gone j) ∧ ∃ tag, (tag, .done false) ∈ x'.server.ops ∧
          ∀ fresh, x'.server.turn S tag false fresh = .error .notOk := by
    rintro y o call hop ho hcall rfl
    have hgone : Function.update y.gone call.client true call.client = true :=
      Function.update_self ..
    have hlost : Step S next env { y with gone := Function.update y.gone call.client true }
        { server := { y.server with ops := y.server.ops.erase (a, .finish) }.start a (.done false)
          client := y.client
          phase := Function.update y.phase call.client .lost
          gone := Function.update y.gone call.client true } := .lose hgone hop ho hcall
    exact ⟨_, .tail (.single (.leave call.client)) hlost, rfl,
      fun j hj => Function.update_of_ne hj .., a, List.mem_cons_self, fun _ => rfl⟩
  obtain ⟨⟨i, r, rep⟩, hhold, rfl⟩ := h.taken i a hphase
  obtain ⟨o, op, hop, ho, hcall, hor⟩ := id hhold
  cases h.tidy.fits_of_heap hop ho with
  | called i r =>
    -- The call is handled first.
    cases hcall
    obtain ⟨⟨rep, state⟩, hy⟩ := hhandle r hhold
    obtain ⟨fresh, hfresh⟩ := exists_fresh h.tidy
    have hserved : Step S next env x _ :=
      .turn hop hfresh (h.tidy.turn_call hop ho hy fresh)
    obtain ⟨x', hr, hend⟩ := hlose { x with server := x.server.serve S a fresh i r rep state }
      ⟨S.kind r, .FINISH, some ⟨i, r, some rep⟩⟩ ⟨i, r, some rep⟩ List.mem_cons_self (by simp) rfl
      rfl
    exact ⟨x', hr.head hserved, hend⟩
  | replies i r rep =>
    cases hcall
    exact hlose x _ _ hop ho rfl rfl
  | listens | refused => cases hcall
  | ended i r rep ok => rcases hor with hor | hor <;> cases hor

omit [DecidableEq ι] [Fintype ι] in
/-- In a quiet state the two systems are in the same state. -/
theorem Quiet.sim_eq {t : Atomic ι σ C} (h : x.Quiet) (hsim : Sim next x t) :
    t = ⟨x.server.state, x.client⟩ := by
  obtain ⟨state, client⟩ := t
  obtain rfl : state = x.server.state := hsim.state
  obtain rfl : client = x.client := funext fun i => hsim.free i (.inl (h.phase i))
  rfl

end System

end Async

import NetworkExamples.Rpc.CompletionQueue

/-!
# The calls of an asynchronous server are atomic

In a run of an asynchronous server (`Async.System`) a call goes through a servicer and the completion
queue, and many calls are on the way at a time. In the system of atomic calls (`Atomic`) a client
calls, the handler runs and the client goes on, all in one step.

* `Inv`: what holds in every run; `Inv.turn_error`: how the loop can end.
* `Sim.step`, `Sim.runs`: a run of the asynchronous server is one of atomic calls, in which a call
  takes place when its handler runs.
-/

namespace Async

variable {κ ι σ C Req : Type} {Rep : Req → Type} {S : Service κ σ Rep} {next : C → Next C Rep}
  {env : σ → σ → Prop}

/-- The call is at the servicer at `a`, not handled yet or with the reply not sent. -/
def Server.Holds (s : Server κ ι σ Rep) (a : ℕ) (call : Call ι Rep) : Prop :=
  ∃ o op, (a, op) ∈ s.ops ∧ s.heap a = some o ∧ o.call = some call ∧
    (o.status_ = .PROCESS ∨ op = .finish)

namespace Server

variable {s s' : Server κ ι σ Rep} {a c tag fresh : ℕ} {call : Call ι Rep} {o : Servicer κ ι Rep}
  {op op' : Op}

/-- The call of a servicer whose operation is not replaced. -/
theorem Tidy.holds_replace (h : s.Tidy S) (ha : (a, op) ∈ s.ops) (o : Servicer κ ι Rep) (op' : Op)
    (c : ℕ) (call : Call ι Rep) :
    (({ s with ops := s.ops.erase (a, op) }.put a (some o)).start a op').Holds c call ↔
      c = a ∧ o.call = some call ∧ (o.status_ = .PROCESS ∨ op' = .finish) ∨
        c ≠ a ∧ s.Holds c call := by
  constructor
  · rintro ⟨o', p, hp, ho', hcall, hor⟩
    rcases List.mem_cons.mp hp with hp | hp
    · cases hp
      simp only [start_heap, put_heap, Function.update_self, Option.some.injEq] at ho'
      subst ho'
      exact .inl ⟨rfl, hcall, hor⟩
    · obtain ⟨hca, hp⟩ := (mem_erase_ops h.nodup ha).mp hp
      refine .inr ⟨hca, o', p, hp, ?_, hcall, hor⟩
      simpa [hca] using ho'
  · rintro (⟨rfl, hcall, hor⟩ | ⟨hca, o', p, hp, ho', hcall, hor⟩)
    · exact ⟨o, op', List.mem_cons_self, by simp, hcall, hor⟩
    · have hp' := List.mem_cons_of_mem (a, op') ((mem_erase_ops h.nodup ha).mpr ⟨hca, hp⟩)
      exact ⟨o', p, hp', by simpa [hca] using ho', hcall, hor⟩

theorem holds_new (hb : s.heap fresh = none) (k : κ) :
    (s.new k fresh).Holds c call ↔ s.Holds c call := by
  constructor
  · rintro ⟨o, p, hp, ho, hcall, hor⟩
    by_cases hc : c = fresh
    · subst hc
      simp only [new_heap, Function.update_self, Option.some.injEq] at ho
      subst ho
      cases hcall
    · have hp' : (c, p) ∈ s.ops := (List.mem_cons.mp hp).resolve_left fun he => hc (by cases he; rfl)
      exact ⟨o, p, hp', by simpa [hc] using ho, hcall, hor⟩
  · rintro ⟨o, p, hp, ho, hcall, hor⟩
    have hc : c ≠ fresh := by
      rintro rfl
      rw [hb] at ho
      cases ho
    exact ⟨o, p, List.mem_cons_of_mem _ hp, by simpa [hc] using ho, hcall, hor⟩

theorem Tidy.holds_serve (h : s.Tidy S) {i : ι} {r : Req} (hop : (tag, .done true) ∈ s.ops)
    (hb : s.heap fresh = none) (rep : Rep r) (state : σ) :
    (s.serve S tag fresh i r rep state).Holds c call ↔
      c = tag ∧ call = ⟨i, r, some rep⟩ ∨ c ≠ tag ∧ s.Holds c call := by
  have hrep := (h.new hb (S.kind r)).holds_replace (List.mem_cons_of_mem _ hop)
    ⟨S.kind r, .FINISH, some ⟨i, r, some rep⟩⟩ .finish c call
  rw [holds_new hb] at hrep
  refine Iff.trans Iff.rfl (hrep.trans ?_)
  simp [eq_comm]

theorem Tidy.holds_delete (h : s.Tidy S) (ha : (a, op) ∈ s.ops) (c : ℕ) (call : Call ι Rep) :
    ({ s with ops := s.ops.erase (a, op) }.put a none).Holds c call ↔ c ≠ a ∧ s.Holds c call := by
  constructor
  · rintro ⟨o, p, hp, ho, hcall, hor⟩
    obtain ⟨hca, hp⟩ := (mem_erase_ops h.nodup ha).mp hp
    exact ⟨hca, o, p, hp, by simpa [hca] using ho, hcall, hor⟩
  · rintro ⟨hca, o, p, hp, ho, hcall, hor⟩
    exact ⟨o, p, (mem_erase_ops h.nodup ha).mpr ⟨hca, hp⟩, by simpa [hca] using ho, hcall, hor⟩

/-- A reply was sent, or got lost. -/
theorem Tidy.done (h : s.Tidy S) (ha : (a, .finish) ∈ s.ops) (ok : Bool) :
    Tidy S ({ s with ops := s.ops.erase (a, .finish) }.start a (.done ok)) ∧
      ∀ c call, ({ s with ops := s.ops.erase (a, .finish) }.start a (.done ok)).Holds c call ↔
        c ≠ a ∧ s.Holds c call := by
  obtain ⟨o, ho, hfit⟩ := h.fits a _ ha
  have hput : ({ s with ops := s.ops.erase (a, .finish) }.put a (some o)).start a (.done ok) =
      { s with ops := s.ops.erase (a, .finish) }.start a (.done ok) := by
    simp [Server.put, Server.start, ← ho]
  cases hfit with
  | replies i r rep =>
    refine ⟨hput ▸ h.replace ha (.ended i r rep ok), fun c call => ?_⟩
    rw [← hput, h.holds_replace ha]
    simp

theorem Tidy.holds_shutdown (h : s.Tidy S) (c : ℕ) (call : Call ι Rep) :
    s.shutdown.Holds c call ↔ s.Holds c call := by
  constructor
  · rintro ⟨o, p, hp, ho, hcall, hor⟩
    obtain ⟨⟨c', p'⟩, hp', he⟩ := List.mem_map.mp hp
    dsimp only at he
    split at he
    · cases he
      exact ⟨o, p', hp', ho, hcall, hor.imp_right fun h => nomatch h⟩
    · cases he
      exact ⟨o, p, hp', ho, hcall, hor⟩
  · rintro ⟨o, p, hp, ho, hcall, hor⟩
    -- Who waits for a call has none.
    have hreq : p ≠ .request := by
      rintro rfl
      cases h.fits_of_heap hp ho
      cases hcall
    exact ⟨o, p, List.mem_map.mpr ⟨(c, p), hp, if_neg hreq⟩, ho, hcall, hor⟩

/-- A call that is not handled yet is an event of the queue. -/
theorem Tidy.heap_of_holds (h : s.Tidy S) {i : ι} {r : Req} (hhold : s.Holds a ⟨i, r, none⟩) :
    (a, .done true) ∈ s.ops ∧ s.heap a = some ⟨S.kind r, .PROCESS, some ⟨i, r, none⟩⟩ := by
  obtain ⟨o, op, hop, ho, hcall, -⟩ := hhold
  cases h.fits_of_heap hop ho with
  | called i r =>
    cases hcall
    exact ⟨hop, ho⟩
  | listens | refused | replies | ended => cases hcall

/-- The turn of a call whose handler throws. -/
theorem Tidy.turn_throws (h : s.Tidy S) {i : ι} {r : Req} {e : String}
    (hhold : s.Holds tag ⟨i, r, none⟩) (he : S.handle r s.state = .error e) (fresh : ℕ) :
    s.turn S tag true fresh = .error (.thrown e) := by
  obtain ⟨hop, ho⟩ := h.heap_of_holds hhold
  obtain ⟨h0, -⟩ | ⟨i', r', -, ho', ⟨e', he', hturn⟩ | ⟨rep, state, hok, -⟩⟩ |
    ⟨i', r', rep, -, ho', -⟩ := h.turn_cases hop fresh
  · cases h0
  · cases congrArg (Option.map Servicer.call) (ho.symm.trans ho')
    rw [he] at he'
    cases he'
    exact hturn
  · cases congrArg (Option.map Servicer.call) (ho.symm.trans ho')
    rw [he] at hok
    cases hok
  · cases congrArg (Option.map Servicer.status_) (ho.symm.trans ho')

/-- Only a shutdown makes a servicer fail that waits for a call. -/
theorem Tidy.down_of_listens (h : s.Tidy S) {k : κ} (hop : (a, .done false) ∈ s.ops)
    (hk : s.Listens k a) : s.down = true := by
  obtain ⟨call, ho⟩ := hk
  cases h.fits_of_heap hop ho with
  | refused _ hd => exact hd

end Server

/-! ## What holds in every run -/

namespace System

variable {x x' : System κ ι σ C Rep} {K : Set κ} {i j : ι}

variable (S next K) in
/-- **The invariant.** -/
structure Inv (x : System κ ι σ C Rep) : Prop where
  tidy : x.server.Tidy S
  listening : x.server.Listening K
  /-- The client of a call waits for its reply. -/
  held : ∀ a call, x.server.Holds a call → x.phase call.client = .taken a ∧
    ∃ k, next (x.client call.client) = .call call.request_ k
  taken : ∀ i a, x.phase i = .taken a → ∃ call, x.server.Holds a call ∧ call.client = i
  sent : ∀ i, x.phase i = .sent → ∃ r k, next (x.client i) = .call r k
  lost : ∀ i, x.phase i = .lost → x.gone i = true
  notOk : ∀ a, (a, .done false) ∈ x.server.ops →
    (∃ k, x.server.Listens k a) ∨ ∃ i, x.gone i = true

theorem Inv.init [DecidableEq κ] {kinds : List κ} (hkinds : kinds.Nodup) (state : σ)
    (client : ι → C) : (init kinds state client : System κ ι σ C Rep).Inv S next {k | k ∈ kinds} := by
  let s : Server κ ι σ Rep := .handleRpcs kinds state
  have hspec : s.Tidy S ∧ s.Listening {k | k ∈ kinds} := Server.handleRpcs_spec hkinds state
  have hops : ∀ a op, (a, op) ∈ s.ops → op = .request := (Server.handleRpcs_init kinds state).2.2
  refine ⟨hspec.1, hspec.2, ?_, nofun, nofun, nofun, ?_⟩
  · rintro a call ⟨o, op, hop, ho, hcall, -⟩
    obtain rfl := hops a op hop
    cases hspec.1.fits_of_heap hop ho
    cases hcall
  · intro a ha
    cases hops a _ ha

/-- While no call is on its way, the clients may go on as others. -/
theorem Inv.restart {C' : Type} {next' : C' → Next C' Rep} (h : x.Inv S next K)
    (hidle : ∀ i, x.phase i = .idle) (client : ι → C') :
    System.Inv S next' K { x with client := client } := by
  have hne : ∀ i, x.phase i ≠ .sent ∧ x.phase i ≠ .lost ∧ ∀ a, x.phase i ≠ .taken a := by
    intro i
    rw [hidle]
    exact ⟨nofun, nofun, nofun⟩
  refine ⟨h.tidy, h.listening, fun a call hc => ?_, fun i a hi => ?_, fun i hi => ?_, fun i hi => ?_,
    h.notOk⟩
  · exact absurd (h.held a call hc).1 ((hne _).2.2 a)
  · exact absurd hi ((hne i).2.2 a)
  · exact absurd hi (hne i).1
  · exact absurd hi (hne i).2.1

/-- The calls at the servicers are of different clients. -/
theorem Inv.held_unique (h : x.Inv S next K) {a a' : ℕ} {call call' : Call ι Rep}
    (hc : x.server.Holds a call) (hc' : x.server.Holds a' call')
    (he : call.client = call'.client) : a = a' := by
  have hphase := (h.held a call hc).1
  rw [he, (h.held a' call' hc').1] at hphase
  cases hphase
  rfl

/-! ### The steps keep the invariant -/

section

variable [DecidableEq ι]

theorem Inv.take (h : x.Inv S next K) {r : Req} {k : Rep r → C} {a : ℕ} {o : Servicer κ ι Rep}
    (hphase : x.phase i = .sent) (hnext : next (x.client i) = .call r k)
    (hop : (a, .request) ∈ x.server.ops) (ho : x.server.heap a = some o)
    (hkind : o.kind = S.kind r) : System.Inv S next K { x with
      server := ({ x.server with ops := x.server.ops.erase (a, .request) }.put a
        (some { o with call := some ⟨i, r, none⟩ })).start a (.done true)
      phase := Function.update x.phase i (.taken a) } := by
  have hfit := h.tidy.fits_of_heap hop ho
  cases hfit with
  | listens k₀ =>
    obtain rfl : k₀ = S.kind r := hkind
    have hholds : ∀ c call, x.server.Holds c call → c ≠ a := by
      rintro c call ⟨o', -, -, ho', hcall, -⟩ rfl
      rw [ho] at ho'
      cases ho'
      cases hcall
    refine ⟨h.tidy.replace hop (.called i r), h.listening.congr fun k b => Server.listens_put ho,
      fun c call hc => ?_, fun j c hj => ?_, fun j hj => ?_, fun j hj => ?_, fun c hc => ?_⟩
    · rcases (h.tidy.holds_replace hop _ _ _ _).mp hc with ⟨rfl, hcall, -⟩ | ⟨-, hc⟩
      · cases hcall
        exact ⟨Function.update_self .., k, hnext⟩
      · obtain ⟨hp, hk⟩ := h.held c call hc
        have hne : call.client ≠ i := by
          rintro rfl
          rw [hp] at hphase
          cases hphase
        exact ⟨by simpa [hne] using hp, hk⟩
    · by_cases hji : j = i
      · subst hji
        simp only [Function.update_self, Phase.taken.injEq] at hj
        subst hj
        exact ⟨⟨j, r, none⟩, (h.tidy.holds_replace hop _ _ _ _).mpr (.inl ⟨rfl, rfl, .inl rfl⟩), rfl⟩
      · obtain ⟨call, hc, hcl⟩ := h.taken j c (by simpa [hji] using hj)
        exact ⟨call, (h.tidy.holds_replace hop _ _ _ _).mpr (.inr ⟨hholds c call hc, hc⟩), hcl⟩
    · have hji : j ≠ i := by
        rintro rfl
        simp at hj
      exact h.sent j (by simpa [hji] using hj)
    · have hji : j ≠ i := by
        rintro rfl
        simp at hj
      exact h.lost j (by simpa [hji] using hj)
    · rcases List.mem_cons.mp hc with hc | hc
      · cases hc
      · have hnot := h.notOk c ((mem_erase_ops h.tidy.nodup hop).mp hc).2
        exact hnot.imp_left fun ⟨k, hk⟩ => ⟨k, (Server.listens_put ho).mpr hk⟩

omit [DecidableEq ι] in
theorem Inv.serve [DecidableEq κ] (h : x.Inv S next K) {tag fresh : ℕ} {r : Req}
    (hop : (tag, .done true) ∈ x.server.ops)
    (ho : x.server.heap tag = some ⟨S.kind r, .PROCESS, some ⟨i, r, none⟩⟩)
    (hb : x.server.heap fresh = none) (rep : Rep r) (state : σ) : System.Inv S next K
      { x with server := x.server.serve S tag fresh i r rep state } := by
  have hhold : x.server.Holds tag ⟨i, r, none⟩ := ⟨_, _, hop, ho, rfl, .inl rfl⟩
  refine ⟨h.tidy.serve hop hb rep state, h.listening.serve ho hb rep state, fun c call hc => ?_,
    fun j c hj => ?_, h.sent, h.lost, fun c hc => ?_⟩
  · rcases (h.tidy.holds_serve hop hb rep state).mp hc with ⟨rfl, rfl⟩ | ⟨-, hc⟩
    · exact h.held c ⟨i, r, none⟩ hhold
    · exact h.held c call hc
  · obtain ⟨call, hc, hcl⟩ := h.taken j c hj
    by_cases hct : c = tag
    · subst hct
      obtain ⟨hp, -⟩ := h.held c _ hhold
      obtain ⟨hp', -⟩ := h.held c call hc
      obtain ⟨o', op', hop', ho', hcall', -⟩ := hc
      rw [ho] at ho'
      cases ho'
      cases hcall'
      exact ⟨_, (h.tidy.holds_serve hop hb rep state).mpr (.inl ⟨rfl, rfl⟩), hcl⟩
    · exact ⟨call, (h.tidy.holds_serve hop hb rep state).mpr (.inr ⟨hct, hc⟩), hcl⟩
  · have hops : (c, Op.done false) ∈ (tag, .finish) ::
        ((fresh, x.server.requestOp) :: x.server.ops).erase (tag, .done true) := hc
    rcases List.mem_cons.mp hops with he | hmem
    · cases he
    · rcases List.mem_cons.mp (List.mem_of_mem_erase hmem) with he | hold
      · obtain ⟨rfl, -⟩ := Prod.mk.inj he
        exact .inl ⟨S.kind r, (Server.listens_serve ho hb rep state _ _).mpr (.inl ⟨rfl, rfl⟩)⟩
      · refine (h.notOk c hold).imp_left fun ⟨k, hk⟩ => ⟨k, ?_⟩
        refine (Server.listens_serve ho hb rep state _ _).mpr (.inr ⟨?_, hk⟩)
        rintro rfl
        cases h.tidy.op_unique hop hold

/-- A reply has arrived, or has got lost. -/
theorem Inv.done (h : x.Inv S next K) {a : ℕ} {call : Call ι Rep} (hop : (a, .finish) ∈ x.server.ops)
    (hhold : x.server.Holds a call) (c : C) {p : Phase} (ok : Bool)
    (hp : p = .idle ∨ p = .lost ∧ x.gone call.client = true)
    (hok : ok = false → x.gone call.client = true) : System.Inv S next K
      { server := { x.server with ops := x.server.ops.erase (a, .finish) }.start a (.done ok)
        client := Function.update x.client call.client c
        phase := Function.update x.phase call.client p
        gone := x.gone } := by
  obtain ⟨htidy, hholds⟩ := h.tidy.done hop ok
  refine ⟨htidy, h.listening.congr fun _ _ => Iff.rfl, fun b call' hb => ?_, fun j b hj => ?_,
    fun j hj => ?_, fun j hj => ?_, fun b hb => ?_⟩
  · obtain ⟨hba, hb⟩ := (hholds b call').mp hb
    have hne : call'.client ≠ call.client := fun he => hba (h.held_unique hb hhold he)
    simpa [hne] using h.held b call' hb
  · have hji : j ≠ call.client := by
      rintro rfl
      rcases hp with rfl | ⟨rfl, -⟩
      · simp at hj
      · simp at hj
    obtain ⟨call', hc, rfl⟩ := h.taken j b (by simpa [hji] using hj)
    refine ⟨call', (hholds b call').mpr ⟨?_, hc⟩, rfl⟩
    rintro rfl
    have hphase := (h.held b call hhold).1
    obtain ⟨o, op, -, ho, hcall, -⟩ := hhold
    obtain ⟨o', op', -, ho', hcall', -⟩ := hc
    rw [ho] at ho'
    cases ho'
    rw [hcall] at hcall'
    cases hcall'
    exact hji rfl
  · have hji : j ≠ call.client := by
      rintro rfl
      rcases hp with rfl | ⟨rfl, -⟩
      · simp at hj
      · simp at hj
    simpa [hji] using h.sent j (by simpa [hji] using hj)
  · by_cases hji : j = call.client
    · subst hji
      rcases hp with rfl | ⟨rfl, hgone⟩
      · simp at hj
      · exact hgone
    · exact h.lost j (by simpa [hji] using hj)
  · rcases List.mem_cons.mp hb with he | hb
    · cases he
      exact .inr ⟨call.client, hok rfl⟩
    · exact h.notOk b ((mem_erase_ops h.tidy.nodup hop).mp hb).2

omit [DecidableEq ι] in
theorem Inv.delete (h : x.Inv S next K) {tag : ℕ} {r : Req} {rep : Rep r}
    (hop : (tag, .done true) ∈ x.server.ops)
    (ho : x.server.heap tag = some ⟨S.kind r, .FINISH, some ⟨i, r, some rep⟩⟩) :
    System.Inv S next K { x with server :=
      { x.server with ops := x.server.ops.erase (tag, .done true) }.put tag none } := by
  have hnot : ∀ c call, x.server.Holds c call → c ≠ tag := by
    rintro c call ⟨o, op, hop', ho', -, hor⟩ rfl
    rw [ho] at ho'
    cases ho'
    obtain rfl := h.tidy.op_unique hop hop'
    rcases hor with hor | hor <;> cases hor
  have hnone : ∀ k, ¬ x.server.Listens k tag := by
    rintro k ⟨call, hc⟩
    rw [ho] at hc
    cases hc
  refine ⟨h.tidy.delete hop, h.listening.congr fun k b => Server.listens_put_none hnone,
    fun c call hc => h.held c call ((h.tidy.holds_delete hop _ _).mp hc).2, fun j c hj => ?_, h.sent,
    h.lost, fun c hc => (h.notOk c (List.mem_of_mem_erase hc)).imp_left fun ⟨k, hk⟩ =>
      ⟨k, (Server.listens_put_none hnone).mpr hk⟩⟩
  · obtain ⟨call, hc, hcl⟩ := h.taken j c hj
    exact ⟨call, (h.tidy.holds_delete hop _ _).mpr ⟨hnot c call hc, hc⟩, hcl⟩

omit [DecidableEq ι] in
/-- The shutdown of the server makes its listeners fail. -/
theorem Inv.shutdown (h : x.Inv S next K) :
    System.Inv S next K { x with server := x.server.shutdown } where
  tidy := h.tidy.shutdown
  listening := h.listening.congr fun _ _ => Iff.rfl
  held a call ha := h.held a call ((h.tidy.holds_shutdown _ _).mp ha)
  taken j a hj := by
    obtain ⟨call, hc, hcl⟩ := h.taken j a hj
    exact ⟨call, (h.tidy.holds_shutdown _ _).mpr hc, hcl⟩
  sent := h.sent
  lost := h.lost
  notOk a ha := by
    obtain ⟨⟨a, op⟩, hop, he⟩ := List.mem_map.mp ha
    obtain ⟨o, ho, hfit⟩ := h.tidy.fits a op hop
    cases hfit with
    | listens k | refused k hd =>
      cases he
      exact .inl ⟨k, none, ho⟩
    | called i r | replies i r rep => cases he
    | ended i r rep ok =>
      cases he
      exact h.notOk _ hop

omit [DecidableEq ι] in
theorem Inv.turn [DecidableEq κ] (h : x.Inv S next K) {tag fresh : ℕ} {ok : Bool}
    {s : Server κ ι σ Rep} (hop : (tag, .done ok) ∈ x.server.ops)
    (hfresh : x.server.heap fresh = none) (hturn : x.server.turn S tag ok fresh = .ok s) :
    System.Inv S next K { x with server := s } := by
  obtain ⟨-, he⟩ | ⟨i, r, rfl, ho, ⟨e, -, he⟩ | ⟨rep, state, -, he⟩⟩ | ⟨i, r, rep, rfl, ho, he⟩ :=
    h.tidy.turn_cases hop fresh
  · rw [he] at hturn
    cases hturn
  · rw [he] at hturn
    cases hturn
  · rw [he] at hturn
    cases hturn
    exact h.serve hop ho hfresh rep state
  · rw [he] at hturn
    cases hturn
    exact h.delete hop ho

/-- A client that does not wait for a reply goes on. -/
theorem Inv.go (h : x.Inv S next K) (hphase : x.phase i = .idle) (c : C) :
    System.Inv S next K { x with client := Function.update x.client i c } := by
  refine ⟨h.tidy, h.listening, fun a call ha => ?_, h.taken, fun j hj => ?_, h.lost, h.notOk⟩
  · obtain ⟨hp, hk⟩ := h.held a call ha
    have hne : call.client ≠ i := by
      rintro rfl
      rw [hp] at hphase
      cases hphase
    exact ⟨hp, by simpa [hne] using hk⟩
  · have hji : j ≠ i := by
      rintro rfl
      rw [hj] at hphase
      cases hphase
    simpa [hji] using h.sent j hj

theorem Inv.send (h : x.Inv S next K) {r : Req} {k : Rep r → C} (hphase : x.phase i = .idle)
    (hnext : next (x.client i) = .call r k) :
    System.Inv S next K { x with phase := Function.update x.phase i .sent } := by
  refine ⟨h.tidy, h.listening, fun a call ha => ?_, fun j a hj => ?_, fun j hj => ?_,
    fun j hj => ?_, h.notOk⟩
  · obtain ⟨hp, hk⟩ := h.held a call ha
    have hne : call.client ≠ i := by
      rintro rfl
      rw [hp] at hphase
      cases hphase
    exact ⟨by simpa [hne] using hp, hk⟩
  · have hji : j ≠ i := by
      rintro rfl
      simp at hj
    exact h.taken j a (by simpa [hji] using hj)
  · by_cases hji : j = i
    · subst hji
      exact ⟨r, k, hnext⟩
    · exact h.sent j (by simpa [hji] using hj)
  · have hji : j ≠ i := by
      rintro rfl
      simp at hj
    exact h.lost j (by simpa [hji] using hj)

theorem gone_update (x : System κ ι σ C Rep) (i j : ι) (h : x.gone j = true) :
    Function.update x.gone i true j = true := by
  by_cases hj : j = i
  · subst hj
    exact Function.update_self ..
  · rwa [Function.update_of_ne hj]

theorem Inv.leave (h : x.Inv S next K) (i : ι) :
    System.Inv S next K { x with gone := Function.update x.gone i true } where
  tidy := h.tidy
  listening := h.listening
  held := h.held
  taken := h.taken
  sent := h.sent
  lost j hj := gone_update x i j (h.lost j hj)
  notOk a ha := (h.notOk a ha).imp_right fun ⟨j, hj⟩ => ⟨j, gone_update x i j hj⟩

/-- **Every step keeps the invariant.** -/
theorem Inv.step [DecidableEq κ] (h : x.Inv S next K) (hs : Step S next env x x') :
    x'.Inv S next K := by
  cases hs with
  | go hgone hphase hnext => exact h.go hphase _
  | send hgone hphase hnext => exact h.send hphase hnext
  | take hgone hphase hnext hop ho hkind => exact h.take hphase hnext hop ho hkind
  | turn hop hfresh hturn => exact h.turn hop hfresh hturn
  | finish hgone hop ho hcall hnext =>
    exact h.done hop ⟨_, _, hop, ho, hcall, .inr rfl⟩ _ true (.inl rfl) nofun
  | @lose a o call ok hgone hop ho hcall =>
    have hdone := h.done hop ⟨_, _, hop, ho, hcall, .inr rfl⟩ (x.client call.client) ok
      (.inr ⟨rfl, hgone⟩) fun _ => hgone
    rwa [Function.update_eq_self] at hdone
  | leave i => exact h.leave i
  | shutdown => exact h.shutdown
  | env henv =>
    exact ⟨h.tidy.congr rfl rfl rfl, h.listening.congr fun _ _ => Iff.rfl, h.held, h.taken, h.sent,
      h.lost, h.notOk⟩

theorem Inv.runs [DecidableEq κ] (h : x.Inv S next K) (hr : Runs S next env x x') :
    x'.Inv S next K := by
  induction hr with
  | refl => exact h
  | tail _ hs ih => exact ih.step hs

/-- What the handlers and the other threads keep holds of the state in every run. -/
theorem Inv.runs_state [DecidableEq κ] {P : σ → Prop} (h : x.Inv S next K) (hP : P x.server.state)
    (hhandle : ∀ r s y, P s → S.handle r s = .ok y → P y.2) (henv : ∀ s s', P s → env s s' → P s')
    (hr : Runs S next env x x') : P x'.server.state := by
  induction hr with
  | refl => exact hP
  | tail hr hs ih =>
    cases hs with
    | go | send | take | finish | lose | leave | shutdown => exact ih
    | env he => exact henv _ _ ih he
    | @turn tag ok fresh s hop hfresh hturn =>
      obtain ⟨-, he⟩ | ⟨i, r, rfl, -, ⟨e, -, he⟩ | ⟨rep, state, hm, he⟩⟩ |
        ⟨i, r, rep, rfl, -, he⟩ := (h.runs hr).tidy.turn_cases hop fresh
      · rw [he] at hturn
        cases hturn
      · rw [he] at hturn
        cases hturn
      · rw [he] at hturn
        cases hturn
        exact hhandle r _ _ ih hm
      · rw [he] at hturn
        cases hturn
        exact ih

omit [DecidableEq ι] in
/-- **How the loop ends**: with an exception of the handler of a call, or after a shutdown or when a
client has gone. -/
theorem Inv.turn_error (h : x.Inv S next K) {tag fresh : ℕ} {ok : Bool} {e : Exit}
    (hop : (tag, .done ok) ∈ x.server.ops) (hturn : x.server.turn S tag ok fresh = .error e) :
    (∃ i r m, x.server.Holds tag ⟨i, r, none⟩ ∧ S.handle r x.server.state = .error m ∧
      e = .thrown m) ∨
    ok = false ∧ e = .notOk ∧ (x.server.down = true ∨ ∃ i, x.gone i = true) := by
  obtain ⟨rfl, he⟩ | ⟨i, r, rfl, ho, ⟨m, hm, he⟩ | ⟨rep, state, -, he⟩⟩ | ⟨i, r, rep, rfl, ho, he⟩ :=
    h.tidy.turn_cases hop fresh
  · rw [he] at hturn
    cases hturn
    exact .inr ⟨rfl, rfl, (h.notOk tag hop).imp_left fun ⟨k, hk⟩ => h.tidy.down_of_listens hop hk⟩
  · rw [he] at hturn
    cases hturn
    exact .inl ⟨i, r, m, ⟨_, _, hop, ho, rfl, .inl rfl⟩, hm, rfl⟩
  · rw [he] at hturn
    cases hturn
  · rw [he] at hturn
    cases hturn

omit [DecidableEq ι] in
/-- If no client has gone, the loop ends at a servicer that waits for a call, and all calls of its
method that were taken have been handled. -/
theorem Inv.handled_of_notOk (h : x.Inv S next K) (hgone : ∀ i, x.gone i = false) {tag : ℕ}
    (hop : (tag, .done false) ∈ x.server.ops) : ∃ k ∈ K, x.server.Listens k tag ∧
      ∀ a i r, x.server.Holds a ⟨i, r, none⟩ → S.kind r ≠ k := by
  obtain ⟨k, hk⟩ := (h.notOk tag hop).resolve_right fun ⟨i, hi⟩ => by
    rw [hgone i] at hi
    cases hi
  obtain ⟨listener, hlistener⟩ := h.listening
  refine ⟨k, ((hlistener k tag).mp hk).1, hk, ?_⟩
  rintro a i r hhold rfl
  obtain ⟨hop', ho⟩ := h.tidy.heap_of_holds hhold
  obtain rfl : a = tag := by
    rw [((hlistener _ a).mp ⟨_, ho⟩).2, ((hlistener _ tag).mp hk).2]
  cases h.tidy.op_unique hop hop'

end

end System

/-! ## Atomic calls -/

/-- A server and its clients, whose calls are atomic. -/
structure Atomic (ι σ C : Type) where
  state : σ
  client : ι → C

namespace Atomic

variable [DecidableEq ι]

variable (S next env) in
inductive Step : Atomic ι σ C → Atomic ι σ C → Prop
  | go {t : Atomic ι σ C} {i : ι} {c : C} (hnext : next (t.client i) = .go c) :
      Step t { t with client := Function.update t.client i c }
  | call {t : Atomic ι σ C} {i : ι} {r : Req} {k : Rep r → C} {rep : Rep r} {state : σ}
      (hnext : next (t.client i) = .call r k) (hhandle : S.handle r t.state = .ok (rep, state)) :
      Step t ⟨state, Function.update t.client i (k rep)⟩
  | env {t : Atomic ι σ C} {state : σ} (henv : env t.state state) :
      Step t { t with state := state }

variable (S next env) in
/-- The states of the runs. -/
abbrev Runs : Atomic ι σ C → Atomic ι σ C → Prop := Relation.ReflTransGen (Step S next env)

end Atomic

/-- **The state of the asynchronous system and that of the atomic one.** A client whose call was
handled waits for the reply in the one, and has gone on in the other. -/
structure Sim (next : C → Next C Rep) (x : System κ ι σ C Rep) (t : Atomic ι σ C) : Prop where
  state : t.state = x.server.state
  free : ∀ i, x.phase i = .idle ∨ x.phase i = .sent → t.client i = x.client i
  called : ∀ a i r, x.server.Holds a ⟨i, r, none⟩ → t.client i = x.client i
  replied : ∀ a i r rep k, x.server.Holds a ⟨i, r, some rep⟩ →
    next (x.client i) = .call r k → t.client i = k rep
  lost : ∀ i, x.phase i = .lost → ∃ r k rep, next (x.client i) = .call r k ∧ t.client i = k rep

namespace Sim

variable {x x' : System κ ι σ C Rep} {t : Atomic ι σ C} {K : Set κ} {i : ι}

/-- Where no call is on its way, the systems are in the same state. -/
theorem of_idle (hinv : x.Inv S next K) (hidle : ∀ i, x.phase i = .idle) :
    Sim next x ⟨x.server.state, x.client⟩ where
  state := rfl
  free _ _ := rfl
  called _ _ _ _ := rfl
  replied a i r rep k hc _ := by
    have hphase := (hinv.held a _ hc).1
    rw [hidle] at hphase
    cases hphase
  lost i hi := by
    rw [hidle] at hi
    cases hi

theorem init [DecidableEq κ] {kinds : List κ} (hkinds : kinds.Nodup) (S : Service κ σ Rep)
    (state : σ) (client : ι → C) :
    Sim next (System.init kinds state client : System κ ι σ C Rep) ⟨state, client⟩ := by
  have hinv : (System.init kinds state client : System κ ι σ C Rep).Inv S next {k | k ∈ kinds} :=
    .init hkinds state client
  have hsim := of_idle hinv fun _ => rfl
  rwa [show (System.init kinds state client : System κ ι σ C Rep).server.state = state from
    (Server.handleRpcs_init kinds state).1] at hsim

variable [DecidableEq ι]

/-- The runtime gives a call to a servicer. -/
theorem take (h : Sim next x t) (hinv : x.Inv S next K) {r : Req} {a : ℕ} {o : Servicer κ ι Rep}
    (hphase : x.phase i = .sent) (hop : (a, .request) ∈ x.server.ops) : Sim next { x with
      server := ({ x.server with ops := x.server.ops.erase (a, .request) }.put a
        (some { o with call := some ⟨i, r, none⟩ })).start a (.done true)
      phase := Function.update x.phase i (.taken a) } t where
  state := h.state
  free j hj := by
    have hji : j ≠ i := by
      rintro rfl
      simp at hj
    exact h.free j (by simpa [hji] using hj)
  called c j r' hc := by
    rcases (hinv.tidy.holds_replace hop _ _ _ _).mp hc with ⟨rfl, hcall, -⟩ | ⟨-, hc⟩
    · cases hcall
      exact h.free i (.inr hphase)
    · exact h.called c j r' hc
  replied c j r' rep k hc hk := by
    rcases (hinv.tidy.holds_replace hop _ _ _ _).mp hc with ⟨rfl, hcall, -⟩ | ⟨-, hc⟩
    · cases hcall
    · exact h.replied c j r' rep k hc hk
  lost j hj := by
    have hji : j ≠ i := by
      rintro rfl
      simp at hj
    exact h.lost j (by simpa [hji] using hj)

/-- The handler of a call runs: the atomic call takes place. -/
theorem serve (h : Sim next x t) (hinv : x.Inv S next K) {tag fresh : ℕ} {r : Req}
    (hop : (tag, .done true) ∈ x.server.ops)
    (ho : x.server.heap tag = some ⟨S.kind r, .PROCESS, some ⟨i, r, none⟩⟩)
    (hb : x.server.heap fresh = none) {rep : Rep r} {state : σ}
    (hhandle : S.handle r x.server.state = .ok (rep, state)) (env : σ → σ → Prop) :
    ∃ t', Atomic.Step S next env t t' ∧
      Sim next { x with server := x.server.serve S tag fresh i r rep state } t' := by
  have hhold : x.server.Holds tag ⟨i, r, none⟩ := ⟨_, _, hop, ho, rfl, .inl rfl⟩
  obtain ⟨hphase, k, hk⟩ := hinv.held tag _ hhold
  have hclient : t.client i = x.client i := h.called tag i r hhold
  refine ⟨_, .call (i := i) (by rw [hclient]; exact hk) (by rw [h.state]; exact hhandle), rfl,
    fun j hj => ?_, fun c j r' hc => ?_, fun c j r' rep' k' hc hk' => ?_, fun j hj => ?_⟩
  · have hji : j ≠ i := by
      rintro rfl
      rw [show x.phase j = .taken tag from hphase] at hj
      rcases hj with hj | hj <;> cases hj
    exact (Function.update_of_ne hji _ _).trans (h.free j hj)
  · rcases (hinv.tidy.holds_serve hop hb rep state).mp hc with ⟨-, hcall⟩ | ⟨hct, hc⟩
    · cases hcall
    · have hji : j ≠ i := fun hji => hct (hinv.held_unique hc hhold hji)
      exact (Function.update_of_ne hji _ _).trans (h.called c j r' hc)
  · rcases (hinv.tidy.holds_serve hop hb rep state).mp hc with ⟨-, hcall⟩ | ⟨hct, hc⟩
    · cases hcall
      have hkk : Next.call r k = Next.call r k' := hk.symm.trans hk'
      cases hkk
      exact Function.update_self ..
    · have hji : j ≠ i := fun hji => hct (hinv.held_unique hc hhold hji)
      exact (Function.update_of_ne hji _ _).trans (h.replied c j r' rep' k' hc hk')
  · have hji : j ≠ i := by
      rintro rfl
      rw [show x.phase j = .taken tag from hphase] at hj
      cases hj
    obtain ⟨r', k', rep', hk', ht⟩ := h.lost j hj
    exact ⟨r', k', rep', hk', (Function.update_of_ne hji _ _).trans ht⟩

/-- A reply has arrived, or has got lost. -/
theorem done (h : Sim next x t) (hinv : x.Inv S next K) {a : ℕ} {call : Call ι Rep}
    (hop : (a, .finish) ∈ x.server.ops) (hhold : x.server.Holds a call) {c : C} {p : Phase}
    (ok : Bool) (hp : p = .idle ∧ t.client call.client = c ∨
      p = .lost ∧ c = x.client call.client) : Sim next
      { server := { x.server with ops := x.server.ops.erase (a, .finish) }.start a (.done ok)
        client := Function.update x.client call.client c
        phase := Function.update x.phase call.client p
        gone := x.gone } t := by
  obtain ⟨-, hholds⟩ := hinv.tidy.done hop ok
  have hne : ∀ b call', b ≠ a ∧ x.server.Holds b call' → call'.client ≠ call.client :=
    fun b call' hb he => hb.1 (hinv.held_unique hb.2 hhold he)
  refine ⟨h.state, fun j hj => ?_, fun b j r hb => ?_, fun b j r rep k hb hk => ?_, fun j hj => ?_⟩
  · by_cases hji : j = call.client
    · subst hji
      rcases hp with ⟨rfl, hc⟩ | ⟨rfl, -⟩
      · simpa using hc
      · simp at hj
    · simpa [hji] using h.free j (by simpa [hji] using hj)
  · have hb := (hholds b _).mp hb
    simpa [hne b _ hb] using h.called b j r hb.2
  · have hb := (hholds b _).mp hb
    exact h.replied b j r rep k hb.2 (by simpa [hne b _ hb] using hk)
  · by_cases hji : j = call.client
    · subst hji
      rcases hp with ⟨rfl, -⟩ | ⟨rfl, rfl⟩
      · simp at hj
      · obtain ⟨-, k, hk⟩ := hinv.held a call hhold
        obtain ⟨o, ho, hfit⟩ := hinv.tidy.fits a _ hop
        cases hfit with
        | replies i r rep =>
          obtain ⟨o', op', hop', ho', hcall, -⟩ := id hhold
          rw [ho] at ho'
          cases ho'
          cases hcall
          exact ⟨r, k, rep, by simpa using hk, h.replied a i r rep k hhold hk⟩
    · obtain ⟨r, k, rep, hk, ht⟩ := h.lost j (by simpa [hji] using hj)
      exact ⟨r, k, rep, by simpa [hji] using hk, ht⟩

/-- A client that does not wait for a reply goes on. -/
theorem go (h : Sim next x t) (hinv : x.Inv S next K) (hphase : x.phase i = .idle) (c : C) :
    Sim next { x with client := Function.update x.client i c }
      { t with client := Function.update t.client i c } := by
  have hne : ∀ a call, x.server.Holds a call → call.client ≠ i := by
    rintro a call hc rfl
    rw [(hinv.held a call hc).1] at hphase
    cases hphase
  refine ⟨h.state, fun j hj => ?_, fun a j r hc => ?_, fun a j r rep k hc hk => ?_, fun j hj => ?_⟩
  · by_cases hji : j = i
    · subst hji
      simp
    · simpa [hji] using h.free j hj
  · simpa [hne a _ hc] using h.called a j r hc
  · have hji : j ≠ i := hne a _ hc
    simpa [hji] using h.replied a j r rep k hc (by simpa [hji] using hk)
  · have hji : j ≠ i := by
      rintro rfl
      rw [show x.phase j = .lost from hj] at hphase
      cases hphase
    obtain ⟨r, k, rep, hk, ht⟩ := h.lost j hj
    exact ⟨r, k, rep, by simpa [hji] using hk, by simpa [hji] using ht⟩

/-- **A step of the asynchronous system is one of the atomic system, or none.** -/
theorem step [DecidableEq κ] (h : Sim next x t) (hinv : x.Inv S next K)
    (hs : System.Step S next env x x') :
    ∃ t', Relation.ReflGen (Atomic.Step S next env) t t' ∧ Sim next x' t' := by
  cases hs with
  | @go i c hgone hphase hnext =>
    have hclient : t.client i = x.client i := h.free i (.inl hphase)
    refine ⟨_, .single (.go (i := i) (c := c) ?_), h.go hinv hphase c⟩
    rw [hclient]
    exact hnext
  | @send i r k hgone hphase hnext =>
    refine ⟨t, .refl, h.state, fun j hj => ?_, h.called, h.replied, fun j hj => ?_⟩
    · by_cases hji : j = i
      · subst hji
        exact h.free j (.inl hphase)
      · exact h.free j (by simpa [hji] using hj)
    · have hji : j ≠ i := by
        rintro rfl
        simp at hj
      exact h.lost j (by simpa [hji] using hj)
  | take hgone hphase hnext hop ho hkind => exact ⟨t, .refl, h.take hinv hphase hop⟩
  | @turn tag ok fresh s hop hfresh hturn =>
    obtain ⟨-, he⟩ | ⟨i, r, rfl, ho, ⟨e, -, he⟩ | ⟨rep, state, hm, he⟩⟩ |
      ⟨i, r, rep, rfl, ho, he⟩ := hinv.tidy.turn_cases hop fresh
    · rw [he] at hturn
      cases hturn
    · rw [he] at hturn
      cases hturn
    · rw [he] at hturn
      cases hturn
      obtain ⟨t', hstep, hsim⟩ := h.serve hinv hop ho hfresh hm env
      exact ⟨t', .single hstep, hsim⟩
    · rw [he] at hturn
      cases hturn
      have hholds := hinv.tidy.holds_delete hop
      exact ⟨t, .refl, h.state, h.free, fun a j r' hc => h.called a j r' ((hholds a _).mp hc).2,
        fun a j r' rep' k hc => h.replied a j r' rep' k ((hholds a _).mp hc).2, h.lost⟩
  | @finish a o i r rep k hgone hop ho hcall hnext =>
    have hhold : x.server.Holds a ⟨i, r, some rep⟩ := ⟨_, _, hop, ho, hcall, .inr rfl⟩
    exact ⟨t, .refl, h.done hinv hop hhold true (.inl ⟨rfl, h.replied a i r rep k hhold hnext⟩)⟩
  | @lose a o call ok hgone hop ho hcall =>
    have hhold : x.server.Holds a call := ⟨_, _, hop, ho, hcall, .inr rfl⟩
    have hdone := h.done hinv hop hhold (c := x.client call.client) ok (.inr ⟨rfl, rfl⟩)
    rw [Function.update_eq_self] at hdone
    exact ⟨t, .refl, hdone⟩
  | leave i => exact ⟨t, .refl, h.state, h.free, h.called, h.replied, h.lost⟩
  | shutdown =>
    have hholds := hinv.tidy.holds_shutdown
    exact ⟨t, .refl, h.state, h.free, fun a j r hc => h.called a j r ((hholds a _).mp hc),
      fun a j r rep k hc => h.replied a j r rep k ((hholds a _).mp hc), h.lost⟩
  | @env state henv =>
    refine ⟨{ t with state := state }, .single (.env ?_), rfl, h.free, h.called, h.replied,
      h.lost⟩
    rw [h.state]
    exact henv

omit [DecidableEq ι] in
/-- A client is where it is in the atomic system, or it waits for the reply that it has had there. -/
theorem client_or (h : Sim next x t) (hinv : x.Inv S next K) (i : ι) : t.client i = x.client i ∨
    x.phase i ≠ .idle ∧ ∃ r k rep, next (x.client i) = .call r k ∧ t.client i = k rep := by
  cases hp : x.phase i with
  | idle => exact .inl (h.free i (.inl hp))
  | sent => exact .inl (h.free i (.inr hp))
  | lost => exact .inr ⟨nofun, h.lost i hp⟩
  | taken a =>
    obtain ⟨⟨i, r, rep⟩, hhold, rfl⟩ := hinv.taken i a hp
    cases rep with
    | none => exact .inl (h.called a i r hhold)
    | some rep =>
      obtain ⟨-, k, hk⟩ := hinv.held a _ hhold
      exact .inr ⟨nofun, r, k, rep, hk, h.replied a i r rep k hhold hk⟩

omit [DecidableEq ι] in
/-- A client that has ended waits for no reply. -/
theorem idle_of_stop (h : Sim next x t) (hinv : x.Inv S next K) (hstop : next (x.client i) = .stop) :
    x.phase i = .idle := by
  cases hp : x.phase i with
  | idle => rfl
  | sent =>
    obtain ⟨r, k, hk⟩ := hinv.sent i hp
    rw [hstop] at hk
    cases hk
  | lost =>
    obtain ⟨r, k, rep, hk, -⟩ := h.lost i hp
    rw [hstop] at hk
    cases hk
  | taken a =>
    obtain ⟨call, hhold, rfl⟩ := hinv.taken i a hp
    obtain ⟨-, k, hk⟩ := hinv.held a call hhold
    rw [hstop] at hk
    cases hk

/-- **A run of the asynchronous system is one of the atomic system.** -/
theorem runs [DecidableEq κ] (h : Sim next x t) (hinv : x.Inv S next K)
    (hr : System.Runs S next env x x') :
    ∃ t', Atomic.Runs S next env t t' ∧ Sim next x' t' := by
  induction hr with
  | refl => exact ⟨t, .refl, h⟩
  | tail hr hs ih =>
    obtain ⟨t', hrt, hsim⟩ := ih
    obtain ⟨t'', hst, hsim'⟩ := hsim.step (hinv.runs hr) hs
    exact ⟨t'', hrt.trans hst.to_reflTransGen, hsim'⟩

end Sim

end Async

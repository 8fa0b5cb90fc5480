import NetworkExamples.Fifo.Loop
import NetworkExamples.Fifo.Patterns
import NetworkExamples.TestNets.Parties

/-!
# The scripts of the test networks

The scripts of the calls of `Parties.lean`, and what they write.

* `follows_greets`: the first broadcast of a party connects to all.
* `follows_framed`, `stdout_framed`: a target whose part between the marks follows a script.
* `prints_of_runs`: a network that runs by a plan prints what its scripts write.
-/

namespace TestNets

open Fifo PeerToPeer

/-! ## What the parties write -/

/-- What a process has written to its standard output. -/
def stdout (hist : List (Event ℕ MessageFormat String)) : List Char :=
  hist.flatMap fun e =>
    match e with
    | .noted text => text.toList
    | _ => []

@[simp] theorem stdout_nil : stdout [] = [] := rfl
@[simp] theorem stdout_noted (x : String) (es : List (Event ℕ MessageFormat String)) :
    stdout (.noted x :: es) = x.toList ++ stdout es := rfl
@[simp] theorem stdout_sent (d : ℕ) (m : MessageFormat) (b : Bool)
    (es : List (Event ℕ MessageFormat String)) : stdout (.sent d m b :: es) = stdout es := rfl
@[simp] theorem stdout_got (a : ℕ) (r : Reply MessageFormat)
    (es : List (Event ℕ MessageFormat String)) : stdout (.got a r :: es) = stdout es := rfl
@[simp] theorem stdout_append (es es' : List (Event ℕ MessageFormat String)) :
    stdout (es ++ es') = stdout es ++ stdout es' := List.flatMap_append

theorem stdout_flatMap {γ : Type} (L : List γ) (f : γ → List (Event ℕ MessageFormat String)) :
    stdout (L.flatMap f) = L.flatMap fun x => stdout (f x) := List.flatMap_assoc

@[simp] theorem toList_endl (line : String) : (endl line).toList = line.toList ++ ['\n'] := by
  unfold endl
  rw [String.toList_append]
  rfl

/-- Whole lines. -/
theorem stdout_endl (L : List String) :
    stdout ((L.map endl).map .noted) = text (L.map String.toList) := by
  induction L with
  | nil => rfl
  | cons line L ih =>
    rw [List.map_cons, List.map_cons, stdout_noted, ih, toList_endl]
    rfl

/-! ## The scripts of the calls -/

variable {t d n : ℕ} {m : MessageFormat} {bounded : Bool} {L : List ℕ} {failed : ℕ → ℕ}
  {e : ℕ × Event ℕ MessageFormat String}

/-- The script of a spinner. -/
def spins (t n : ℕ) : Script ℕ MessageFormat String :=
  (List.range n).map fun k => (t, .noted (star k))

/-- The script of a first send. -/
def connects (t d : ℕ) (m : MessageFormat) : ℕ → Script ℕ MessageFormat String
  | 0 => [(t, .sent d m false)]
  | n + 1 => spins t n ++ [(t, .sent d m false), (t, .noted (star n))]

theorem follows_spin (t n : ℕ) : Follows (spin n) (spins t n).events (.ret ()) := by
  have hloop : Follows (spin n) ((List.range n).flatMap fun k => [.noted (star k)]) (.ret ()) :=
    Follows.foldlM (f := fun _ k => cout (star k)) (g := fun _ _ => ()) (fun k _ _ => .note (.nil _)) ()
  have hevents : (spins t n).events = (List.range n).flatMap fun k => [.noted (star k)] := by
    rw [spins, Script.events, List.map_map, List.map_eq_flatMap]
    rfl
  rw [hevents]
  exact hloop

theorem follows_connect (t d : ℕ) (m : MessageFormat) (n : ℕ) :
    Follows (connect d m n) (connects t d m n).events (.ret ()) := by
  cases n with
  | zero => exact .send (.nil _)
  | succ n =>
    have hlast : Follows (.send d m false (cout (star n)) : Node Unit)
        [.sent d m false, .noted (star n)] (.ret ()) := .send (.note (.nil _))
    rw [connects, events_append]
    exact (follows_spin t n).bind hlast

theorem stdout_spins (t n : ℕ) : stdout (spins t n).events = spinner n := by
  have hevents : (spins t n).events = (List.range n).flatMap fun k => [.noted (star k)] := by
    rw [spins, Script.events, List.map_map, List.map_eq_flatMap]
    rfl
  rw [hevents, stdout_flatMap]
  apply List.flatMap_congr
  intro k _
  exact List.append_nil _

theorem stdout_connects (t d : ℕ) (m : MessageFormat) (n : ℕ) :
    stdout (connects t d m n).events = spinner n := by
  cases n with
  | zero => rfl
  | succ n =>
    have hspinner : spinner (n + 1) = spinner n ++ (star n).toList := by
      unfold spinner
      rw [List.range_succ, List.flatMap_append, List.flatMap_singleton]
    rw [connects, events_append, stdout_append, stdout_spins, hspinner]
    simp

theorem sents_spins (t n d : ℕ) : sents (spins t n) d = [] := by
  apply List.filterMap_eq_nil_iff.mpr
  intro e he
  obtain ⟨k, -, rfl⟩ := List.mem_map.mp he
  rfl

theorem takes_spins (t n a : ℕ) : takes (spins t n) a = [] := by
  apply List.filterMap_eq_nil_iff.mpr
  intro e he
  obtain ⟨k, -, rfl⟩ := List.mem_map.mp he
  rfl

@[simp] theorem sents_connects (t d d' : ℕ) (m : MessageFormat) (n : ℕ) :
    sents (connects t d m n) d' = if d = d' then [(t, m, false)] else [] := by
  cases n with
  | zero => exact sents_cons_sent t d' d m false []
  | succ n =>
    rw [connects, sents_append, sents_spins]
    exact sents_cons_sent t d' d m false _

@[simp] theorem takes_connects (t d a : ℕ) (m : MessageFormat) (n : ℕ) :
    takes (connects t d m n) a = [] := by
  cases n with
  | zero => rfl
  | succ n =>
    rw [connects, takes_append, takes_spins]
    rfl

theorem mem_spins (he : e ∈ spins t n) : e.1 = t ∧ ∃ k, e.2 = .noted (star k) := by
  obtain ⟨k, -, rfl⟩ := List.mem_map.mp he
  exact ⟨rfl, k, rfl⟩

theorem mem_connects (he : e ∈ connects t d m n) :
    e.1 = t ∧ (e.2 = .sent d m false ∨ ∃ k, e.2 = .noted (star k)) := by
  cases n with
  | zero =>
    rw [List.mem_singleton.mp he]
    exact ⟨rfl, .inl rfl⟩
  | succ n =>
    rcases List.mem_append.mp he with he | he
    · obtain ⟨ht, hk⟩ := mem_spins he
      exact ⟨ht, .inr hk⟩
    · simp only [List.mem_cons, List.not_mem_nil, or_false] at he
      rcases he with rfl | rfl
      · exact ⟨rfl, .inl rfl⟩
      · exact ⟨rfl, .inr ⟨n, rfl⟩⟩

/-- Actions at one time. -/
theorem sorted_of_eq {σ : Script ℕ MessageFormat String} (h : ∀ e ∈ σ, e.1 = t) :
    σ.Pairwise (·.1 ≤ ·.1) :=
  List.pairwise_of_forall_mem_list fun e he e' he' => (h e he).trans_le (h e' he').ge

/-! ## Broadcasts -/

/-- The script of a broadcast. -/
def broadcasts (t : ℕ) (L : List ℕ) (m : MessageFormat) (bounded : Bool) :
    Script ℕ MessageFormat String :=
  L.map fun d => (t, .sent d m bounded)

/-- The script of a first broadcast. -/
def greets (t : ℕ) (L : List ℕ) (m : MessageFormat) (failed : ℕ → ℕ) :
    Script ℕ MessageFormat String :=
  L.flatMap fun d => connects t d m (failed d)

/-- The connections after a broadcast. -/
def greeted (est : Connections) (L : List ℕ) : Connections := fun d => decide (d ∈ L) || est d

theorem foldl_greeted (est : Connections) (L : List ℕ) :
    L.foldl (fun est d => Function.update est d true) est = greeted est L := by
  induction L generalizing est with
  | nil =>
    funext d
    simp [greeted]
  | cons d L ih =>
    rw [List.foldl_cons, ih]
    funext d'
    unfold greeted
    by_cases hd : d' = d
    · simp [hd]
    · simp [hd]

theorem greeted_greeted (est : Connections) (L : List ℕ) :
    greeted (greeted est L) L = greeted est L := by
  funext d
  simp [greeted]

theorem follows_sendMsg_first {est : Connections} (h : est d = false) (t : ℕ) (timeoutMsec : ℕ) :
    Follows (sendMsg failed est d m timeoutMsec) (connects t d m (failed d)).events
      (.ret (Function.update est d true)) := by
  unfold sendMsg
  rw [if_pos h]
  exact ((follows_connect t d m (failed d)).bind (.nil _)).congr (List.append_nil _)

theorem follows_sendMsg {est : Connections} (h : est d = true) (timeoutMsec : ℕ) :
    Follows (sendMsg failed est d m timeoutMsec) [.sent d m (timeoutMsec != 0)]
      (.ret (Function.update est d true)) := by
  unfold sendMsg
  rw [if_neg (by simp [h])]
  exact .send (.nil _)

/-- The first broadcast connects to all. -/
theorem follows_greets {est : Connections} (hL : L.Nodup) (h : ∀ d ∈ L, est d = false) (t : ℕ)
    (timeoutMsec : ℕ) : Follows (broadcastMsg failed est L m timeoutMsec) (greets t L m failed).events
      (.ret (greeted est L)) := by
  have hloop : ∀ (L : List ℕ) (est : Connections), L.Nodup → (∀ d ∈ L, est d = false) →
      Follows (broadcastMsg failed est L m timeoutMsec) (greets t L m failed).events
        (.ret (L.foldl (fun est d => Function.update est d true) est)) := by
    intro L
    induction L with
    | nil => exact fun est _ _ => .nil _
    | cons d L ih =>
      intro est hL h
      obtain ⟨hd, hL⟩ := List.nodup_cons.mp hL
      unfold broadcastMsg greets
      rw [List.foldlM_cons, List.flatMap_cons, events_append]
      refine (follows_sendMsg_first (h d List.mem_cons_self) t timeoutMsec).bind
        (ih (Function.update est d true) hL fun d' hd' => ?_)
      have hne : d' ≠ d := fun he => hd (he ▸ hd')
      rw [Function.update_of_ne hne]
      exact h d' (List.mem_cons_of_mem d hd')
  rw [← foldl_greeted]
  exact hloop L est hL h

/-- A later broadcast. -/
theorem follows_broadcastMsg {est : Connections} (h : ∀ d ∈ L, est d = true) (t timeoutMsec : ℕ) :
    Follows (broadcastMsg failed est L m timeoutMsec)
      (broadcasts t L m (timeoutMsec != 0)).events (.ret (greeted est L)) := by
  rw [← foldl_greeted]
  induction L generalizing est with
  | nil => exact .nil _
  | cons d L ih =>
    unfold broadcastMsg
    rw [List.foldlM_cons]
    refine (follows_sendMsg (h d List.mem_cons_self) timeoutMsec).bind (ih fun d' hd' => ?_)
    by_cases hne : d' = d
    · rw [hne, Function.update_self]
    · rw [Function.update_of_ne hne]
      exact h d' (List.mem_cons_of_mem d hd')

theorem follows_broadcastMsgNoWait (t : ℕ) (L : List ℕ) (m : MessageFormat) :
    Follows (broadcastMsgNoWait L m) (broadcasts t L m true).events (.ret ()) := by
  induction L with
  | nil => exact .nil _
  | cons d L ih =>
    unfold broadcastMsgNoWait
    rw [List.foldlM_cons]
    exact .send ih

theorem mem_broadcasts (he : e ∈ broadcasts t L m bounded) :
    e.1 = t ∧ ∃ d, e.2 = .sent d m bounded := by
  obtain ⟨d, -, rfl⟩ := List.mem_map.mp he
  exact ⟨rfl, d, rfl⟩

theorem mem_greets (he : e ∈ greets t L m failed) :
    e.1 = t ∧ ((∃ d, e.2 = .sent d m false) ∨ ∃ k, e.2 = .noted (star k)) := by
  obtain ⟨d, -, he⟩ := List.mem_flatMap.mp he
  obtain ⟨ht, hor⟩ := mem_connects he
  exact ⟨ht, hor.imp_left fun h => ⟨d, h⟩⟩

theorem sorted_broadcasts (t : ℕ) (L : List ℕ) (m : MessageFormat) (bounded : Bool) :
    (broadcasts t L m bounded).Pairwise (·.1 ≤ ·.1) :=
  sorted_of_eq fun _ he => (mem_broadcasts he).1

theorem sorted_greets (t : ℕ) (L : List ℕ) (m : MessageFormat) (failed : ℕ → ℕ) :
    (greets t L m failed).Pairwise (·.1 ≤ ·.1) :=
  sorted_of_eq fun _ he => (mem_greets he).1

theorem sents_greets (hL : L.Nodup) (d : ℕ) :
    sents (greets t L m failed) d = if d ∈ L then [(t, m, false)] else [] := by
  have hne : ∀ j ∈ L, j ≠ d → sents (connects t j m (failed j)) d = [] := by
    intro j _ hj
    rw [sents_connects, if_neg hj]
  rw [greets, sents_flatMap hL hne, sents_connects, if_pos rfl]

theorem takes_greets (a : ℕ) : takes (greets t L m failed) a = [] :=
  takes_flatMap_nil fun d _ => takes_connects t d a m (failed d)

theorem stdout_broadcasts (t : ℕ) (L : List ℕ) (m : MessageFormat) (bounded : Bool) :
    stdout (broadcasts t L m bounded).events = [] := by
  induction L with
  | nil => rfl
  | cons d L ih => exact ih

/-- The spinners of a first broadcast. -/
def spinners (L : List ℕ) (failed : ℕ → ℕ) : List Char := L.flatMap fun d => spinner (failed d)

theorem stdout_greets (t : ℕ) (L : List ℕ) (m : MessageFormat) (failed : ℕ → ℕ) :
    stdout (greets t L m failed).events = spinners L failed := by
  unfold greets spinners
  rw [events_flatMap, stdout_flatMap]
  simp only [stdout_connects]

theorem notMem_spinners (L : List ℕ) (failed : ℕ → ℕ) : '\n' ∉ spinners L failed := by
  intro h
  obtain ⟨d, -, hd⟩ := List.mem_flatMap.mp h
  exact notMem_spinner _ hd

theorem spinners_eq_nil : spinners L failed = [] ↔ ∀ d ∈ L, failed d = 0 := by
  unfold spinners
  rw [List.flatMap_eq_nil_iff]
  apply forall₂_congr
  intro d _
  constructor
  · intro h
    by_contra hne
    exact spinner_ne_nil hne h
  · intro h
    rw [h]
    rfl

/-! ## Turns -/

/-- Turns in their order, none of which ends after a later one starts. -/
theorem sorted_turns {σ : ℕ → Script ℕ MessageFormat String} {K : List ℕ} (hK : K.Pairwise (· < ·))
    (hσ : ∀ k, (σ k).Pairwise (·.1 ≤ ·.1))
    (hlt : ∀ k k', k < k' → ∀ e ∈ σ k, ∀ e' ∈ σ k', e.1 ≤ e'.1) :
    (K.flatMap σ).Pairwise (·.1 ≤ ·.1) :=
  List.pairwise_flatMap.mpr ⟨fun k _ => hσ k, hK.imp fun hk e he e' he' => hlt _ _ hk e he e' he'⟩

theorem sents_turns (σ : ℕ → Script ℕ MessageFormat String) (K : List ℕ) (d : ℕ) :
    sents (K.flatMap σ) d = K.flatMap fun k => sents (σ k) d := List.filterMap_flatMap

theorem takes_turns (σ : ℕ → Script ℕ MessageFormat String) (K : List ℕ) (a : ℕ) :
    takes (K.flatMap σ) a = K.flatMap fun k => takes (σ k) a := List.filterMap_flatMap

theorem stdout_turns (σ : ℕ → Script ℕ MessageFormat String) (K : List ℕ) :
    stdout (Script.events (K.flatMap σ)) = K.flatMap fun k => stdout (σ k).events := by
  rw [events_flatMap, stdout_flatMap]

/-! ## The frame of a target -/

/-- The lines before those that a target prints itself. -/
def opening (i : ℕ) : List String :=
  [nodeName i ++ " SSL disabled ", nodeName i ++ " server listening on " ++ socket_address i,
    nodeName i ++ " [SERVER] Started!"]

/-- The lines of `Stop`. -/
def closing (i : ℕ) : List String :=
  [nodeName i ++ " server completion queue shutdown", nodeName i ++ " [SERVER] Stopped!"]

theorem follows_opening (i : ℕ) {p q : Node Unit} {es : List (Event ℕ MessageFormat String)}
    (h : Follows p es q) : Follows (Register i >>= fun _ => Start i >>= fun _ => p)
      (((opening i).map endl).map .noted ++ es) q :=
  .note (.note (.note h))

theorem follows_closing (i : ℕ) :
    Follows (Stop i) (((closing i).map endl).map .noted) (.ret ()) :=
  .note (.note (.nil _))

theorem plain_opening (i : ℕ) : ∀ a ∈ opening i, Plain a := by
  have haddress : IsPart (socket_address i) :=
    (show IsPart "localhost:" by decide).append (isPart_toString _)
  intro a ha
  simp only [opening, List.mem_cons, List.not_mem_nil, or_false] at ha
  rcases ha with rfl | rfl | rfl
  · exact (plain_nodeName i).append (by decide)
  · exact ((plain_nodeName i).append (by decide)).append haddress
  · exact (plain_nodeName i).append (by decide)

theorem plain_closing (i : ℕ) : ∀ a ∈ closing i, Plain a := by
  intro a ha
  simp only [closing, List.mem_cons, List.not_mem_nil, or_false] at ha
  rcases ha with rfl | rfl
  · exact (plain_nodeName i).append (by decide)
  · exact (plain_nodeName i).append (by decide)

theorem isLine_opening (i : ℕ) : ∀ ln ∈ (opening i).map String.toList, IsLine ln :=
  map_isLine (plain_opening i)

theorem isLine_closing (i : ℕ) : ∀ ln ∈ (closing i).map String.toList, IsLine ln :=
  map_isLine (plain_closing i)

/-- What a target writes before its part between the marks. -/
def before (N i : ℕ) : List String :=
  if i < N then (opening i ++ ["DEMARCATE START"]).map endl else []

/-- What it writes after it. -/
def after (N i : ℕ) : List String :=
  if i < N then ("DEMARCATE END" :: closing i).map endl else []

variable {N i : ℕ} {σ : ℕ → Script ℕ MessageFormat String} {T : ℕ}

theorem frame_outside (h : i ∉ Finset.range N) : before N i = [] ∧ after N i = [] := by
  rw [Finset.mem_range] at h
  exact ⟨if_neg h, if_neg h⟩

theorem notes_before (hi : i < N) : (before N i).map .noted = ((opening i).map endl).map .noted ++
    [(.noted (endl "DEMARCATE START") : Event ℕ MessageFormat String)] := by
  rw [before, if_pos hi]
  simp

theorem follows_after (hi : i < N) :
    Follows (do cout (endl "DEMARCATE END"); Stop i) ((after N i).map .noted) (.ret ()) := by
  rw [after, if_pos hi]
  exact .note (follows_closing i)

theorem stdout_before (hi : i < N) : stdout ((before N i).map .noted) =
    text ((opening i).map String.toList) ++ (start ++ ['\n']) := by
  rw [before, if_pos hi, stdout_endl, List.map_append, text_append]
  rfl

theorem stdout_after (hi : i < N) : stdout ((after N i).map .noted) =
    stop ++ ['\n'] ++ text ((closing i).map String.toList) := by
  rw [after, if_pos hi, stdout_endl]
  rfl

/-- A target whose part between the marks follows its script. -/
theorem follows_framed {α : Type} {body : Node α} {a : α} (hi : i < N)
    (h : Follows body (σ i).events (.ret a)) (T : ℕ) :
    Follows (do
      Register i
      Start i
      cout (endl "DEMARCATE START")
      let _ ← body
      cout (endl "DEMARCATE END")
      Stop i) (framed (before N) (after N) T σ i).events (.ret ()) := by
  have hbody := h.bind (f := fun _ => do cout (endl "DEMARCATE END"); Stop i) (follows_after hi)
  rw [events_framed, notes_before hi, List.append_assoc]
  exact follows_opening i (.note hbody)

/-- What such a target prints. -/
theorem stdout_framed (hi : i < N) {between : List (List Char)}
    (h : stdout (σ i).events ++ stop ++ ['\n'] = text between) (T : ℕ) :
    stdout (framed (before N) (after N) T σ i).events =
      printed ((opening i).map String.toList) (between ++ (closing i).map String.toList) := by
  rw [events_framed, stdout_append, stdout_append, stdout_before hi, stdout_after hi, printed_eq,
    text_append, ← h]
  simp only [List.append_assoc]

/-! ## What a network prints -/

/-- **A network of the parties `0, …, N - 1` prints the texts `output`**, in every interleaving: what a
party has written is the beginning of its text, and all of it when the party has ended, and the parties
can always go on until all have ended. -/
def Prints (N : ℕ) (prog : ℕ → Node Unit) (output : ℕ → List Char) : Prop :=
  ∀ s, Net.Reach false (Net.init prog) s →
    (∀ i < N, stdout (s.hist i) <+: output i ∧
      ((s.prog i).halted = true → stdout (s.hist i) = output i)) ∧
    ∃ s', Net.Reach false s s' ∧
      ∀ i < N, s'.prog i = .ret () ∧ stdout (s'.hist i) = output i

/-- **A network that runs by a plan** prints what the scripts write. -/
theorem prints_of_runs {N : ℕ} {P : Plan ℕ MessageFormat String Unit} {nodes : Finset ℕ}
    {prog : ℕ → Node Unit} {output : ℕ → List Char} (h : P.Runs nodes prog)
    (hstop : ∀ i < N, P.stop i = .ret ())
    (houtput : ∀ i < N, stdout (P.script i).events = output i) : Prints N prog output := by
  intro s hs
  refine ⟨fun i hi => ⟨?_, fun hhalt => ?_⟩, ?_⟩
  · rw [← houtput i hi]
    obtain ⟨rest, hrest⟩ := h.hist_prefix hs i
    exact ⟨stdout rest, by rw [← hrest, stdout_append]⟩
  · rw [h.hist_eq_of_halted hs hhalt, houtput i hi]
  · obtain ⟨s', hr, hhist, hprog, -⟩ := h.completes hs
    refine ⟨s', hr, fun i hi => ⟨(hprog i).trans (hstop i hi), ?_⟩⟩
    rw [hhist i, houtput i hi]

end TestNets

import NetworkExamples.ThreshNet.ThreshClient
import Std.Data.ExtHashMap

/-!
# The server's store of the secret shares

The two servicers of the shares of the clients' secret keys,
`thresh_server_secret_shares_request.h` and `thresh_server_secret_shares_to_client_request.h`. The
store has a map for each client: its shares, by their holders. Its maps are read with `operator[]`,
which inserts a default value at a key that is not there (`subscript`).

* `handOut`: the loop that collects the shares of the first `threshold` holders.
* `Answers`: what a reply should be. `handsOut_iff` says for which requests it is that: the loop does
  not look if the client has uploaded the shares, so that a missing one is handed out as a
  default-constructed polynomial.
* `uploaded_calls`: the shares in the store are those that each client has uploaded last.
* `server_secretSharesToClient`: with complete uploads this is the handler of `Server`.
-/

namespace ThreshNet

namespace SecretShares

/-- `std::unordered_map<uint32_t, β>`. -/
abbrev Map (β : Type) : Type := Std.ExtHashMap UInt32 β

/-- `m[k]`: the value, and the map after the access. -/
def subscript {β : Type} [Inhabited β] (m : Map β) (k : UInt32) : β × Map β :=
  match m[k]? with
  | some v => (v, m)
  | none => (default, m.insert k default)

/-- The shares of the clients. The polynomials `P` have a default constructor. -/
abbrev Store (P : Type) : Type := Map (Map P)

structure SecretKeySharesRequest where
  recover_client_id : UInt32
  threshold : UInt32
  num_of_parties : UInt32

/-- The reply; without shares its field is empty. -/
structure SecretKeySharesReturn (P : Type) where
  sharesAvailable : Bool
  secretshares : Map P

variable {P : Type}

/-- `SecretSharesFromClient`; `none`: an empty map of shares is not accepted. -/
def secretSharesFromClient (ssm : Store P) (client_id : UInt32) (ss : Map P) : Option (Store P) :=
  if ss.size = 0 then none else some (ssm.insert client_id ss)

variable [Inhabited P]

/-- The loop, for at most `fuel` turns; `none`: it is still going on. -/
def handOut (recover_client_id threshold num_of_parties : UInt32) :
    ℕ → UInt32 → UInt32 → Map P → Map P → Option (Map P)
  | 0, _, _, _, _ => none
  | fuel + 1, j, mapsize, ss, sst =>
    if j ≤ num_of_parties then
      if j ≠ recover_client_id ∧ mapsize ≤ threshold then
        let (share, ss) := subscript ss j
        handOut recover_client_id threshold num_of_parties fuel (j + 1) (mapsize + 1) ss
          (sst.insert j share)
      else handOut recover_client_id threshold num_of_parties fuel (j + 1) mapsize ss sst
    else some sst

/-- `SecretSharesToClient`, with at most `fuel` turns of its loop: the reply, and the store after
it. -/
def secretSharesToClient (fuel : ℕ) (ssm : Store P) (request : SecretKeySharesRequest) :
    Option (SecretKeySharesReturn P × Store P) := do
  let (ss, ssm) := subscript ssm request.recover_client_id
  let sst ← handOut request.recover_client_id request.threshold request.num_of_parties fuel 1 1 ss ∅
  if sst.size = 0 then return (⟨false, ∅⟩, ssm) else return (⟨true, sst⟩, ssm)

/-! ## What a reply should be -/

/-- The share that client `r` has uploaded for `h`. -/
def uploaded (ssm : Store P) (r h : UInt32) : Option P := ssm[r]?.bind (·[h]?)

/-- The share of client `j` in a map of shares. -/
def shareOf (ss : Map P) (j : ℕ) : Option P := if j < 2 ^ 32 then ss[UInt32.ofNat j]? else none

/-- The parties that can hold a share of the client. -/
def ids (request : SecretKeySharesRequest) : List UInt32 :=
  (Fifo.others request.num_of_parties.toNat request.recover_client_id.toNat).map UInt32.ofNat

/-- The parties whose shares the client has uploaded. -/
def holders (ssm : Store P) (request : SecretKeySharesRequest) : List UInt32 :=
  (ids request).filter fun h => (uploaded ssm request.recover_client_id h).isSome

/-- The reply, and the store after it, are what they should be. -/
structure Answers (ssm : Store P) (request : SecretKeySharesRequest)
    (reply : SecretKeySharesReturn P) (ssm' : Store P) : Prop where
  available : reply.sharesAvailable = true ↔
    request.threshold.toNat ≤ (holders ssm request).length
  size : reply.sharesAvailable = true → reply.secretshares.size = request.threshold.toNat
  shares : reply.sharesAvailable = true → ∀ h share, reply.secretshares[h]? = some share →
    h ≠ request.recover_client_id ∧ uploaded ssm request.recover_client_id h = some share
  refused : reply.sharesAvailable = false → reply.secretshares = ∅ ∧ ssm' = ssm

/-- The request is answered, and so. -/
def HandsOut (ssm : Store P) (request : SecretKeySharesRequest) : Prop :=
  ∃ fuel reply ssm', secretSharesToClient fuel ssm request = some (reply, ssm') ∧
    Answers ssm request reply ssm'

/-! ## The maps -/

section

variable {β : Type} [Inhabited β] {m : Map β} {k h : UInt32}

theorem subscript_fst (m : Map β) (k : UInt32) : (subscript m k).1 = m.getD k default := by
  unfold subscript
  rw [Std.ExtHashMap.getD_eq_getD_getElem?]
  cases m[k]? <;> rfl

/-- An access changes no value. -/
theorem getD_subscript_snd (m : Map β) (k h : UInt32) :
    (subscript m k).2.getD h default = m.getD h default := by
  unfold subscript
  cases hk : m[k]? with
  | some v => rfl
  | none =>
    rw [Std.ExtHashMap.getD_insert]
    split
    · next he =>
      rw [Std.ExtHashMap.getD_eq_getD_getElem?, ← eq_of_beq he, hk]
      rfl
    · rfl

theorem subscript_snd_of_mem (hk : k ∈ m) : (subscript m k).2 = m := by
  unfold subscript
  rw [Std.ExtHashMap.getElem?_eq_some_getElem hk]

theorem mem_subscript_snd (m : Map β) (k : UInt32) : k ∈ (subscript m k).2 := by
  unfold subscript
  cases hk : m[k]? with
  | some v => exact Std.ExtHashMap.mem_iff_isSome_getElem?.mpr (by simp [hk])
  | none => simp

/-- The map `sst` with the shares of the holders `L` entered. -/
def enter (share : UInt32 → β) (L : List UInt32) (sst : Map β) : Map β :=
  L.foldl (fun sst h => sst.insert h (share h)) sst

variable {share : UInt32 → β}

omit [Inhabited β] in
theorem getElem?_enter (L : List UInt32) (sst : Map β) (h : UInt32) :
    (enter share L sst)[h]? = if h ∈ L then some (share h) else sst[h]? := by
  unfold enter
  induction L generalizing sst with
  | nil => rfl
  | cons i L ih =>
    rw [List.foldl_cons, ih, Std.ExtHashMap.getElem?_insert]
    by_cases hi : i = h
    · subst hi; simp
    · simp [hi, Ne.symm hi]

omit [Inhabited β] in
theorem size_enter {L : List UInt32} (hL : L.Nodup) {sst : Map β} (hsst : ∀ h ∈ L, h ∉ sst) :
    (enter share L sst).size = sst.size + L.length := by
  unfold enter
  induction L generalizing sst with
  | nil => rfl
  | cons i L ih =>
    obtain ⟨hi, hL⟩ := List.nodup_cons.mp hL
    rw [List.foldl_cons, ih hL, Std.ExtHashMap.size_insert, if_neg (hsst i (by simp)),
      List.length_cons]
    · omega
    · intro h hh hmem
      rcases Std.ExtHashMap.mem_insert.mp hmem with he | hmem
      · exact hi (eq_of_beq he ▸ hh)
      · exact hsst h (List.mem_cons_of_mem _ hh) hmem

end

/-! ## The loop -/

section

variable {r threshold N : UInt32} {ss sst : Map P}

/-- The parties from `j` on that can hold a share of client `r`. -/
def idsFrom (r N : UInt32) (j : ℕ) : List UInt32 :=
  ((List.range' j (N.toNat + 1 - j)).filter (· ≠ r.toNat)).map UInt32.ofNat

theorem idsFrom_one (request : SecretKeySharesRequest) :
    idsFrom request.recover_client_id request.num_of_parties 1 = ids request := by
  simp [idsFrom, ids, Fifo.others]

theorem idsFrom_of_le {j : UInt32} (hj : j ≤ N) : idsFrom r N j.toNat =
    if j ≠ r then j :: idsFrom r N (j.toNat + 1) else idsFrom r N (j.toNat + 1) := by
  have hlt := UInt32.le_iff_toNat_le.mp hj
  have hlen : N.toNat + 1 - j.toNat = N.toNat + 1 - (j.toNat + 1) + 1 := by omega
  unfold idsFrom
  rw [hlen, List.range'_succ, List.filter_cons]
  by_cases h : j = r
  · simp [h]
  · have hne : j.toNat ≠ r.toNat := fun he => h (UInt32.toNat_inj.mp he)
    simp [h, hne]

theorem idsFrom_of_lt {j : ℕ} (hj : N.toNat < j) : idsFrom r N j = [] := by
  unfold idsFrom
  rw [show N.toNat + 1 - j = 0 by omega]
  rfl

/-- **The loop hands out the shares of the first `threshold` holders.** The bound on the number of
parties keeps `j` from going round. -/
theorem handOut_eq (hN : N.toNat + 1 < 2 ^ 32) {share : UInt32 → P} {fuel : ℕ} {j mapsize : UInt32}
    (hj : j.toNat ≤ N.toNat + 1) (hfuel : N.toNat + 1 - j.toNat < fuel)
    (hmap : mapsize.toNat ≤ j.toNat) (hss : ∀ h, ss.getD h default = share h) :
    handOut r threshold N fuel j mapsize ss sst =
      some (enter share ((idsFrom r N j.toNat).take (threshold.toNat + 1 - mapsize.toNat)) sst) := by
  induction fuel generalizing j mapsize ss sst with
  | zero => omega
  | succ fuel ih =>
    unfold handOut
    split
    · next hle =>
      have hle' := UInt32.le_iff_toNat_le.mp hle
      have hsucc : (j + 1).toNat = j.toNat + 1 := by
        rw [UInt32.toNat_add]
        exact Nat.mod_eq_of_lt (by simp; omega)
      rw [idsFrom_of_le hle]
      split
      · next hc =>
        have hmle := UInt32.le_iff_toNat_le.mp hc.2
        have hmsucc : (mapsize + 1).toNat = mapsize.toNat + 1 := by
          rw [UInt32.toNat_add]
          exact Nat.mod_eq_of_lt (by simp; omega)
        dsimp only
        rw [ih (by omega) (by omega) (by omega)
          fun h => by rw [getD_subscript_snd, hss], if_pos hc.1, hsucc, hmsucc]
        have htake : threshold.toNat + 1 - mapsize.toNat =
            threshold.toNat + 1 - (mapsize.toNat + 1) + 1 := by omega
        rw [htake, List.take_succ_cons, subscript_fst, hss]
        rfl
      · next hc =>
        rw [ih (by omega) (by omega) (by omega) hss, hsucc]
        by_cases hjr : j = r
        · simp [hjr]
        · -- The loop has enough shares.
          have hlt : ¬ mapsize ≤ threshold := fun h => hc ⟨hjr, h⟩
          rw [UInt32.le_iff_toNat_le] at hlt
          have hzero : threshold.toNat + 1 - mapsize.toNat = 0 := by omega
          rw [hzero, List.take_zero, List.take_zero]
    · next hle =>
      rw [UInt32.le_iff_toNat_le] at hle
      rw [idsFrom_of_lt (by omega), List.take_nil]
      rfl

/-- With the greatest number of parties the loop never ends. -/
theorem handOut_none (hN : N.toNat + 1 = 2 ^ 32) (fuel : ℕ) (j mapsize : UInt32) :
    handOut r threshold N fuel j mapsize ss sst = none := by
  induction fuel generalizing j mapsize ss sst with
  | zero => rfl
  | succ fuel ih =>
    have hle : j ≤ N := UInt32.le_iff_toNat_le.mpr (by have := j.toNat_lt; omega)
    unfold handOut
    rw [if_pos hle]
    split
    · exact ih _ _
    · exact ih _ _

/-- More turns do not change the result. -/
theorem handOut_mono {fuel fuel' : ℕ} (hle : fuel ≤ fuel') {j mapsize : UInt32} {x : Map P}
    (h : handOut r threshold N fuel j mapsize ss sst = some x) :
    handOut r threshold N fuel' j mapsize ss sst = some x := by
  induction fuel generalizing fuel' j mapsize ss sst with
  | zero => cases h
  | succ fuel ih =>
    obtain ⟨n, rfl⟩ : ∃ n, fuel' = n + 1 := ⟨fuel' - 1, by omega⟩
    have hn : fuel ≤ n := by omega
    unfold handOut at h ⊢
    by_cases hj : j ≤ N
    · rw [if_pos hj] at h ⊢
      by_cases hc : j ≠ r ∧ mapsize ≤ threshold
      · rw [if_pos hc] at h ⊢
        exact ih hn h
      · rw [if_neg hc] at h ⊢
        exact ih hn h
    · rw [if_neg hj] at h ⊢
      exact h

end

/-! ## The requests that are answered as they should be -/

section

variable {ssm ssm' : Store P} {request : SecretKeySharesRequest} {h : UInt32}

theorem toNat_ofNat {n : ℕ} (hn : n < 2 ^ 32) : (UInt32.ofNat n).toNat = n :=
  UInt32.toNat_ofNat_of_lt' hn

theorem mem_ids : h ∈ ids request ↔
    1 ≤ h.toNat ∧ h.toNat ≤ request.num_of_parties.toNat ∧ h ≠ request.recover_client_id := by
  have hlt := request.num_of_parties.toNat_lt
  simp only [ids, List.mem_map, Fifo.mem_others]
  constructor
  · rintro ⟨n, ⟨h1, hn, hne⟩, rfl⟩
    have hof : (UInt32.ofNat n).toNat = n := toNat_ofNat (by omega)
    exact ⟨by omega, by omega, fun he => hne (by rw [← he, hof])⟩
  · rintro ⟨h1, hn, hne⟩
    exact ⟨h.toNat, ⟨h1, hn, fun he => hne (UInt32.toNat_inj.mp he)⟩, UInt32.ofNat_toNat⟩

theorem nodup_ids : (ids request).Nodup := by
  have hlt := request.num_of_parties.toNat_lt
  refine List.Nodup.map_on (fun a ha b hb hab => ?_) (Fifo.nodup_others _ _)
  rw [Fifo.mem_others] at ha hb
  have := congrArg UInt32.toNat hab
  rwa [toNat_ofNat (by omega), toNat_ofNat (by omega)] at this

/-- The holders whose shares are handed out. -/
def given (request : SecretKeySharesRequest) : List UInt32 :=
  (ids request).take request.threshold.toNat

/-- The shares that are handed out: in the place of a missing one a default polynomial. -/
def handedOut (ssm : Store P) (request : SecretKeySharesRequest) : Map P :=
  enter (fun h => (uploaded ssm request.recover_client_id h).getD default) (given request) ∅

theorem size_handedOut (ssm : Store P) (request : SecretKeySharesRequest) :
    (handedOut ssm request).size = (given request).length := by
  have hnodup : (given request).Nodup := nodup_ids.sublist (List.take_sublist _ _)
  rw [handedOut, size_enter hnodup fun _ _ => Std.ExtHashMap.not_mem_empty,
    Std.ExtHashMap.size_empty, Nat.zero_add]

theorem getElem?_handedOut (ssm : Store P) (request : SecretKeySharesRequest) (h : UInt32) :
    (handedOut ssm request)[h]? = if h ∈ given request then
      some ((uploaded ssm request.recover_client_id h).getD default) else none := by
  rw [handedOut, getElem?_enter, Std.ExtHashMap.getElem?_empty]

/-- **What the handler does.** -/
theorem secretSharesToClient_eq (hN : request.num_of_parties.toNat + 1 < 2 ^ 32) (ssm : Store P) :
    secretSharesToClient (request.num_of_parties.toNat + 1) ssm request =
      some (if given request = [] then ⟨false, ∅⟩ else ⟨true, handedOut ssm request⟩,
        (subscript ssm request.recover_client_id).2) := by
  have hshare : ∀ h, (subscript ssm request.recover_client_id).1.getD h default =
      (uploaded ssm request.recover_client_id h).getD default := by
    intro h
    rw [subscript_fst, Std.ExtHashMap.getD_eq_getD_getElem?, Std.ExtHashMap.getD_eq_getD_getElem?,
      uploaded]
    cases ssm[request.recover_client_id]? with
    | some ss => rfl
    | none => exact congrArg (Option.getD · _) Std.ExtHashMap.getElem?_empty
  have hloop : handOut request.recover_client_id request.threshold request.num_of_parties
      (request.num_of_parties.toNat + 1) 1 1 (subscript ssm request.recover_client_id).1 ∅ =
        some (handedOut ssm request) := by
    have hone : (1 : UInt32).toNat = 1 := rfl
    rw [handOut_eq hN (by omega) (by omega) le_rfl hshare, hone, idsFrom_one, Nat.add_sub_cancel]
    rfl
  have hsize := size_handedOut ssm request
  unfold secretSharesToClient
  dsimp only
  rw [hloop]
  by_cases hgiven : given request = []
  · rw [if_pos hgiven]
    simp [hsize, hgiven]
  · have hpos : (given request).length ≠ 0 := fun h => hgiven (List.length_eq_zero_iff.mp h)
    rw [if_neg hgiven]
    simp [hsize, hpos]

/-- A request that is answered is answered in this way. -/
theorem eq_of_secretSharesToClient {fuel : ℕ} {reply : SecretKeySharesReturn P}
    (h : secretSharesToClient fuel ssm request = some (reply, ssm')) :
    request.num_of_parties.toNat + 1 < 2 ^ 32 ∧
      reply = (if given request = [] then ⟨false, ∅⟩ else ⟨true, handedOut ssm request⟩) ∧
      ssm' = (subscript ssm request.recover_client_id).2 := by
  have hlt := request.num_of_parties.toNat_lt
  by_cases hN : request.num_of_parties.toNat + 1 < 2 ^ 32
  · -- Both numbers of turns give the result of the greater one.
    have heq := secretSharesToClient_eq hN ssm
    unfold secretSharesToClient at h heq
    obtain ⟨sst, hsst, h⟩ := Option.bind_eq_some_iff.mp h
    obtain ⟨sst', hsst', heq⟩ := Option.bind_eq_some_iff.mp heq
    have hsst := handOut_mono (Nat.le_max_left fuel (request.num_of_parties.toNat + 1)) hsst
    have hsst' := handOut_mono (Nat.le_max_right fuel (request.num_of_parties.toNat + 1)) hsst'
    obtain rfl : sst = sst' := Option.some.inj (hsst.symm.trans hsst')
    have hpair := Option.some.inj (h.symm.trans heq)
    exact ⟨hN, congrArg Prod.fst hpair, congrArg Prod.snd hpair⟩
  · unfold secretSharesToClient at h
    obtain ⟨sst, hsst, -⟩ := Option.bind_eq_some_iff.mp h
    rw [handOut_none (by omega)] at hsst
    cases hsst

omit [Inhabited P] in
theorem length_holders_le (ssm : Store P) (request : SecretKeySharesRequest) :
    (holders ssm request).length ≤ (ids request).length := List.length_filter_le _ _

/-- **When the shares are handed out as they should be.** -/
structure Complete (ssm : Store P) (request : SecretKeySharesRequest) : Prop where
  threshold_pos : 0 < request.threshold.toNat
  /-- There are `threshold` holders, and the shares for the first of them have been uploaded. -/
  enough : request.threshold.toNat ≤ (ids request).length ∧
      (∀ h ∈ given request, (uploaded ssm request.recover_client_id h).isSome) ∨
    ids request = [] ∧ request.recover_client_id ∈ ssm

theorem Complete.handsOut (hN : request.num_of_parties.toNat + 1 < 2 ^ 32)
    (hc : Complete ssm request) : HandsOut ssm request := by
  have hpos := hc.threshold_pos
  refine ⟨_, _, _, secretSharesToClient_eq hN ssm, ?_⟩
  rcases hc.enough with ⟨hlen, hup⟩ | ⟨hids, hmem⟩
  · have hgiven : (given request).length = request.threshold.toNat :=
      List.length_take_of_le hlen
    have hne : given request ≠ [] := List.ne_nil_of_length_pos (by omega)
    have hholders : (given request).length ≤ (holders ssm request).length := by
      rw [← List.filter_eq_self.mpr hup]
      exact ((List.take_sublist _ _).filter _).length_le
    rw [if_neg hne]
    refine ⟨by simp; omega, fun _ => by rw [size_handedOut, hgiven], fun _ h share hshare => ?_,
      fun hfalse => by cases hfalse⟩
    dsimp only at hshare
    rw [getElem?_handedOut] at hshare
    split at hshare
    · next hmem =>
      obtain ⟨share', hshare'⟩ := Option.isSome_iff_exists.mp (hup h hmem)
      rw [hshare'] at hshare ⊢
      exact ⟨(mem_ids.mp (List.mem_of_mem_take hmem)).2.2, hshare⟩
    · cases hshare
  · have hgiven : given request = [] := by rw [given, hids, List.take_nil]
    have hholders : holders ssm request = [] := by rw [holders, hids, List.filter_nil]
    rw [if_pos hgiven]
    refine ⟨by simp [hholders]; omega, fun htrue => (by cases htrue), fun htrue => (by cases htrue),
      fun _ => ⟨rfl, subscript_snd_of_mem hmem⟩⟩

theorem HandsOut.complete (h : HandsOut ssm request) :
    request.num_of_parties.toNat + 1 < 2 ^ 32 ∧ Complete ssm request := by
  obtain ⟨fuel, reply, ssm', hrun, hans⟩ := h
  obtain ⟨hN, hreply, hssm⟩ := eq_of_secretSharesToClient hrun
  refine ⟨hN, ?_⟩
  by_cases hgiven : given request = []
  · -- Nothing is handed out.
    rw [if_pos hgiven] at hreply
    subst hreply
    have hthreshold : 0 < request.threshold.toNat := by
      by_contra hn
      exact absurd (hans.available.mpr (by omega)) (by simp)
    refine ⟨hthreshold, .inr ⟨?_, ?_⟩⟩
    · rcases List.take_eq_nil_iff.mp hgiven with h0 | hids
      · omega
      · exact hids
    · have hsame := (hans.refused rfl).2
      rw [hssm] at hsame
      rw [← hsame]
      exact mem_subscript_snd _ _
  · rw [if_neg hgiven] at hreply
    subst hreply
    have hholders := hans.available.mp rfl
    have hlen := length_holders_le ssm request
    refine ⟨?_, .inl ⟨by omega, fun h hmem => ?_⟩⟩
    · by_contra hn
      exact hgiven (List.take_eq_nil_iff.mpr (.inl (by omega)))
    · have hshare := hans.shares rfl h
      dsimp only at hshare
      rw [getElem?_handedOut, if_pos hmem] at hshare
      rw [(hshare _ rfl).2]
      rfl

/-- **Which requests are answered as they should be.** -/
theorem handsOut_iff : HandsOut ssm request ↔
    request.num_of_parties.toNat + 1 < 2 ^ 32 ∧ Complete ssm request :=
  ⟨HandsOut.complete, fun h => h.2.handsOut h.1⟩

/-- A client that has uploaded nothing. -/
theorem not_handsOut : ¬ ∀ (ssm : Store ℤ) (request : SecretKeySharesRequest),
    HandsOut ssm request := by
  intro h
  have hc := (h ∅ ⟨2, 2, 3⟩).complete.2
  rcases hc.enough with ⟨-, hup⟩ | ⟨hids, -⟩
  · have hone := hup 1 (by decide)
    rw [uploaded, Std.ExtHashMap.getElem?_empty] at hone
    cases hone
  · exact absurd hids (by decide)

/-! ## The calls of the clients -/

/-- The store after any calls, of any clients; `last c` is what client `c` has uploaded last. -/
inductive Calls : (UInt32 → Map P) → Store P → Prop
  | start : Calls (fun _ => ∅) ∅
  | fromClient {last : UInt32 → Map P} {ssm ssm' : Store P} (h : Calls last ssm) (client_id : UInt32)
      (ss : Map P) (hcall : secretSharesFromClient ssm client_id ss = some ssm') :
      Calls (Function.update last client_id ss) ssm'
  | toClient {last : UInt32 → Map P} {ssm ssm' : Store P} (h : Calls last ssm)
      (request : SecretKeySharesRequest) (fuel : ℕ) (reply : SecretKeySharesReturn P)
      (hcall : secretSharesToClient fuel ssm request = some (reply, ssm')) : Calls last ssm'

omit [Inhabited P] in
/-- A hand-out keeps the shares, also where it enters an empty map. -/
theorem uploaded_subscript (ssm : Store P) (k r h : UInt32) :
    uploaded (subscript ssm k).2 r h = uploaded ssm r h := by
  have hget : ∀ ssm : Store P, uploaded ssm r h = (ssm.getD r default)[h]? := by
    intro ssm
    rw [uploaded, Std.ExtHashMap.getD_eq_getD_getElem?]
    cases ssm[r]? with
    | some ss => rfl
    | none => exact Std.ExtHashMap.getElem?_empty.symm
  rw [hget, hget, getD_subscript_snd]

/-- **The store has the shares that were uploaded last.** -/
theorem uploaded_calls {last : UInt32 → Map P} (h : Calls last ssm) (r k : UInt32) :
    uploaded ssm r k = (last r)[k]? := by
  induction h with
  | start => rw [uploaded, Std.ExtHashMap.getElem?_empty, Std.ExtHashMap.getElem?_empty]; rfl
  | fromClient h client_id ss hcall ih =>
    unfold secretSharesFromClient at hcall
    split at hcall
    · cases hcall
    · cases hcall
      rw [uploaded, Std.ExtHashMap.getElem?_insert]
      by_cases hr : client_id = r
      · subst hr; simp
      · rw [Function.update_of_ne (Ne.symm hr), ← ih, uploaded]
        simp [hr]
  | toClient h request fuel reply hcall ih =>
    rw [(eq_of_secretSharesToClient hcall).2.2, uploaded_subscript, ih]

omit [Inhabited P] in
/-- The holders whose shares are handed out, by their numbers. -/
theorem ofNat_mem_given {j : ℕ} (hj : j < 2 ^ 32) : UInt32.ofNat j ∈ given request ↔
    j ∈ (Fifo.others request.num_of_parties.toNat request.recover_client_id.toNat).take
      request.threshold.toNat := by
  rw [given, ids, ← List.map_take, List.mem_map]
  constructor
  · rintro ⟨i, hi, hij⟩
    have hlt := request.num_of_parties.toNat_lt
    have hi' := Fifo.mem_others.mp (List.mem_of_mem_take hi)
    have heq := congrArg UInt32.toNat hij
    rw [toNat_ofNat (by omega), toNat_ofNat hj] at heq
    exact heq ▸ hi
  · exact fun hj => ⟨j, hj, rfl⟩

/-- **The handler of `Server`.** Once a client has uploaded a share for every party, the reply has
what the step of the clients reads. -/
theorem server_secretSharesToClient {F : OpenFHE} [Inhabited F.DCRTPoly] (sv : Server F)
    {ssm : Store F.DCRTPoly} (hN : request.num_of_parties.toNat + 1 < 2 ^ 32)
    (hup : ∀ h ∈ ids request, uploaded ssm request.recover_client_id h =
      some (sv.secretShares request.recover_client_id.toNat h.toNat)) :
    ∃ fuel reply ssm', secretSharesToClient fuel ssm request = some (reply, ssm') ∧
      sv.secretSharesToClient request.recover_client_id.toNat request.threshold.toNat
        request.num_of_parties.toNat =
        if reply.sharesAvailable then
          some fun j => if j < 2 ^ 32 then reply.secretshares[UInt32.ofNat j]? else none
        else none := by
  refine ⟨_, _, _, secretSharesToClient_eq hN ssm, ?_⟩
  have hgiven : given request = (((Fifo.others request.num_of_parties.toNat
      request.recover_client_id.toNat).take request.threshold.toNat).map UInt32.ofNat) := by
    rw [given, ids, List.map_take]
  unfold Server.secretSharesToClient
  by_cases hnil : (Fifo.others request.num_of_parties.toNat
      request.recover_client_id.toNat).take request.threshold.toNat = []
  · simp [hgiven, hnil]
  · have hne : given request ≠ [] := by simpa [hgiven] using hnil
    have hpos := mt List.length_eq_zero_iff.mp hnil
    rw [if_neg hne]
    simp only [hpos, if_false, if_true]
    congr 1
    funext j
    by_cases hj : j < 2 ^ 32
    · rw [if_pos hj, getElem?_handedOut]
      simp only [ofNat_mem_given hj]
      split
      · next hmem =>
        have hids := List.mem_of_mem_take ((ofNat_mem_given hj).mpr hmem)
        rw [hup _ hids, toNat_ofNat hj]
        rfl
      · rfl
    · have hout : j ∉ (Fifo.others request.num_of_parties.toNat
          request.recover_client_id.toNat).take request.threshold.toNat := by
        intro hmem
        have := Fifo.mem_others.mp (List.mem_of_mem_take hmem)
        have := request.num_of_parties.toNat_lt
        omega
      rw [if_neg hj, if_neg hout]

end

end SecretShares

end ThreshNet

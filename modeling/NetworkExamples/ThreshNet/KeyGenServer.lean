import NetworkExamples.ThreshNet.ServerImpl
import NetworkExamples.ThreshNet.KeyGen

/-!
# The key generations over the threshold server

The clients of `KeyGen.lean` with the calls that they make: a client gets the crypto context, writes
each object that it uploads, and reads each one that it polls for. The server is `ServerImpl` with its
loop, so that the calls of the clients are on their way at the same time.

* `Rel`: the maps of the server hold the board of `KeyGen.lean`, written as texts.
* `Rel.step`, `Rel.follows`: the atomic calls are steps of that board, and the other way round.
* `served`: what the server gives out and the clients insert, and that the clients can go on.
-/

namespace ThreshNet

open Async P2P OpenFHE SecretShares

variable {F : OpenFHE} {α : Type}

/-! ## The calls -/

/-- The entry of the server's maps; the shares have a map of their own. -/
def Slot.keySlot : Slot → Option KeySlot
  | publicKey client_id => some (.PublicKeys (.ofNat client_id))
  | secretShares _ => none
  | evalMultKey client_id => some (.EvalKeyMults (.ofNat client_id))
  | evalMixMultKey client_id => some (.EvalKeyMixMults (.ofNat client_id))
  | evalSumKey client_id index_num =>
    some (.EvalKeySums (.ofNat client_id) (.ofNat index_num))

/-- The map of the shares that a client deals to the others. -/
def dealt (Num_of_parties client_id : ℕ) (share : ℕ → F.DCRTPoly) : Map F.DCRTPoly :=
  enter (fun h => share h.toNat) ((Fifo.others Num_of_parties client_id).map .ofNat) ∅

variable (ser : Serials F) (Num_of_parties : ℕ)

def Slot.write : (s : Slot) → s.Key F → String
  | publicKey _, key => ser.publicKey.serialize key
  | secretShares client_id, share => ser.secretShares.serialize (dealt Num_of_parties client_id share)
  | evalMultKey _, key | evalMixMultKey _, key => ser.evalKey.serialize key
  | evalSumKey _ _, keys => ser.evalSumKeys.serialize keys

/-- The call of an upload. -/
def Slot.fromClient : (s : Slot) → s.Key F → Request
  | publicKey client_id, key =>
    .PublicKeyFromClient (write ser Num_of_parties (publicKey client_id) key) (.ofNat client_id)
  | secretShares client_id, share => .SecretSharesFromClient
    (write ser Num_of_parties (secretShares client_id) share) (.ofNat client_id)
  | evalMultKey client_id, key =>
    .evalMultKeyFromClient (write ser Num_of_parties (evalMultKey client_id) key) (.ofNat client_id)
  | evalMixMultKey client_id, key => .evalMixMultKeyFromClient
    (write ser Num_of_parties (evalMixMultKey client_id) key) (.ofNat client_id)
  | evalSumKey client_id index_num, keys => .evalSumKeyFromClient
    (write ser Num_of_parties (evalSumKey client_id index_num) keys) (.ofNat client_id)
    (.ofNat index_num)

/-- A client, and the final keys that it has inserted. -/
inductive Session (F : OpenFHE) (α : Type) where
  /-- It gets the crypto context. -/
  | connect (main : F.CryptoContext → ClientM F α)
  | run (p : ClientM F α) (inserted : List (Inserted F))

/-- What a client throws at an empty key. The keys of the last client, and the mixed key of the first,
are final. -/
def Slot.emptyKey : Slot → String
  | publicKey client_id =>
    if client_id = Num_of_parties then "Received empty serialized final public key"
    else "Received empty serialized public key"
  -- No client polls for shares.
  | secretShares _ => ""
  | evalMultKey client_id =>
    if client_id = Num_of_parties then "Received empty serialized evalmultall key"
    else "Received empty serialized previous client evalmult key"
  | evalMixMultKey client_id =>
    if client_id = 1 then "Received empty serialized evalmultfinal key"
    else "Received empty serialized PrevevalMixMultKey key"
  | evalSumKey client_id index_num =>
    if index_num.val = 0 then "Received empty serialized previous client evalsum0 key"
    else if client_id = Num_of_parties then "Received empty serialized evalsumfinal key"
    else "Received empty serialized previous client evalsum1 key"

/-- What a client does with the reply to a poll. -/
def receive {β : Type} (emptyKey : String) (S : Serial β) (k : β → ClientM F α)
    (inserted : List (Inserted F)) (wait : Session F α) (reply : KeyReturn) : Session F α :=
  if reply.keyAvailable then
    match S.read emptyKey reply.key with
    | .ok key => .run (k key) inserted
    | .error e => .run (.throw e) inserted
  else wait

/-- The next call of a client. It polls for no shares, and polls until a key is there. -/
def Session.next : Session F α → Next (Session F α) Reply
  | .connect main => .call .CryptoContextFromServer fun (reply : CryptoContextReturn) =>
    match ser.cryptoContext.read "Received empty serialized CryptoContext" reply.cryptocontext with
    | .ok cc => .run (main cc) []
    | .error e => .run (.throw e) []
  | .run (.note x k) inserted => .go (.run k (inserted ++ [x]))
  | .run (.upload s v k) inserted =>
    .call (s.fromClient ser Num_of_parties v) fun _ => .run k inserted
  | .run (.poll (.publicKey client_id) k) inserted =>
    .call (.PublicKeyToClient (.ofNat client_id))
      (receive (Slot.emptyKey Num_of_parties (.publicKey client_id)) ser.publicKey k inserted
        (.run (.poll (.publicKey client_id) k) inserted))
  | .run (.poll (.evalMultKey client_id) k) inserted =>
    .call (.evalMultKeyToClient (.ofNat client_id))
      (receive (Slot.emptyKey Num_of_parties (.evalMultKey client_id)) ser.evalKey k inserted
        (.run (.poll (.evalMultKey client_id) k) inserted))
  | .run (.poll (.evalMixMultKey client_id) k) inserted =>
    .call (.evalMixMultKeyToClient (.ofNat client_id))
      (receive (Slot.emptyKey Num_of_parties (.evalMixMultKey client_id)) ser.evalKey k inserted
        (.run (.poll (.evalMixMultKey client_id) k) inserted))
  | .run (.poll (.evalSumKey client_id index_num) k) inserted =>
    .call (.evalSumKeyToClient (.ofNat client_id) (.ofNat index_num))
      (receive (Slot.emptyKey Num_of_parties (.evalSumKey client_id index_num)) ser.evalSumKeys k
        inserted (.run (.poll (.evalSumKey client_id index_num) k) inserted))
  | .run (.poll (.secretShares _) _) _ | .run (.query ..) _ | .run (.ret _) _ | .run (.throw _) _ =>
    .stop

/-! ### What the servicers do with them -/

section

variable {s : Slot} {w : KeySlot}

theorem write_ne (hw : s.keySlot = some w) (key : s.Key F) : s.write ser Num_of_parties key ≠ "" := by
  cases s with
  | publicKey => exact ser.publicKey.serialize_ne key
  | secretShares => cases hw
  | evalMultKey => exact ser.evalKey.serialize_ne key
  | evalMixMultKey => exact ser.evalKey.serialize_ne key
  | evalSumKey => exact ser.evalSumKeys.serialize_ne key

theorem size_dealt (hN : Num_of_parties < 2 ^ 32) (client_id : ℕ) (share : ℕ → F.DCRTPoly) :
    (dealt Num_of_parties client_id share).size = (Fifo.others Num_of_parties client_id).length := by
  have hnodup : ((Fifo.others Num_of_parties client_id).map UInt32.ofNat).Nodup := by
    refine List.Nodup.map_on (fun a ha b hb hab => ?_) (Fifo.nodup_others _ _)
    rw [Fifo.mem_others] at ha hb
    exact ofNat_inj hN ha.2.1 hb.2.1 hab
  unfold dealt
  rw [size_enter hnodup fun _ _ => Std.ExtHashMap.not_mem_empty, Std.ExtHashMap.size_empty,
    Nat.zero_add, List.length_map]

variable [Inhabited F.DCRTPoly]

/-- The upload of a key is accepted. -/
theorem handle_fromClient (hw : s.keySlot = some w) (key : s.Key F) (sv : ServerImpl F) :
    ∃ ack, ServerImpl.handle ser (s.fromClient ser Num_of_parties key) sv =
      .ok (ack, { sv with keys := sv.keys.fromClient w (s.write ser Num_of_parties key) }) := by
  have hne := write_ne ser Num_of_parties hw key
  cases s with
  | secretShares => cases hw
  | publicKey => cases hw; exact ⟨_, sv.keyFromClient_eq hne ..⟩
  | evalMultKey => cases hw; exact ⟨_, sv.keyFromClient_eq hne ..⟩
  | evalMixMultKey => cases hw; exact ⟨_, sv.keyFromClient_eq hne ..⟩
  | evalSumKey => cases hw; exact ⟨_, sv.keyFromClient_eq hne ..⟩

/-- The upload of the shares is accepted if there are other parties. -/
theorem handle_shares (h2 : 2 ≤ Num_of_parties) (hN : Num_of_parties < 2 ^ 32) (client_id : ℕ)
    (share : ℕ → F.DCRTPoly) (sv : ServerImpl F) : ∃ ack, ServerImpl.handle ser
      (Slot.fromClient ser Num_of_parties (.secretShares client_id) share) sv =
        .ok (ack, { sv with secretShares :=
          sv.secretShares.insert (.ofNat client_id) (dealt Num_of_parties client_id share) }) := by
  have hmem : ∃ j, j ∈ Fifo.others Num_of_parties client_id := by
    by_cases h1 : client_id = 1
    · exact ⟨2, Fifo.mem_others.mpr ⟨by omega, h2, by omega⟩⟩
    · exact ⟨1, Fifo.mem_others.mpr ⟨le_rfl, by omega, fun h => h1 h.symm⟩⟩
  obtain ⟨j, hj⟩ := hmem
  have hpos := List.length_pos_of_mem hj
  refine ⟨_, sv.secretSharesFromClient_eq (ser.secretShares.reads_serialize _) ?_ _⟩
  rw [size_dealt Num_of_parties hN]
  omega

/-- **A poll**: the client gets the key that is there, or polls again. -/
theorem next_poll (hw : s.keySlot = some w) (k : s.Key F → ClientM F α)
    (inserted : List (Inserted F)) : ∃ r K,
      Session.next ser Num_of_parties (.run (.poll s k) inserted) = .call r K ∧
      ∀ sv : ServerImpl F, ∃ reply, ServerImpl.handle ser r sv = .ok (reply, sv) ∧
        (sv.keys.ready w = false → K reply = .run (.poll s k) inserted) ∧
        ∀ key, sv.keys.ready w = true →
          sv.keys.keys w = some (s.write ser Num_of_parties key) →
            K reply = .run (k key) inserted := by
  have hreceive : ∀ {β : Type} (emptyKey : String) (S : Serial β) (k : β → ClientM F α)
      (wait : Session F α) (sv : ServerImpl F) (w : KeySlot), ∃ reply,
        sv.keyToClient w = .ok (reply, sv) ∧
        (sv.keys.ready w = false → receive emptyKey S k inserted wait reply = wait) ∧
        ∀ key, sv.keys.ready w = true → sv.keys.keys w = some (S.serialize key) →
          receive emptyKey S k inserted wait reply = .run (k key) inserted := by
    intro β emptyKey S k wait sv w
    refine ⟨_, rfl, fun hr => ?_, fun key hr hkey => ?_⟩
    · simp [receive, Rpc.Board.toClient, hr]
    · have hread := Serial.read_eq (S.reads_serialize key) emptyKey
      simp [receive, Rpc.Board.toClient, hr, hkey, hread]
  cases s with
  | secretShares => cases hw
  | publicKey => cases hw; exact ⟨_, _, rfl, fun sv => hreceive ..⟩
  | evalMultKey => cases hw; exact ⟨_, _, rfl, fun sv => hreceive ..⟩
  | evalMixMultKey => cases hw; exact ⟨_, _, rfl, fun sv => hreceive ..⟩
  | evalSumKey => cases hw; exact ⟨_, _, rfl, fun sv => hreceive ..⟩

end

/-! ## The calls of the key generations -/

/-- The slot is one of the clients `1, …, N`. -/
def Slot.InRange (N : ℕ) : Slot → Prop
  | publicKey i | secretShares i | evalMultKey i | evalMixMultKey i | evalSumKey i _ => 1 ≤ i ∧ i ≤ N

/-- The client uploads and polls for slots of the clients `1, …, N`; it polls for no shares. -/
def Within (N : ℕ) : ClientM F α → Prop
  | .ret _ | .throw _ => True
  | .note _ k => Within N k
  | .upload s _ k => s.InRange N ∧ Within N k
  | .poll s k => s.InRange N ∧ (∃ w, s.keySlot = some w) ∧ ∀ v, Within N (k v)
  | .query .. => False

section

variable {N i : ℕ}

/-- In the range the entries of the server's maps are different. -/
theorem keySlot_inj (hN : N < 2 ^ 32) {s s' : Slot} {w : KeySlot} (hs : s.InRange N)
    (hs' : s'.InRange N) (hw : s.keySlot = some w) (hw' : s'.keySlot = some w) : s = s' := by
  have hindex : ∀ a b : Fin 2, UInt32.ofNat a.val = UInt32.ofNat b.val → a = b := by decide
  cases s <;> cases hw <;> cases s' <;> simp only [Slot.keySlot, Option.some.injEq, reduceCtorEq,
    KeySlot.PublicKeys.injEq, KeySlot.EvalKeyMults.injEq, KeySlot.EvalKeyMixMults.injEq,
    KeySlot.EvalKeySums.injEq] at hw'
  · rw [ofNat_inj hN hs'.2 hs.2 hw']
  · rw [ofNat_inj hN hs'.2 hs.2 hw']
  · rw [ofNat_inj hN hs'.2 hs.2 hw']
  · rw [ofNat_inj hN hs'.2 hs.2 hw'.1, hindex _ _ hw'.2]

variable {β : Type}

theorem Within.bind {p : ClientM F α} {f : α → ClientM F β} (h : Within N p)
    (hf : ∀ a, Within N (f a)) : Within N (p >>= f) := by
  induction p with
  | ret a => exact hf a
  | throw e => trivial
  | note x k ih => exact ih h
  | upload s v k ih => exact ⟨h.1, ih h.2⟩
  | poll s k ih => exact ⟨h.1, h.2.1, fun v => ih v (h.2.2 v)⟩
  | query s k ih => exact h.elim

variable {cc : F.CryptoContext} {r : F.Rand} {keyPair : KeyPair F.PublicKey F.SecretKey}
  {FinalPubKey : F.PublicKey}

theorem within_makeKeyPair (h1 : 1 ≤ i) (hN : i ≤ N) : Within N (makeKeyPair cc r i) := by
  unfold makeKeyPair publicKeyToClient
  split
  · trivial
  · exact ⟨⟨by omega, by omega⟩, ⟨_, rfl⟩, fun _ => trivial⟩

theorem within_getFinalPubKey (h1 : 1 ≤ i) (hN : i ≤ N) :
    Within N (getFinalPubKey i N keyPair) := by
  unfold getFinalPubKey publicKeyToClient
  split
  · exact ⟨⟨by omega, le_rfl⟩, ⟨_, rfl⟩, fun _ => trivial⟩
  · trivial

theorem within_evalMultKeyGen (h1 : 1 ≤ i) (hN : i ≤ N) :
    Within N (evalMultKeyGen cc r i N keyPair FinalPubKey) := by
  unfold evalMultKeyGen evalMultKeyFromClient evalMultKeyToClient evalMixMultKeyFromClient
  split
  · exact ⟨⟨h1, hN⟩, trivial⟩
  · split
    · refine ⟨⟨by omega, by omega⟩, ⟨_, rfl⟩, fun _ => ⟨⟨h1, hN⟩, ?_⟩⟩
      split
      · exact ⟨⟨h1, hN⟩, trivial⟩
      · trivial
    · trivial

theorem within_evalMixMultKeyGen (h1 : 1 ≤ i) (hN : i ≤ N) :
    Within N (evalMixMultKeyGen cc r i N keyPair FinalPubKey) := by
  unfold evalMixMultKeyGen evalMultKeyToClient evalMixMultKeyToClient evalMixMultKeyFromClient
    insertEvalMultKey
  split
  · refine ⟨⟨by omega, le_rfl⟩, ⟨_, rfl⟩, fun _ => ⟨⟨by omega, by omega⟩, ⟨_, rfl⟩, fun _ =>
      ⟨⟨h1, hN⟩, ?_⟩⟩⟩
    split
    · trivial
    · trivial
  · trivial

theorem within_getEvalMultFinal (hN : 1 ≤ N) :
    Within N (getEvalMultFinal i : ClientM F Unit) := by
  unfold getEvalMultFinal evalMixMultKeyToClient insertEvalMultKey
  split
  · exact ⟨⟨le_rfl, hN⟩, ⟨_, rfl⟩, fun _ => trivial⟩
  · trivial

theorem within_evalSumKeyGen (h1 : 1 ≤ i) (hN : i ≤ N) :
    Within N (evalSumKeyGen cc r i N keyPair) := by
  unfold evalSumKeyGen evalSumKeyFromClient evalSumKeyToClient insertEvalSumKey
  split
  · exact ⟨⟨h1, hN⟩, ⟨h1, hN⟩, trivial⟩
  · split
    · refine ⟨⟨by omega, by omega⟩, ⟨_, rfl⟩, fun _ => ⟨⟨by omega, by omega⟩, ⟨_, rfl⟩, fun _ =>
        ⟨⟨h1, hN⟩, ⟨h1, hN⟩, ?_⟩⟩⟩
      split
      · trivial
      · trivial
    · trivial

theorem within_getEvalSumFinal (h1 : 1 ≤ N) :
    Within N (getEvalSumFinal i N : ClientM F Unit) := by
  unfold getEvalSumFinal evalSumKeyToClient insertEvalSumKey
  split
  · exact ⟨⟨h1, le_rfl⟩, ⟨_, rfl⟩, fun _ => trivial⟩
  · trivial

theorem within_keyGen (op : ComputeOperation) (h1 : 1 ≤ i) (hN : i ≤ N) :
    Within N (keyGen cc r i N op) := by
  unfold keyGen
  refine (within_makeKeyPair h1 hN).bind fun keyPair => ⟨⟨h1, hN⟩, ?_⟩
  refine (within_getFinalPubKey h1 hN).bind fun FinalPubKey => ⟨⟨h1, hN⟩, ?_⟩
  show Within N (evalKeyGen cc r i N op keyPair FinalPubKey >>= fun _ => pure keyPair)
  refine Within.bind ?_ fun _ => trivial
  cases op with
  | multiply =>
    refine (within_evalMultKeyGen h1 hN).bind fun _ => ?_
    exact (within_evalMixMultKeyGen h1 hN).bind fun _ => within_getEvalMultFinal (h1.trans hN)
  | add => trivial
  | vectorsum =>
    exact (within_evalSumKeyGen h1 hN).bind fun _ => within_getEvalSumFinal (h1.trans hN)

end

/-! ## The board on the server -/

section

variable (ser : Serials F) (cc : F.CryptoContext) (N : ℕ)

/-- **The maps of the server hold the board**, written as texts; `cc` is its crypto context. -/
structure OnServer (sv : ServerImpl F) (b : Rpc.Board Slot (Slot.Key F)) : Prop where
  context : sv.cc = cc
  ready : ∀ s w, s.InRange N → s.keySlot = some w → sv.keys.ready w = b.ready s
  keys : ∀ s w v, s.InRange N → s.keySlot = some w → b.keys s = some v →
    sv.keys.keys w = some (s.write ser N v)
  shares : ∀ i share, 1 ≤ i → i ≤ N → b.keys (.secretShares i) = some share →
    sv.secretShares[UInt32.ofNat i]? = some (dealt N i share)
  /-- The maps of the decryption. -/
  untouched : sv.partialCiphertexts = (fun _ => []) ∧ sv.ctRecdFlag = (fun _ => false) ∧
    sv.abortsPartialCiphertexts = fun _ => []

/-- The clients are where they are on the board. -/
structure Rel (t : Atomic (Fin N) (ServerImpl F) (Session F α))
    (σ : Rpc.System (Fin N) Slot (Slot.Key F) (Inserted F) α) : Prop where
  maps : OnServer ser cc N t.state σ.board
  client : ∀ i, t.client i = .run (σ.client i) (σ.hist i) ∨
    ∃ main, t.client i = .connect main ∧ σ.client i = main cc ∧ σ.hist i = []
  within : ∀ i, Within N (σ.client i)

end

section

variable {ser : Serials F} {cc : F.CryptoContext} {N : ℕ} {sv : ServerImpl F}
  {b : Rpc.Board Slot (Slot.Key F)} {s : Slot}

theorem onServer_init : OnServer ser cc N (.init cc) .empty :=
  ⟨rfl, fun _ _ _ _ => rfl, nofun, nofun, rfl, rfl, rfl⟩

/-- A key is uploaded. -/
theorem OnServer.fromClient (h : OnServer ser cc N sv b) (hN : N < 2 ^ 32) {w : KeySlot}
    (hs : s.InRange N) (hw : s.keySlot = some w) (v : s.Key F) :
    OnServer ser cc N { sv with keys := sv.keys.fromClient w (s.write ser N v) }
      (b.fromClient s v) := by
  have hne : ∀ s' w', s'.InRange N → s'.keySlot = some w' → s' ≠ s → w' ≠ w := by
    rintro s' w' hs' hw' hss rfl
    exact hss (keySlot_inj hN hs' hs hw' hw)
  refine ⟨h.context, fun s' w' hs' hw' => ?_, fun s' w' v' hs' hw' hv' => ?_,
    fun i share h1 hi hshare => ?_, h.untouched⟩
  · by_cases hss : s' = s
    · subst hss
      obtain rfl : w' = w := Option.some.inj (hw'.symm.trans hw)
      simp [Rpc.Board.fromClient]
    · simpa [Rpc.Board.fromClient, hss, hne s' w' hs' hw' hss] using h.ready s' w' hs' hw'
  · by_cases hss : s' = s
    · subst hss
      obtain rfl : w' = w := Option.some.inj (hw'.symm.trans hw)
      simp only [Rpc.Board.fromClient, Function.update_self, Option.some.injEq] at hv' ⊢
      rw [hv']
    · simp only [Rpc.Board.fromClient, Function.update_of_ne hss,
        Function.update_of_ne (hne s' w' hs' hw' hss)] at hv' ⊢
      exact h.keys s' w' v' hs' hw' hv'
  · have hss : Slot.secretShares i ≠ s := by
      rintro rfl
      cases hw
    exact h.shares i share h1 hi (by simpa [Rpc.Board.fromClient, hss] using hshare)

/-- Shares are uploaded. -/
theorem OnServer.shares_fromClient (h : OnServer ser cc N sv b) (hN : N < 2 ^ 32) {i : ℕ}
    (hi : i ≤ N) (share : ℕ → F.DCRTPoly) : OnServer ser cc N
      { sv with secretShares := sv.secretShares.insert (.ofNat i) (dealt N i share) }
      (b.fromClient (.secretShares i) share) := by
  have hkey : ∀ s' w', Slot.keySlot s' = some w' → s' ≠ .secretShares i := by
    rintro s' w' hw' rfl
    cases hw'
  refine ⟨h.context, fun s' w' hs' hw' => ?_, fun s' w' v' hs' hw' hv' => ?_,
    fun j share' h1 hj hshare => ?_, h.untouched⟩
  · simpa [Rpc.Board.fromClient, hkey s' w' hw'] using h.ready s' w' hs' hw'
  · exact h.keys s' w' v' hs' hw' (by simpa [Rpc.Board.fromClient, hkey s' w' hw'] using hv')
  · rw [Std.ExtHashMap.getElem?_insert]
    by_cases hji : j = i
    · subst hji
      have hself := Function.update_self (Slot.secretShares j) (some share) b.keys
      rw [Option.some.inj (hself.symm.trans hshare)]
      simp
    · have hne : UInt32.ofNat i ≠ UInt32.ofNat j := fun he => hji (ofNat_inj hN hi hj he).symm
      rw [if_neg (by simpa using hne)]
      exact h.shares j share' h1 hj (by simpa [Rpc.Board.fromClient, hji] using hshare)

end

/-! ## The steps -/

namespace Rel

variable {ser : Serials F} {cc : F.CryptoContext} {N : ℕ} {sv : ServerImpl F} {i : Fin N}
  {b : Rpc.Board Slot (Slot.Key F)} {t t' : Atomic (Fin N) (ServerImpl F) (Session F α)}
  {σ : Rpc.System (Fin N) Slot (Slot.Key F) (Inserted F) α}

/-- Client `i` goes on with `k`. -/
theorem goOn (h : Rel ser cc N t σ) (hm : OnServer ser cc N sv b) {k : ClientM F α}
    (hk : Within N k) (inserted : List (Inserted F)) : Rel ser cc N
      ⟨sv, Function.update t.client i (.run k inserted)⟩
      { σ.goOn i k with board := b, hist := Function.update σ.hist i inserted } where
  maps := hm
  client j := by
    by_cases hj : j = i
    · subst hj
      exact .inl (by simp [Rpc.System.goOn])
    · simpa [Rpc.System.goOn, hj] using h.client j
  within j := by
    by_cases hj : j = i
    · subst hj
      simpa [Rpc.System.goOn] using hk
    · simpa [Rpc.System.goOn, hj] using h.within j

/-- Client `i` goes on, and has inserted nothing. -/
theorem goOn_same (h : Rel ser cc N t σ) (hm : OnServer ser cc N sv b) {k : ClientM F α}
    (hk : Within N k) : Rel ser cc N ⟨sv, Function.update t.client i (.run k (σ.hist i))⟩
      { σ.goOn i k with board := b } := by
  have hgo := h.goOn (i := i) hm hk (σ.hist i)
  rwa [Function.update_eq_self] at hgo

variable [Inhabited F.DCRTPoly]

/-- Client `i` gets the crypto context. -/
theorem connect (h : Rel ser cc N t σ) {main : F.CryptoContext → ClientM F α}
    (hmain : t.client i = .connect main) : ∃ K reply,
      Session.next ser N (t.client i) = .call .CryptoContextFromServer K ∧
      ServerImpl.handle ser .CryptoContextFromServer t.state = .ok (reply, t.state) ∧
      K reply = .run (σ.client i) (σ.hist i) ∧
      Rel ser cc N ⟨t.state, Function.update t.client i (.run (σ.client i) (σ.hist i))⟩ σ := by
  obtain ⟨main', hmain', hp, hhist⟩ := (h.client i).resolve_left (by rw [hmain]; nofun)
  rw [hmain] at hmain'
  cases hmain'
  have hread := Serial.read_eq (ser.cryptoContext.reads_serialize t.state.cc)
    "Received empty serialized CryptoContext"
  refine ⟨_, _, congrArg (Session.next ser N) hmain, t.state.cryptoContextFromServer_eq, ?_,
    h.maps, fun j => ?_, h.within⟩
  · dsimp only
    rw [hread, h.maps.context, hp, hhist]
  · by_cases hj : j = i
    · subst hj
      exact .inl (by simp)
    · simpa [hj] using h.client j

variable {spec : ∀ s, Slot.Key F s} {P : Fin N → Inserted F → Prop} {Q : Fin N → α → Prop}

/-- An upload is accepted. -/
theorem upload (h : Rel ser cc N t σ) (h2 : 2 ≤ N) (hN : N < 2 ^ 32) {s : Slot} {v : s.Key F}
    {k : ClientM F α} (hp : σ.client i = .upload s v k) : ∃ reply sv',
      ServerImpl.handle ser (s.fromClient ser N v) t.state = .ok (reply, sv') ∧
      Rel ser cc N ⟨sv', Function.update t.client i (.run k (σ.hist i))⟩ (σ.step i) := by
  have hwithin := h.within i
  rw [hp] at hwithin
  have hstep : σ.step i = { σ.goOn i k with board := σ.board.fromClient s v } := by
    simp [Rpc.System.step, hp]
  rw [hstep]
  cases hw : s.keySlot with
  | some w =>
    obtain ⟨ack, hack⟩ := handle_fromClient ser N hw v t.state
    exact ⟨ack, _, hack, h.goOn_same (h.maps.fromClient hN hwithin.1 hw v) hwithin.2⟩
  | none =>
    cases s with
    | secretShares j =>
      obtain ⟨ack, hack⟩ := handle_shares ser N h2 hN j v t.state
      exact ⟨ack, _, hack, h.goOn_same (h.maps.shares_fromClient hN hwithin.1.2 v) hwithin.2⟩
    | publicKey | evalMultKey | evalMixMultKey | evalSumKey => cases hw

/-- A poll returns what the board has. -/
theorem poll (h : Rel ser cc N t σ) (hσ : σ.Promised spec P Q) {s : Slot}
    {k : s.Key F → ClientM F α} (hp : σ.client i = .poll s k) : ∃ r K reply,
      Session.next ser N (.run (σ.client i) (σ.hist i)) = .call r K ∧
      ServerImpl.handle ser r t.state = .ok (reply, t.state) ∧
      Rel ser cc N ⟨t.state, Function.update t.client i (K reply)⟩ (σ.step i) := by
  have hwithin := h.within i
  rw [hp] at hwithin
  obtain ⟨hs, ⟨w, hw⟩, hk⟩ := hwithin
  obtain ⟨r, K, hnext, hhandle⟩ := next_poll ser N hw k (σ.hist i)
  obtain ⟨reply, hreply, hwait, hgot⟩ := hhandle t.state
  refine ⟨r, K, reply, by rw [hp]; exact hnext, hreply, ?_⟩
  have hready := h.maps.ready s w hs hw
  cases hr : σ.board.ready s with
  | false =>
    have hstep : σ.step i = { σ.goOn i (.poll s k) with board := σ.board } := by
      have hsame : Function.update σ.client i (.poll s k) = σ.client := by
        rw [← hp, Function.update_eq_self]
      simp [Rpc.System.step, hp, Rpc.Board.toClient, hr, Rpc.System.goOn, hsame]
    rw [hwait (hready.trans hr), hstep]
    exact h.goOn_same h.maps ⟨hs, ⟨w, hw⟩, hk⟩
  | true =>
    have hkey := hσ.ready s hr
    have hstep : σ.step i = { σ.goOn i (k (spec s)) with board := σ.board } := by
      simp [Rpc.System.step, hp, Rpc.Board.toClient, hr, hkey, Rpc.System.goOn]
    rw [hgot (spec s) (hready.trans hr) (h.maps.keys s w (spec s) hs hw hkey), hstep]
    exact h.goOn_same h.maps (hk (spec s))

/-- **What a client does next** is its next step on the board. -/
theorem acts (h : Rel ser cc N t σ) (hσ : σ.Promised spec P Q) (h2 : 2 ≤ N) (hN : N < 2 ^ 32)
    (i : Fin N) :
    (Session.next ser N (.run (σ.client i) (σ.hist i)) = .stop ∧ σ.step i = σ) ∨
    (∃ c, Session.next ser N (.run (σ.client i) (σ.hist i)) = .go c ∧
      Rel ser cc N ⟨t.state, Function.update t.client i c⟩ (σ.step i)) ∨
    ∃ r K reply sv', Session.next ser N (.run (σ.client i) (σ.hist i)) = .call r K ∧
      ServerImpl.handle ser r t.state = .ok (reply, sv') ∧
      Rel ser cc N ⟨sv', Function.update t.client i (K reply)⟩ (σ.step i) := by
  have hwithin := h.within i
  cases hp : σ.client i with
  | ret a => exact .inl ⟨rfl, by simp [Rpc.System.step, hp]⟩
  | throw e => exact .inl ⟨rfl, by simp [Rpc.System.step, hp]⟩
  | note x k =>
    rw [hp] at hwithin
    have hstep : σ.step i = { σ.goOn i k with
        board := σ.board, hist := Function.update σ.hist i (σ.hist i ++ [x]) } := by
      simp [Rpc.System.step, hp, Rpc.System.goOn]
    refine .inr (.inl ⟨_, rfl, ?_⟩)
    rw [hstep]
    exact h.goOn (k := k) h.maps hwithin _
  | upload s v k =>
    obtain ⟨reply, sv', hhandle, hrel⟩ := h.upload h2 hN hp
    exact .inr (.inr ⟨_, _, reply, sv', rfl, hhandle, hrel⟩)
  | poll s k =>
    obtain ⟨r, K, reply, hnext, hhandle, hrel⟩ := h.poll hσ hp
    rw [hp] at hnext
    exact .inr (.inr ⟨r, K, reply, _, hnext, hhandle, hrel⟩)
  | query s k =>
    rw [hp] at hwithin
    exact hwithin.elim

/-- **An atomic call is a step on the board, or none.** -/
theorem step (h : Rel ser cc N t σ) (hσ : σ.Promised spec P Q) (h2 : 2 ≤ N) (hN : N < 2 ^ 32)
    (hs : Atomic.Step (ServerImpl.service ser) (Session.next ser N) (fun _ _ => False) t t') :
    ∃ σ', σ.Runs σ' ∧ Rel ser cc N t' σ' := by
  have hrun : ∀ i : Fin N, σ.Runs (σ.step i) := fun i => (Schedule.Reach.refl).tail i trivial
  cases hs with
  | env henv => exact henv.elim
  | @go i c hnext =>
    rcases h.client i with hc | ⟨main, hc, -⟩
    · rw [hc] at hnext
      obtain ⟨hn, -⟩ | ⟨c', hn, hrel⟩ | ⟨r, K, reply, sv', hn, -, -⟩ := h.acts hσ h2 hN i
      · rw [hn] at hnext
        cases hnext
      · rw [hn] at hnext
        cases hnext
        exact ⟨_, hrun i, hrel⟩
      · rw [hn] at hnext
        cases hnext
    · rw [hc] at hnext
      cases hnext
  | @call i r k rep state hnext hhandle =>
    rcases h.client i with hc | ⟨main, hc, -⟩
    · rw [hc] at hnext
      obtain ⟨hn, -⟩ | ⟨c', hn, -⟩ | ⟨r', K, reply, sv', hn, hh, hrel⟩ := h.acts hσ h2 hN i
      · rw [hn] at hnext
        cases hnext
      · rw [hn] at hnext
        cases hnext
      · rw [hn] at hnext
        cases hnext
        cases hh.symm.trans hhandle
        exact ⟨_, hrun i, hrel⟩
    · obtain ⟨K, reply, hn, hh, hK, hrel⟩ := h.connect hc
      rw [hn] at hnext
      cases hnext
      cases hh.symm.trans hhandle
      exact ⟨σ, .refl, hK ▸ hrel⟩

theorem runs (h : Rel ser cc N t σ) (hσ : σ.Promised spec P Q) (h2 : 2 ≤ N) (hN : N < 2 ^ 32)
    (hr : Atomic.Runs (ServerImpl.service ser) (Session.next ser N) (fun _ _ => False) t t') :
    ∃ σ', σ.Runs σ' ∧ Rel ser cc N t' σ' := by
  induction hr with
  | refl => exact ⟨σ, .refl, h⟩
  | tail _ hs ih =>
    obtain ⟨σ', hrun, hrel⟩ := ih
    obtain ⟨σ'', hrun', hrel'⟩ := hrel.step (hσ.runs hrun) h2 hN hs
    exact ⟨σ'', hrun.trans hrun', hrel'⟩

/-! ### The other way round -/

/-- The clients of `A` get the crypto context. -/
theorem connects (h : Rel ser cc N t σ) (A : Finset (Fin N)) : ∃ t',
    Atomic.Runs (ServerImpl.service ser) (Session.next ser N) (fun _ _ => False) t t' ∧
      Rel ser cc N t' σ ∧ ∀ i ∈ A, t'.client i = .run (σ.client i) (σ.hist i) := by
  induction A using Finset.induction_on with
  | empty => exact ⟨t, .refl, h, fun i hi => absurd hi (Finset.notMem_empty i)⟩
  | insert j A _ ih =>
    obtain ⟨t', hr, hrel, hA⟩ := ih
    rcases hrel.client j with hj | ⟨main, hj, -⟩
    · refine ⟨t', hr, hrel, fun i hi => ?_⟩
      rcases Finset.mem_insert.mp hi with rfl | hi
      · exact hj
      · exact hA i hi
    · obtain ⟨K, reply, hn, hh, hK, hrel'⟩ := hrel.connect hj
      refine ⟨_, hr.tail (.call hn hh), hK ▸ hrel', fun i hi => ?_⟩
      by_cases hij : i = j
      · subst hij
        simpa using hK
      · simpa [hij] using hA i ((Finset.mem_insert.mp hi).resolve_left hij)

/-- **A step on the board is an atomic call**, after the client has got the crypto context. -/
theorem follows (h : Rel ser cc N t σ) (hσ : σ.Promised spec P Q) (h2 : 2 ≤ N) (hN : N < 2 ^ 32)
    {σ' : Rpc.System (Fin N) Slot (Slot.Key F) (Inserted F) α} (hr : σ.Runs σ') : ∃ t',
    Atomic.Runs (ServerImpl.service ser) (Session.next ser N) (fun _ _ => False) t t' ∧
      Rel ser cc N t' σ' := by
  induction hr with
  | refl => exact ⟨t, .refl, h⟩
  | @tail σ' hr i _ ih =>
    obtain ⟨t', hrt, hrel⟩ := ih
    obtain ⟨t'', hrt', hrel', hi⟩ := hrel.connects {i}
    have hi := hi i (Finset.mem_singleton_self i)
    obtain ⟨-, hs⟩ | ⟨c, hn, hrel''⟩ | ⟨r, K, reply, sv', hn, hh, hrel''⟩ :=
      hrel'.acts (hσ.runs hr) h2 hN i
    · exact ⟨t'', hrt.trans hrt', by rwa [hs]⟩
    · exact ⟨_, (hrt.trans hrt').tail (.go (by rw [hi]; exact hn)), hrel''⟩
    · exact ⟨_, (hrt.trans hrt').tail (.call (by rw [hi]; exact hn) hh), hrel''⟩

end Rel

/-! ## The runs -/

section

variable {ser : Serials F} {N : ℕ}

/-- A client inserts nothing while it waits for a reply. -/
theorem inserted_of_call {p : ClientM F α} {inserted : List (Inserted F)} {r : Request}
    {k : Reply r → Session F α}
    (hnext : Session.next ser N (.run p inserted) = .call r k) (reply : Reply r) :
    ∃ p', k reply = .run p' inserted := by
  have hreceive : ∀ {β : Type} (emptyKey : String) (S : Serial β) (f : β → ClientM F α)
      (q : ClientM F α) (reply : KeyReturn),
        ∃ p', receive emptyKey S f inserted (.run q inserted) reply = .run p' inserted := by
    intro β emptyKey S f q reply
    unfold receive
    split
    · split
      · exact ⟨_, rfl⟩
      · exact ⟨_, rfl⟩
    · exact ⟨_, rfl⟩
  cases p with
  | ret | throw | note | query => cases hnext
  | upload s v f =>
    cases hnext
    exact ⟨f, rfl⟩
  | poll s f =>
    cases s with
    | secretShares => cases hnext
    | publicKey => cases hnext; exact hreceive ..
    | evalMultKey => cases hnext; exact hreceive ..
    | evalMixMultKey => cases hnext; exact hreceive ..
    | evalSumKey => cases hnext; exact hreceive ..

variable [Inhabited F.DCRTPoly]

/-- The clients make only requests that are accepted. -/
theorem handled (h2 : 2 ≤ N) (hN : N < 2 ^ 32) :
    System.Handled (ServerImpl.service ser) (Session.next (α := α) ser N) := by
  intro c r k hnext sv
  cases c with
  | connect main =>
    cases hnext
    exact ⟨_, sv.cryptoContextFromServer_eq⟩
  | run p inserted =>
    cases p with
    | ret | throw | note | query => cases hnext
    | upload s v k =>
      cases hnext
      cases hw : s.keySlot with
      | some w =>
        obtain ⟨ack, hack⟩ := handle_fromClient ser N hw v sv
        exact ⟨_, hack⟩
      | none =>
        cases s with
        | secretShares j =>
          obtain ⟨ack, hack⟩ := handle_shares ser N h2 hN j v sv
          exact ⟨_, hack⟩
        | publicKey | evalMultKey | evalMixMultKey | evalSumKey => cases hw
    | poll s k =>
      cases hw : s.keySlot with
      | some w =>
        obtain ⟨r', K, hn, hh⟩ := next_poll ser N hw k inserted
        rw [hn] at hnext
        cases hnext
        obtain ⟨reply, hreply, -⟩ := hh sv
        exact ⟨_, hreply⟩
      | none =>
        cases s with
        | secretShares j => cases hnext
        | publicKey | evalMultKey | evalMixMultKey | evalSumKey => cases hw

variable (ser)

/-- The server and the clients `1, …, N`. -/
def keyGenServer (cc : F.CryptoContext) (r : ℕ → F.Rand) (N : ℕ) (op : ComputeOperation) :
    System Method (Fin N) (ServerImpl F) (Session F (KeyPair F.PublicKey F.SecretKey)) Reply :=
  ServerImpl.HandleRpcs cc fun i => .connect fun cc => clients cc r N op i

/-- A state of a run over the server is one of a run on the board. -/
theorem runs_rel (cc : F.CryptoContext) (r : ℕ → F.Rand) (op : ComputeOperation) (h2 : 2 ≤ N)
    (hN : N < 2 ^ 32)
    {x : System Method (Fin N) (ServerImpl F) (Session F (KeyPair F.PublicKey F.SecretKey)) Reply}
    (hr : ServerImpl.Runs ser (Session.next ser N) (keyGenServer cc r N op) x) :
    ∃ t σ, Sim (Session.next ser N) x t ∧ (Rpc.System.init (clients cc r N op)).Runs σ ∧
      Rel ser cc N t σ := by
  have hsim₀ : Sim (Session.next ser N) (keyGenServer cc r N op) ⟨.init cc, _⟩ :=
    .init (by decide) (ServerImpl.service ser) _ _
  obtain ⟨t, hrt, hsim⟩ := hsim₀.runs (ServerImpl.handleRpcs_inv ser _ cc _) hr
  have hrel₀ : Rel ser cc N ⟨.init cc, fun i => .connect fun cc => clients cc r N op i⟩
      (Rpc.System.init (clients cc r N op)) :=
    ⟨onServer_init, fun i => .inr ⟨_, rfl, rfl, rfl⟩, fun i =>
      within_keyGen op (Nat.le_add_left _ _) i.isLt⟩
  obtain ⟨σ, hσ, hrel⟩ := hrel₀.runs (promised_clients cc r N op) h2 hN hrt
  exact ⟨t, σ, hsim, hσ, hrel⟩

variable {ser}

/-- As long as the server is up, the clients can go on until all have ended. -/
theorem completes {cc : F.CryptoContext} {r : ℕ → F.Rand} {op : ComputeOperation} (h2 : 2 ≤ N)
    (hN : N < 2 ^ 32)
    {x : System Method (Fin N) (ServerImpl F) (Session F (KeyPair F.PublicKey F.SecretKey)) Reply}
    (hr : ServerImpl.Runs ser (Session.next ser N) (keyGenServer cc r N op) x) (hup : x.Up) :
    ∃ x', ServerImpl.Runs ser (Session.next ser N) x x' ∧ x'.Up ∧
      ∀ i, ∃ inserted, x'.client i = .run (.ret (P2P.keyPair F cc r (i.val + 1))) inserted := by
  -- First all calls are answered, then the clients act as on the board.
  have hinv := ServerImpl.runs_inv hr
  obtain ⟨x₁, hr₁, hup₁, hquiet₁⟩ := hinv.drains hup (handled h2 hN)
  obtain ⟨t₁, σ₁, hsim₁, hσr₁, hrel₁⟩ := runs_rel ser cc r op h2 hN (hr.trans hr₁)
  obtain rfl := hquiet₁.sim_eq hsim₁
  have hσ₁ := (promised_clients cc r N op).runs hσr₁
  have ho₁ := (orderly_clients cc r N op).runs (promised_clients cc r N op) hσr₁
  obtain ⟨σ₂, hσr₂, hend⟩ := hσ₁.completes ho₁ fun i hi => absurd (Finset.mem_univ i) hi
  obtain ⟨t₂, hrt₂, hrel₂⟩ := hrel₁.follows hσ₁ h2 hN hσr₂
  obtain ⟨t₃, hrt₃, -, hall⟩ := hrel₂.connects Finset.univ
  obtain ⟨x₃, hr₃, hup₃, -, ht₃⟩ := (hinv.runs hr₁).performs_runs hup₁ hquiet₁ (hrt₂.trans hrt₃)
  refine ⟨x₃, hr₁.trans hr₃, hup₃, fun i => ⟨σ₂.hist i, ?_⟩⟩
  obtain ⟨keyPair, hret, rfl⟩ := hend i
  rw [← hret, ← hall i (Finset.mem_univ i), ← ht₃]

omit [Inhabited F.DCRTPoly] in
/-- Every client deals its shares. -/
theorem orderly_shares (cc : F.CryptoContext) (r : ℕ → F.Rand) (op : ComputeOperation) :
    (Rpc.System.init (clients cc r N op)).Orderly (chainKey cc r N)
      (fun s => Polled N op s ∨ ∃ i : Fin N, s = .secretShares (i.val + 1)) (rank N) where
  uploads s hs := by
    rcases hs with hs | ⟨i, rfl⟩
    · exact (orderly_clients cc r N op).uploads s hs
    · refine .inr ⟨i, ?_⟩
      show (keyGen cc (r (i.val + 1)) (i.val + 1) N op).Uploads _ _
      unfold keyGen
      refine Rpc.Client.uploads_bind (promises_makeKeyPair (K := ∅) (Nat.le_add_left _ _)) ?_
      rintro _ _ rfl
      refine .inr ?_
      change Rpc.Client.Uploads _ _ (getFinalPubKey _ N (P2P.keyPair F cc r _) >>= _)
      refine Rpc.Client.uploads_bind (promises_getFinalPubKey (K := ∅)) ?_
      rintro _ _ ⟨rfl, -⟩
      exact .inl rfl
  ordered i := by
    obtain ⟨t, t', ht⟩ := (orderly_clients cc r N op).ordered i
    exact ⟨t, t', ht.imp fun _ => .inl⟩

/-- Where all clients have ended, the server has all shares, and nothing of the decryption. -/
theorem dealt_of_ended {cc : F.CryptoContext} {r : ℕ → F.Rand} {op : ComputeOperation} (h2 : 2 ≤ N)
    (hN : N < 2 ^ 32)
    {x : System Method (Fin N) (ServerImpl F) (Session F (KeyPair F.PublicKey F.SecretKey)) Reply}
    (hr : ServerImpl.Runs ser (Session.next ser N) (keyGenServer cc r N op) x)
    (hend : ∀ i, ∃ keyPair inserted, x.client i = .run (.ret keyPair) inserted) :
    (∀ i, 1 ≤ i → i ≤ N → x.server.state.secretShares[UInt32.ofNat i]? =
      some (dealt N i (F.shareKeys cc (r i) (secretKey F cc r i) N (N / 2 + 1) i))) ∧
    x.server.state.partialCiphertexts = (fun _ => []) ∧
    x.server.state.ctRecdFlag = (fun _ => false) ∧
    x.server.state.abortsPartialCiphertexts = fun _ => [] := by
  obtain ⟨t, σ, hsim, hσr, hrel⟩ := runs_rel ser cc r op h2 hN hr
  have hσ := (promised_clients cc r N op).runs hσr
  have ho := (orderly_shares cc r op).runs (promised_clients cc r N op) hσr
  rw [← hsim.state]
  refine ⟨fun i h1 hi => ?_, hrel.maps.untouched⟩
  have hret : ∀ i, ∃ keyPair, σ.client i = .ret keyPair := by
    intro i
    obtain ⟨keyPair, inserted, hc⟩ := hend i
    have ht : t.client i = .run (.ret keyPair) inserted := by
      rcases hsim.client_or (ServerImpl.runs_inv hr) i with ht | ⟨-, req, k, rep, hnext, -⟩
      · exact ht.trans hc
      · rw [hc] at hnext
        cases hnext
    rcases hrel.client i with hi | ⟨main, hi, -⟩
    · rw [ht] at hi
      injection hi with hi
      exact ⟨keyPair, hi.symm⟩
    · rw [ht] at hi
      cases hi
  obtain ⟨j, rfl⟩ : ∃ j, i = j + 1 := ⟨i - 1, by omega⟩
  have hready := (ho.uploads (.secretShares (j + 1)) (.inr ⟨⟨j, hi⟩, rfl⟩)).resolve_right <| by
    rintro ⟨a, ha⟩
    obtain ⟨keyPair, hc⟩ := hret a
    rw [hc] at ha
    exact ha
  exact hrel.maps.shares _ _ h1 hi (hσ.ready _ hready)

variable (ser)

/-- **The key generations over the server**, in every run. A poll that succeeds returns the entry of
the chain, written; every final key that a client inserts is the complete one; no request makes the
server throw; and as long as the server is up, the clients can go on until all have ended. -/
theorem served {cc : F.CryptoContext} (L : F.Additive cc) (r : ℕ → F.Rand) (h2 : 2 ≤ N)
    (hN : N < 2 ^ 32) :
    ∃ (sk : ℕ → F.SecretKey) (key : ∀ s : Slot, s.Key F), IsChain L r N sk key ∧
      ∀ op x, ServerImpl.Runs ser (Session.next ser N) (keyGenServer cc r N op) x →
        (∀ (s : Slot) w text, s.InRange N → s.keySlot = some w →
          x.server.state.keys.toClient w = (true, text) → text = some (s.write ser N (key s))) ∧
        (∀ i p inserted, x.client i = .run p inserted → ∀ y ∈ inserted,
          y = .evalMultKey (key (.evalMixMultKey 1)) ∨ y = .evalSumKey (key (.evalSumKey N 1))) ∧
        (∀ tag ok fresh e, (tag, .done ok) ∈ x.server.ops →
          x.server.turn (ServerImpl.service ser) tag ok fresh = .error e →
          e = .notOk ∧ (x.server.down = true ∨ ∃ i, x.gone i = true)) ∧
        (x.Up → ∃ x', ServerImpl.Runs ser (Session.next ser N) x x' ∧
          ∀ i, ∃ keyPair inserted, x'.client i = .run (.ret keyPair) inserted ∧
            keyPair.secretKey = sk (i.val + 1)) := by
  refine ⟨secretKey F cc r, chainKey cc r N, chainKey_isChain r N L, fun op x hr => ?_⟩
  have hinv := ServerImpl.runs_inv hr
  obtain ⟨t, σ, hsim, hσr, hrel⟩ := runs_rel ser cc r op h2 hN hr
  have hσ := (promised_clients cc r N op).runs hσr
  refine ⟨fun s w text hs hw htext => ?_, fun i p inserted hc y hy => ?_,
    fun tag ok fresh e hop he => ?_, fun hup => ?_⟩
  · rw [← hsim.state] at htext
    unfold Rpc.Board.toClient at htext
    split at htext
    · next hready =>
      cases htext
      have hkey := hσ.ready s ((hrel.maps.ready s w hs hw).symm.trans hready)
      exact hrel.maps.keys s w _ hs hw hkey
    · cases htext
  · have hinserted : ∃ p', t.client i = .run p' inserted := by
      rcases hsim.client_or hinv i with ht | ⟨-, req, k, rep, hnext, ht⟩
      · exact ⟨p, ht.trans hc⟩
      · rw [hc] at hnext
        obtain ⟨p', hp'⟩ := inserted_of_call hnext rep
        exact ⟨p', ht.trans hp'⟩
    obtain ⟨p', hp'⟩ := hinserted
    rcases hrel.client i with hi | ⟨main, hi, -⟩
    · rw [hp'] at hi
      cases hi
      exact hσ.hist i y hy
    · rw [hp'] at hi
      cases hi
  · rcases hinv.turn_error hop he with ⟨i, req, m, hhold, hm, -⟩ | ⟨-, he, hor⟩
    · obtain ⟨-, k, hk⟩ := hinv.held tag _ hhold
      obtain ⟨y, hy⟩ := handled h2 hN _ req k hk x.server.state
      rw [hm] at hy
      cases hy
    · exact ⟨he, hor⟩
  · obtain ⟨x', hr', -, hend⟩ := completes h2 hN hr hup
    refine ⟨x', hr', fun i => ?_⟩
    obtain ⟨inserted, hc⟩ := hend i
    exact ⟨_, inserted, hc, rfl⟩

end

/-- Two clients can go on until both have ended. -/
theorem served_two : ∃ (sk : ℕ → ℤ) (x : System Method (Fin 2) (ServerImpl OpenFHE.ideal)
    (Session OpenFHE.ideal (KeyPair ℤ ℤ)) Reply),
    ServerImpl.Runs Serials.ideal (Session.next Serials.ideal 2)
      (keyGenServer (F := OpenFHE.ideal) (.ckksrns 1 50) (fun i => (i : ℤ)) 2 .multiply) x ∧
    ∀ i, ∃ keyPair inserted, x.client i = .run (.ret keyPair) inserted ∧
      keyPair.secretKey = sk (i.val + 1) := by
  let cc : CCParams := .ckksrns 1 50
  obtain ⟨sk, key, -, h⟩ := served Serials.ideal (OpenFHE.idealAdditive cc) (fun i => (i : ℤ))
    (le_refl 2) (by decide)
  obtain ⟨-, -, -, hup⟩ := h .multiply _ .refl
  obtain ⟨x, hr, hend⟩ := hup (System.init_up _ _ _)
  exact ⟨sk, x, hr, hend⟩

end ThreshNet

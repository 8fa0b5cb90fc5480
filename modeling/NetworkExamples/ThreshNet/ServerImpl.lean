import NetworkExamples.Rpc.AsyncProgress
import NetworkExamples.Rpc.Board
import NetworkExamples.ThreshNet.SecretShares
import Mathlib.Logic.Encodable.Pi
import Mathlib.Tactic.DeriveEncodable

/-!
# The threshold server

The class `ServerImpl` of `thresh_server.h`: its maps, the servicers of its methods, and its loop. The
keys and ciphertexts come serialized; the server keeps the keys as they come, and reads the rest.

* `Request.Rejected`: the requests whose servicer throws.
* `Sound`: what holds of the maps, whatever the clients send.
* `serves`: what holds of the server in every run, with any clients.
-/

namespace ThreshNet

open Async SecretShares

/-- `Serial::Serialize` and `Serial::Deserialize` for the objects of type `α`. -/
structure Serial (α : Type) where
  serialize : α → String
  /-- It throws on what it cannot read. -/
  deserialize : String → Except String α
  deserialize_serialize : ∀ x, deserialize (serialize x) = .ok x
  serialize_ne : ∀ x, serialize x ≠ ""

/-- The text is read, if it is not empty. -/
def Serial.read {α : Type} (S : Serial α) (empty text : String) : Except String α :=
  if text.length = 0 then .error empty else S.deserialize text

structure Serials (F : OpenFHE) where
  cryptoContext : Serial F.CryptoContext
  publicKey : Serial F.PublicKey
  evalKey : Serial F.EvalKey
  evalSumKeys : Serial F.EvalSumKeys
  secretShares : Serial (Map F.DCRTPoly)
  /-- A pointer; `none` is null. -/
  ciphertext : Serial (Option F.Ciphertext)
  ciphertexts : Serial (List F.Ciphertext)

/-- The entries of the maps of the keys. -/
inductive KeySlot where
  | PublicKeys (client_id : UInt32)
  | EvalKeyMults (client_id : UInt32)
  | EvalKeyMixMults (client_id : UInt32)
  | EvalKeySums (client_id index_num : UInt32)
  deriving DecidableEq

/-- The maps of the server. -/
structure ServerImpl (F : OpenFHE) where
  cc : F.CryptoContext
  /-- The serialized keys, and whether they are ready. -/
  keys : Rpc.Board KeySlot fun _ => String
  secretShares : Store F.DCRTPoly
  ciphertexts : UInt32 → Option F.Ciphertext
  partialCiphertexts : UInt32 → List F.Ciphertext
  ctRecdFlag : UInt32 → Bool
  abortsPartialCiphertexts : UInt32 × UInt32 → List F.Ciphertext

/-! ## The requests and the replies -/

inductive Request where
  | CryptoContextFromServer
  | SecretSharesFromClient (secretshares : String) (client_id : UInt32)
  | SecretSharesToClient (request : SecretKeySharesRequest)
  | PublicKeyFromClient (pkey : String) (client_id : UInt32)
  | PublicKeyToClient (client_id : UInt32)
  | evalMultKeyFromClient (ekey : String) (client_id : UInt32)
  | evalMixMultKeyFromClient (ekey : String) (client_id : UInt32)
  | evalSumKeyFromClient (ekey : String) (client_id index : UInt32)
  | evalMultKeyToClient (client_id : UInt32)
  | evalMixMultKeyToClient (client_id : UInt32)
  | evalSumKeyToClient (client_id index : UInt32)
  | CipherTextFromClient (ctext : String) (client_id : UInt32)
  | PartialCipherTextFromClient (ctext : String) (client_id : UInt32)
  | AbortsPartialCipherTextFromClient (ctext : String)
      (received_client_id recovered_client_id : UInt32)
  | CipherTextToClient (client_id : UInt32)
  | PartialCipherTextToClient (client_id : UInt32)
  | PartialCipherTextsReceivedWait (client_id : UInt32)
  | AbortsPartialCipherTextToClients (received_client_id recovered_client_id : UInt32)

structure Ack where
  acknowledgement : String

/-- The reply to a poll for a key. -/
structure KeyReturn where
  keyAvailable : Bool
  key : String

/-- The reply to a poll for a ciphertext. -/
structure TextReturn where
  textAvailable : Bool
  cipherText : String

/-- The reply to a poll for shares. -/
structure SharesReturn where
  sharesAvailable : Bool
  secretshares : String

structure CryptoContextReturn where
  cryptocontext : String

structure PartialCTFlagReturn where
  textAvailable : Bool

def Reply : Request → Type
  | .CryptoContextFromServer => CryptoContextReturn
  | .SecretSharesToClient _ => SharesReturn
  | .PublicKeyToClient _ | .evalMultKeyToClient _ | .evalMixMultKeyToClient _
  | .evalSumKeyToClient .. => KeyReturn
  | .CipherTextToClient _ | .PartialCipherTextToClient _
  | .AbortsPartialCipherTextToClients .. => TextReturn
  | .PartialCipherTextsReceivedWait _ => PartialCTFlagReturn
  | .SecretSharesFromClient .. | .PublicKeyFromClient .. | .evalMultKeyFromClient ..
  | .evalMixMultKeyFromClient .. | .evalSumKeyFromClient .. | .CipherTextFromClient ..
  | .PartialCipherTextFromClient .. | .AbortsPartialCipherTextFromClient .. => Ack

/-- The methods of the service. -/
inductive Method where
  | CryptoContextFromServer
  | SecretSharesFromClient
  | SecretSharesToClient
  | PublicKeyFromClient
  | PublicKeyToClient
  | evalMultKeyFromClient
  | evalMixMultKeyFromClient
  | evalSumKeyFromClient
  | evalMultKeyToClient
  | evalMixMultKeyToClient
  | evalSumKeyToClient
  | CipherTextFromClient
  | PartialCipherTextFromClient
  | AbortsPartialCipherTextFromClient
  | CipherTextToClient
  | PartialCipherTextToClient
  | PartialCipherTextsReceivedWait
  | AbortsPartialCipherTextToClients
  deriving DecidableEq

def Request.method : Request → Method
  | .CryptoContextFromServer => .CryptoContextFromServer
  | .SecretSharesFromClient .. => .SecretSharesFromClient
  | .SecretSharesToClient _ => .SecretSharesToClient
  | .PublicKeyFromClient .. => .PublicKeyFromClient
  | .PublicKeyToClient _ => .PublicKeyToClient
  | .evalMultKeyFromClient .. => .evalMultKeyFromClient
  | .evalMixMultKeyFromClient .. => .evalMixMultKeyFromClient
  | .evalSumKeyFromClient .. => .evalSumKeyFromClient
  | .evalMultKeyToClient _ => .evalMultKeyToClient
  | .evalMixMultKeyToClient _ => .evalMixMultKeyToClient
  | .evalSumKeyToClient .. => .evalSumKeyToClient
  | .CipherTextFromClient .. => .CipherTextFromClient
  | .PartialCipherTextFromClient .. => .PartialCipherTextFromClient
  | .AbortsPartialCipherTextFromClient .. => .AbortsPartialCipherTextFromClient
  | .CipherTextToClient _ => .CipherTextToClient
  | .PartialCipherTextToClient _ => .PartialCipherTextToClient
  | .PartialCipherTextsReceivedWait _ => .PartialCipherTextsReceivedWait
  | .AbortsPartialCipherTextToClients .. => .AbortsPartialCipherTextToClients

/-- The servicers that `HandleRpcs` spawns, in its order. -/
def methods : List Method :=
  [.CryptoContextFromServer, .SecretSharesFromClient, .SecretSharesToClient, .PublicKeyFromClient,
    .PublicKeyToClient, .evalMultKeyFromClient, .evalMixMultKeyFromClient, .evalSumKeyFromClient,
    .evalMultKeyToClient, .evalMixMultKeyToClient, .evalSumKeyToClient, .CipherTextFromClient,
    .PartialCipherTextFromClient, .AbortsPartialCipherTextFromClient, .CipherTextToClient,
    .PartialCipherTextToClient, .PartialCipherTextsReceivedWait, .AbortsPartialCipherTextToClients]

namespace ServerImpl

variable {F : OpenFHE} (ser : Serials F) (sv : ServerImpl F)

def init (cc : F.CryptoContext) : ServerImpl F where
  cc := cc
  keys := .empty
  secretShares := ∅
  ciphertexts _ := none
  partialCiphertexts _ := []
  ctRecdFlag _ := false
  abortsPartialCiphertexts _ := []

/-! ## The servicers -/

/-- The servicers of the uploads of keys. -/
def keyFromClient (slot : KeySlot) (ack key : String) : Except String (Ack × ServerImpl F) :=
  if key.length = 0 then .error "Received empty public key buffer"
  else .ok (⟨ack⟩, { sv with keys := sv.keys.fromClient slot key })

/-- The servicers of the polls for keys. -/
def keyToClient (slot : KeySlot) : Except String (KeyReturn × ServerImpl F) :=
  .ok (⟨(sv.keys.toClient slot).1, ((sv.keys.toClient slot).2.getD "")⟩, sv)

/-- The servicers of the polls for vectors of ciphertexts. -/
def ciphertextsToClient (cipherText : List F.Ciphertext) :
    Except String (TextReturn × ServerImpl F) :=
  if cipherText.length = 0 then .ok (⟨false, ""⟩, sv)
  else
    let os := ser.ciphertexts.serialize cipherText
    if os.length = 0 then .error "CipherText serialization error" else .ok (⟨true, os⟩, sv)

def cryptoContextFromServer : Except String (CryptoContextReturn × ServerImpl F) :=
  let os := ser.cryptoContext.serialize sv.cc
  if os.length = 0 then .error "CryptoContext serialization error" else .ok (⟨os⟩, sv)

def secretSharesFromClient (secretshares : String) (client_id : UInt32) :
    Except String (Ack × ServerImpl F) := do
  let ss ← ser.secretShares.read "Received empty secret shares vector buffer" secretshares
  match SecretShares.secretSharesFromClient sv.secretShares client_id ss with
  | none => throw "Secret shares vector de-serialization error"
  | some ssm =>
    pure (⟨"Received SecretShares. Thank you, Your Server"⟩, { sv with secretShares := ssm })

def publicKeyFromClient (pkey : String) (client_id : UInt32) : Except String (Ack × ServerImpl F) :=
  sv.keyFromClient (.PublicKeys client_id) "Received PKEY. Thank you, Your Server" pkey

def evalMultKeyFromClient (ekey : String) (client_id : UInt32) :
    Except String (Ack × ServerImpl F) :=
  sv.keyFromClient (.EvalKeyMults client_id) "Received EKEY. Thank you, Your Server" ekey

def evalMixMultKeyFromClient (ekey : String) (client_id : UInt32) :
    Except String (Ack × ServerImpl F) :=
  sv.keyFromClient (.EvalKeyMixMults client_id) "Received mixed eval key. Thank you, Your Server"
    ekey

def evalSumKeyFromClient (ekey : String) (client_id index : UInt32) :
    Except String (Ack × ServerImpl F) :=
  sv.keyFromClient (.EvalKeySums client_id index) "Received EKEY. Thank you, Your Server" ekey

def cipherTextFromClient (ctext : String) (client_id : UInt32) :
    Except String (Ack × ServerImpl F) := do
  match ← ser.ciphertext.read "Received empty cipher text buffer" ctext with
  | none => throw "CipherText de-serialization error"
  | some ct =>
    pure (⟨"Received CTEXT. Thank you, Your Server"⟩,
      { sv with ciphertexts := Function.update sv.ciphertexts client_id (some ct) })

def partialCipherTextFromClient (ctext : String) (client_id : UInt32) :
    Except String (Ack × ServerImpl F) := do
  let ct ← ser.ciphertexts.read "Received empty cipher text buffer" ctext
  pure (⟨"Received partial CTEXT. Thank you, Your Server"⟩,
    { sv with
      partialCiphertexts := Function.update sv.partialCiphertexts client_id ct
      ctRecdFlag := Function.update sv.ctRecdFlag client_id true })

def abortsPartialCipherTextFromClient (ctext : String)
    (received_client_id recovered_client_id : UInt32) : Except String (Ack × ServerImpl F) := do
  let ct ← ser.ciphertexts.read "Received empty cipher text buffer" ctext
  pure (⟨"Received aborts partial CTEXT. Thank you, Your Server"⟩,
    { sv with abortsPartialCiphertexts :=
        Function.update sv.abortsPartialCiphertexts (received_client_id, recovered_client_id) ct })

def cipherTextToClient (client_id : UInt32) : Except String (TextReturn × ServerImpl F) :=
  let cipherText := sv.ciphertexts client_id
  if cipherText.isNone then .ok (⟨false, ""⟩, sv)
  else
    let os := ser.ciphertext.serialize cipherText
    if os.length = 0 then .error "CipherText serialization error" else .ok (⟨true, os⟩, sv)

def partialCipherTextToClient (client_id : UInt32) : Except String (TextReturn × ServerImpl F) :=
  sv.ciphertextsToClient ser (sv.partialCiphertexts client_id)

def partialCipherTextsReceivedWait (client_id : UInt32) :
    Except String (PartialCTFlagReturn × ServerImpl F) :=
  .ok (⟨sv.ctRecdFlag client_id⟩, sv)

def abortsPartialCipherTextToClients (received_client_id recovered_client_id : UInt32) :
    Except String (TextReturn × ServerImpl F) :=
  sv.ciphertextsToClient ser (sv.abortsPartialCiphertexts (received_client_id, recovered_client_id))

variable [Inhabited F.DCRTPoly]

/-- A loop that does not end keeps the server from going on, as an exception does. -/
def secretSharesToClient (request : SecretKeySharesRequest) :
    Except String (SharesReturn × ServerImpl F) :=
  match SecretShares.secretSharesToClient (request.num_of_parties.toNat + 1) sv.secretShares
      request with
  | none => .error "The loop over the parties does not end"
  | some (reply, ssm) =>
    if reply.sharesAvailable then
      let os := ser.secretShares.serialize reply.secretshares
      if os.length = 0 then .error "SecretShares serialization error"
      else .ok (⟨true, os⟩, { sv with secretShares := ssm })
    else .ok (⟨false, ""⟩, { sv with secretShares := ssm })

def handle : (request : Request) → ServerImpl F → Except String (Reply request × ServerImpl F)
  | .CryptoContextFromServer, sv => sv.cryptoContextFromServer ser
  | .SecretSharesFromClient secretshares client_id, sv =>
    sv.secretSharesFromClient ser secretshares client_id
  | .SecretSharesToClient request, sv => sv.secretSharesToClient ser request
  | .PublicKeyFromClient pkey client_id, sv => sv.publicKeyFromClient pkey client_id
  | .PublicKeyToClient client_id, sv => sv.keyToClient (.PublicKeys client_id)
  | .evalMultKeyFromClient ekey client_id, sv => sv.evalMultKeyFromClient ekey client_id
  | .evalMixMultKeyFromClient ekey client_id, sv => sv.evalMixMultKeyFromClient ekey client_id
  | .evalSumKeyFromClient ekey client_id index, sv => sv.evalSumKeyFromClient ekey client_id index
  | .evalMultKeyToClient client_id, sv => sv.keyToClient (.EvalKeyMults client_id)
  | .evalMixMultKeyToClient client_id, sv => sv.keyToClient (.EvalKeyMixMults client_id)
  | .evalSumKeyToClient client_id index, sv => sv.keyToClient (.EvalKeySums client_id index)
  | .CipherTextFromClient ctext client_id, sv => sv.cipherTextFromClient ser ctext client_id
  | .PartialCipherTextFromClient ctext client_id, sv =>
    sv.partialCipherTextFromClient ser ctext client_id
  | .AbortsPartialCipherTextFromClient ctext received_client_id recovered_client_id, sv =>
    sv.abortsPartialCipherTextFromClient ser ctext received_client_id recovered_client_id
  | .CipherTextToClient client_id, sv => sv.cipherTextToClient ser client_id
  | .PartialCipherTextToClient client_id, sv => sv.partialCipherTextToClient ser client_id
  | .PartialCipherTextsReceivedWait client_id, sv => sv.partialCipherTextsReceivedWait client_id
  | .AbortsPartialCipherTextToClients received_client_id recovered_client_id, sv =>
    sv.abortsPartialCipherTextToClients ser received_client_id recovered_client_id

def service : Service Method (ServerImpl F) Reply where
  kind := Request.method
  handle := handle ser

end ServerImpl

/-! ## What the servicers do -/

section

variable {F : OpenFHE} {α : Type}

/-- Small numbers are different as words. -/
theorem ofNat_inj {N i j : ℕ} (hN : N < 2 ^ 32) (hi : i ≤ N) (hj : j ≤ N)
    (h : UInt32.ofNat i = UInt32.ofNat j) : i = j := by
  have heq := congrArg UInt32.toNat h
  rwa [toNat_ofNat (by omega), toNat_ofNat (by omega)] at heq

theorem Serial.size_serialize (S : Serial α) (x : α) : (S.serialize x).length ≠ 0 :=
  fun h => S.serialize_ne x (String.length_eq_zero_iff.mp h)

/-- The text can be read, and is `x`. -/
def Serial.Reads (S : Serial α) (text : String) (x : α) : Prop :=
  text ≠ "" ∧ S.deserialize text = .ok x

theorem Serial.reads_serialize (S : Serial α) (x : α) : S.Reads (S.serialize x) x :=
  ⟨S.serialize_ne x, S.deserialize_serialize x⟩

theorem Serial.read_eq {S : Serial α} {text : String} {x : α} (h : S.Reads text x)
    (empty : String) : S.read empty text = .ok x := by
  unfold read
  rw [if_neg (mt String.length_eq_zero_iff.mp h.1), h.2]

theorem Serial.read_cases (S : Serial α) (empty text : String) :
    ((∀ x, ¬ S.Reads text x) ∧ ∃ e, S.read empty text = .error e) ∨
      ∃ x, S.Reads text x ∧ S.read empty text = .ok x := by
  by_cases htext : text = ""
  · subst htext
    exact .inl ⟨fun _ h => h.1 rfl, empty, rfl⟩
  · cases hread : S.deserialize text with
    | error e =>
      refine .inl ⟨fun x h => ?_, e, ?_⟩
      · have hx := h.2
        rw [hread] at hx
        cases hx
      · unfold read
        rw [if_neg (mt String.length_eq_zero_iff.mp htext), hread]
    | ok x => exact .inr ⟨x, ⟨htext, hread⟩, read_eq ⟨htext, hread⟩ empty⟩

/-- A text is read in one way. -/
theorem Serial.Reads.unique {S : Serial α} {text : String} {x y : α} (h : S.Reads text x)
    (h' : S.Reads text y) : x = y :=
  Except.ok.inj (h.2.symm.trans h'.2)

variable (ser : Serials F)

/-- The requests that are rejected: a text that is empty or cannot be read, a null ciphertext, no
shares at all, and the greatest number of parties. -/
def Request.Rejected : Request → Prop
  | .PublicKeyFromClient key _ | .evalMultKeyFromClient key _ | .evalMixMultKeyFromClient key _
  | .evalSumKeyFromClient key .. => key = ""
  | .SecretSharesFromClient secretshares _ =>
    ∀ ss, ser.secretShares.Reads secretshares ss → ss = ∅
  | .CipherTextFromClient ctext _ => ∀ ct, ¬ ser.ciphertext.Reads ctext (some ct)
  | .PartialCipherTextFromClient ctext _ | .AbortsPartialCipherTextFromClient ctext .. =>
    ∀ ct, ¬ ser.ciphertexts.Reads ctext ct
  | .SecretSharesToClient request => request.num_of_parties.toNat + 1 = 2 ^ 32
  | .CryptoContextFromServer | .PublicKeyToClient _ | .evalMultKeyToClient _
  | .evalMixMultKeyToClient _ | .evalSumKeyToClient .. | .CipherTextToClient _
  | .PartialCipherTextToClient _ | .PartialCipherTextsReceivedWait _
  | .AbortsPartialCipherTextToClients .. => False

namespace ServerImpl

variable {ser} (sv : ServerImpl F)

theorem keyFromClient_eq {key : String} (h : key ≠ "") (slot : KeySlot) (ack : String) :
    sv.keyFromClient slot ack key = .ok (⟨ack⟩, { sv with keys := sv.keys.fromClient slot key }) :=
  if_neg (mt String.length_eq_zero_iff.mp h)

theorem cryptoContextFromServer_eq :
    sv.cryptoContextFromServer ser = .ok (⟨ser.cryptoContext.serialize sv.cc⟩, sv) :=
  if_neg (ser.cryptoContext.size_serialize sv.cc)

theorem ciphertextsToClient_eq (cipherText : List F.Ciphertext) :
    sv.ciphertextsToClient ser cipherText = .ok
      (if cipherText = [] then ⟨false, ""⟩ else ⟨true, ser.ciphertexts.serialize cipherText⟩, sv) := by
  unfold ciphertextsToClient
  by_cases hct : cipherText = []
  · subst hct
    rfl
  · rw [if_neg (mt List.length_eq_zero_iff.mp hct), if_neg hct]
    exact if_neg (ser.ciphertexts.size_serialize cipherText)

theorem cipherTextToClient_eq (client_id : UInt32) :
    sv.cipherTextToClient ser client_id = .ok (if (sv.ciphertexts client_id).isNone then ⟨false, ""⟩
      else ⟨true, ser.ciphertext.serialize (sv.ciphertexts client_id)⟩, sv) := by
  unfold cipherTextToClient
  dsimp only
  split
  · rfl
  · exact if_neg (ser.ciphertext.size_serialize _)

theorem secretSharesFromClient_eq {secretshares : String} {ss : Map F.DCRTPoly}
    (h : ser.secretShares.Reads secretshares ss) (hss : ss.size ≠ 0) (client_id : UInt32) :
    sv.secretSharesFromClient ser secretshares client_id =
      .ok (⟨"Received SecretShares. Thank you, Your Server"⟩,
        { sv with secretShares := sv.secretShares.insert client_id ss }) := by
  unfold secretSharesFromClient SecretShares.secretSharesFromClient
  rw [Serial.read_eq h]
  dsimp only [bind, Except.bind]
  rw [if_neg hss]
  rfl

theorem cipherTextFromClient_eq {ctext : String} {ct : F.Ciphertext}
    (h : ser.ciphertext.Reads ctext (some ct)) (client_id : UInt32) :
    sv.cipherTextFromClient ser ctext client_id =
      .ok (⟨"Received CTEXT. Thank you, Your Server"⟩,
        { sv with ciphertexts := Function.update sv.ciphertexts client_id (some ct) }) := by
  unfold cipherTextFromClient
  rw [Serial.read_eq h]
  rfl

theorem partialCipherTextFromClient_eq {ctext : String} {ct : List F.Ciphertext}
    (h : ser.ciphertexts.Reads ctext ct) (client_id : UInt32) :
    sv.partialCipherTextFromClient ser ctext client_id =
      .ok (⟨"Received partial CTEXT. Thank you, Your Server"⟩, { sv with
        partialCiphertexts := Function.update sv.partialCiphertexts client_id ct
        ctRecdFlag := Function.update sv.ctRecdFlag client_id true }) := by
  unfold partialCipherTextFromClient
  rw [Serial.read_eq h]
  rfl

theorem abortsPartialCipherTextFromClient_eq {ctext : String} {ct : List F.Ciphertext}
    (h : ser.ciphertexts.Reads ctext ct) (received_client_id recovered_client_id : UInt32) :
    sv.abortsPartialCipherTextFromClient ser ctext received_client_id recovered_client_id =
      .ok (⟨"Received aborts partial CTEXT. Thank you, Your Server"⟩,
        { sv with
          abortsPartialCiphertexts := Function.update sv.abortsPartialCiphertexts
            (received_client_id, recovered_client_id) ct }) := by
  unfold abortsPartialCipherTextFromClient
  rw [Serial.read_eq h]
  rfl

theorem secretSharesToClient_eq [Inhabited F.DCRTPoly] {request : SecretKeySharesRequest}
    (hN : request.num_of_parties.toNat + 1 < 2 ^ 32) :
    sv.secretSharesToClient ser request = .ok
      (if given request = [] then ⟨false, ""⟩
        else ⟨true, ser.secretShares.serialize (handedOut sv.secretShares request)⟩,
        { sv with secretShares :=
            (subscript sv.secretShares request.recover_client_id).2 }) := by
  unfold secretSharesToClient
  rw [SecretShares.secretSharesToClient_eq hN]
  by_cases hgiven : given request = []
  · simp [hgiven]
  · simp [hgiven, ser.secretShares.size_serialize]

/-! ### The requests that throw -/

/-- A servicer throws exactly if `rejected` holds. -/
theorem throws_iff_of {β : Type} {rejected : Prop} {result : Except String β}
    (herror : rejected → ∃ e, result = .error e) (hok : ¬ rejected → ∃ y, result = .ok y) :
    (∃ e, result = .error e) ↔ rejected := by
  refine ⟨fun ⟨e, he⟩ => ?_, herror⟩
  by_contra hno
  obtain ⟨y, hy⟩ := hok hno
  rw [hy] at he
  cases he

theorem not_throws {β : Type} {result : Except String β} {y : β} (h : result = .ok y) :
    (∃ e, result = .error e) ↔ False :=
  throws_iff_of False.elim fun _ => ⟨y, h⟩

theorem keyFromClient_throws (slot : KeySlot) (ack key : String) :
    (∃ e, sv.keyFromClient slot ack key = .error e) ↔ key = "" := by
  refine throws_iff_of ?_ fun h => ⟨_, sv.keyFromClient_eq h slot ack⟩
  rintro rfl
  exact ⟨_, rfl⟩

/-- A servicer that reads a text throws if it cannot, or does not accept what it has read. -/
theorem bind_throws {β γ : Type} {S : Serial β} {empty text : String} {f : β → Except String γ}
    (accepted : β → Prop) (hok : ∀ x, accepted x → ∃ y, f x = .ok y)
    (herror : ∀ x, ¬ accepted x → ∃ e, f x = .error e) :
    (∃ e, S.read empty text >>= f = .error e) ↔ ∀ x, S.Reads text x → ¬ accepted x := by
  obtain ⟨hno, e, he⟩ | ⟨x, hx, hread⟩ := S.read_cases empty text
  · rw [he]
    exact ⟨fun _ x hx => absurd hx (hno x), fun _ => ⟨e, rfl⟩⟩
  · rw [hread]
    refine throws_iff_of (fun h => herror x (h x hx)) fun h => hok x ?_
    by_contra hx'
    refine h fun y hy => ?_
    rwa [hy.unique hx]

/-- **Which requests throw**: it does not depend on the maps. -/
theorem handle_throws [Inhabited F.DCRTPoly] (request : Request) :
    (∃ e, handle ser request sv = .error e) ↔ request.Rejected ser := by
  cases request with
  | CryptoContextFromServer => exact not_throws sv.cryptoContextFromServer_eq
  | SecretSharesFromClient secretshares client_id =>
    refine (bind_throws (fun ss => ss.size ≠ 0) (fun ss hss => ?_) fun ss hss => ?_).trans
      (forall₂_congr fun _ _ => not_not.trans Std.ExtHashMap.eq_empty_iff_size_eq_zero.symm)
    · unfold SecretShares.secretSharesFromClient
      rw [if_neg hss]
      exact ⟨_, rfl⟩
    · unfold SecretShares.secretSharesFromClient
      rw [if_pos (not_not.mp hss)]
      exact ⟨_, rfl⟩
  | SecretSharesToClient request =>
    have hlt := request.num_of_parties.toNat_lt
    refine throws_iff_of (fun h => ?_) fun h => ?_
    · refine ⟨"The loop over the parties does not end", ?_⟩
      have hnone : SecretShares.secretSharesToClient (request.num_of_parties.toNat + 1)
          sv.secretShares request = none := by
        unfold SecretShares.secretSharesToClient
        dsimp only
        rw [handOut_none h]
        rfl
      show sv.secretSharesToClient ser request = _
      unfold secretSharesToClient
      rw [hnone]
      rfl
    · have hN : request.num_of_parties.toNat + 1 ≠ 2 ^ 32 := h
      exact ⟨_, sv.secretSharesToClient_eq (by omega)⟩
  | PublicKeyFromClient pkey client_id => exact sv.keyFromClient_throws _ _ _
  | evalMultKeyFromClient ekey client_id => exact sv.keyFromClient_throws _ _ _
  | evalMixMultKeyFromClient ekey client_id => exact sv.keyFromClient_throws _ _ _
  | evalSumKeyFromClient ekey client_id index => exact sv.keyFromClient_throws _ _ _
  | PublicKeyToClient client_id => exact not_throws rfl
  | evalMultKeyToClient client_id => exact not_throws rfl
  | evalMixMultKeyToClient client_id => exact not_throws rfl
  | evalSumKeyToClient client_id index => exact not_throws rfl
  | CipherTextFromClient ctext client_id =>
    refine (bind_throws (fun ct => ct ≠ none) (fun ct hct => ?_) fun ct hct => ?_).trans ?_
    · cases ct with
      | none => exact absurd rfl hct
      | some ct => exact ⟨_, rfl⟩
    · cases ct with
      | none => exact ⟨_, rfl⟩
      | some ct => exact absurd (Option.some_ne_none ct) hct
    · refine ⟨fun h ct hct => h _ hct (Option.some_ne_none ct), fun h ct hct => ?_⟩
      rintro hne
      obtain ⟨ct, rfl⟩ := Option.ne_none_iff_exists'.mp hne
      exact h ct hct
  | PartialCipherTextFromClient ctext client_id =>
    exact (bind_throws (fun _ => True) (fun _ _ => ⟨_, rfl⟩) fun _ h =>
      absurd trivial h).trans (forall₂_congr fun _ _ => not_true)
  | AbortsPartialCipherTextFromClient ctext received_client_id recovered_client_id =>
    exact (bind_throws (fun _ => True) (fun _ _ => ⟨_, rfl⟩) fun _ h =>
      absurd trivial h).trans (forall₂_congr fun _ _ => not_true)
  | CipherTextToClient client_id => exact not_throws (sv.cipherTextToClient_eq client_id)
  | PartialCipherTextToClient client_id => exact not_throws (sv.ciphertextsToClient_eq _)
  | PartialCipherTextsReceivedWait client_id => exact not_throws rfl
  | AbortsPartialCipherTextToClients received_client_id recovered_client_id =>
    exact not_throws (sv.ciphertextsToClient_eq _)

/-! ## The maps -/

/-- **What holds of the maps, whatever the clients send.** -/
structure Sound (sv : ServerImpl F) : Prop where
  /-- A key that is available is not empty. -/
  ready : ∀ slot, sv.keys.ready slot = true → ∃ key, sv.keys.keys slot = some key ∧ key ≠ ""
  /-- A key is there only if it is available. -/
  keys : ∀ slot, sv.keys.keys slot ≠ none → sv.keys.ready slot = true
  recd : ∀ client_id, sv.partialCiphertexts client_id ≠ [] → sv.ctRecdFlag client_id = true

variable {sv}

theorem Sound.keyFromClient (h : sv.Sound) {slot : KeySlot} {ack key : String}
    {y : Ack × ServerImpl F} (hy : sv.keyFromClient slot ack key = .ok y) : y.2.Sound := by
  have hkey : key ≠ "" := by
    intro hkey
    obtain ⟨e, he⟩ := (sv.keyFromClient_throws slot ack key).mpr hkey
    rw [he] at hy
    cases hy
  rw [sv.keyFromClient_eq hkey] at hy
  cases hy
  refine ⟨fun s hs => ?_, fun s hs => ?_, h.recd⟩
  · by_cases hslot : s = slot
    · subst hslot
      exact ⟨key, Function.update_self .., hkey⟩
    · have hr := ((sv.keys.ready_fromClient slot s key).mp hs).resolve_left hslot
      simpa [Rpc.Board.fromClient, hslot] using h.ready s hr
  · refine (sv.keys.ready_fromClient slot s key).mpr ?_
    by_cases hslot : s = slot
    · exact .inl hslot
    · exact .inr (h.keys s (by simpa [Rpc.Board.fromClient, hslot] using hs))

/-- The maps after a request that does not touch them. -/
theorem Sound.same {β : Type} (h : sv.Sound) {result : Except String (β × ServerImpl F)} {rep : β}
    {y : β × ServerImpl F} (heq : result = .ok (rep, sv)) (hy : result = .ok y) : y.2.Sound := by
  rw [heq] at hy
  cases hy
  exact h

theorem bind_ok {β γ : Type} {S : Serial β} {empty text : String} {f : β → Except String γ} {y : γ}
    (h : S.read empty text >>= f = .ok y) : ∃ x, f x = .ok y := by
  obtain ⟨-, e, he⟩ | ⟨x, -, hread⟩ := S.read_cases empty text
  · rw [he] at h
    cases h
  · rw [hread] at h
    exact ⟨x, h⟩

/-- **The servicers keep the maps sound.** -/
theorem Sound.handle [Inhabited F.DCRTPoly] (h : sv.Sound) (request : Request)
    {y : Reply request × ServerImpl F} (hy : handle ser request sv = .ok y) : y.2.Sound := by
  cases request with
  | CryptoContextFromServer => exact h.same sv.cryptoContextFromServer_eq hy
  | SecretSharesFromClient secretshares client_id =>
    obtain ⟨ss, hss⟩ := bind_ok hy
    cases hstore : SecretShares.secretSharesFromClient sv.secretShares client_id ss with
    | none =>
      rw [hstore] at hss
      cases hss
    | some ssm =>
      rw [hstore] at hss
      cases hss
      exact ⟨h.ready, h.keys, h.recd⟩
  | SecretSharesToClient request =>
    have hlt := request.num_of_parties.toNat_lt
    by_cases hN : request.num_of_parties.toNat + 1 = 2 ^ 32
    · obtain ⟨e, he⟩ : ∃ e, ServerImpl.handle ser (.SecretSharesToClient request) sv = .error e :=
        (sv.handle_throws _).mpr hN
      rw [he] at hy
      cases hy
    · have heq : sv.secretSharesToClient ser request = _ := sv.secretSharesToClient_eq (by omega)
      rw [show sv.secretSharesToClient ser request = .ok y from hy] at heq
      cases heq
      exact ⟨h.ready, h.keys, h.recd⟩
  | PublicKeyFromClient pkey client_id => exact h.keyFromClient hy
  | evalMultKeyFromClient ekey client_id => exact h.keyFromClient hy
  | evalMixMultKeyFromClient ekey client_id => exact h.keyFromClient hy
  | evalSumKeyFromClient ekey client_id index => exact h.keyFromClient hy
  | PublicKeyToClient client_id => exact h.same rfl hy
  | evalMultKeyToClient client_id => exact h.same rfl hy
  | evalMixMultKeyToClient client_id => exact h.same rfl hy
  | evalSumKeyToClient client_id index => exact h.same rfl hy
  | CipherTextFromClient ctext client_id =>
    obtain ⟨ct, hct⟩ := bind_ok hy
    cases ct with
    | none => cases hct
    | some ct =>
      cases hct
      exact ⟨h.ready, h.keys, h.recd⟩
  | PartialCipherTextFromClient ctext client_id =>
    obtain ⟨ct, hct⟩ := bind_ok hy
    cases hct
    refine ⟨h.ready, h.keys, fun id hid => ?_⟩
    by_cases heq : id = client_id
    · subst heq
      exact Function.update_self ..
    · simpa [heq] using h.recd id (by simpa [heq] using hid)
  | AbortsPartialCipherTextFromClient ctext received_client_id recovered_client_id =>
    obtain ⟨ct, hct⟩ := bind_ok hy
    cases hct
    exact ⟨h.ready, h.keys, h.recd⟩
  | CipherTextToClient client_id => exact h.same (sv.cipherTextToClient_eq client_id) hy
  | PartialCipherTextToClient client_id => exact h.same (sv.ciphertextsToClient_eq _) hy
  | PartialCipherTextsReceivedWait client_id => exact h.same rfl hy
  | AbortsPartialCipherTextToClients received_client_id recovered_client_id =>
    exact h.same (sv.ciphertextsToClient_eq _) hy

theorem sound_init (cc : F.CryptoContext) : (init cc).Sound :=
  ⟨nofun, fun _ h => absurd rfl h, fun _ h => absurd rfl h⟩

end ServerImpl

/-! ## The loop -/

namespace ServerImpl

variable {ser} [Inhabited F.DCRTPoly] {ι C : Type} [DecidableEq ι] {next : C → Next C Reply}

/-- The server and its clients. -/
def HandleRpcs (cc : F.CryptoContext) (client : ι → C) : System Method ι (ServerImpl F) C Reply :=
  .init methods (init cc) client

variable (ser next) in
abbrev Runs : System Method ι (ServerImpl F) C Reply → System Method ι (ServerImpl F) C Reply →
    Prop := System.Runs (service ser) next fun _ _ => False

variable {cc : F.CryptoContext} {client : ι → C} {x : System Method ι (ServerImpl F) C Reply}

theorem mem_methods (k : Method) : k ∈ methods := by
  cases k <;> decide

omit [Inhabited F.DCRTPoly] [DecidableEq ι] in
variable (ser next) in
theorem handleRpcs_inv (cc : F.CryptoContext) (client : ι → C) [Inhabited F.DCRTPoly] :
    (HandleRpcs cc client).Inv (service ser) next Set.univ :=
  .init_univ (by decide) mem_methods (init cc) client

theorem runs_inv (hr : Runs ser next (HandleRpcs cc client) x) :
    x.Inv (service ser) next Set.univ :=
  (handleRpcs_inv ser next cc client).runs hr

theorem runs_sound (hr : Runs ser next (HandleRpcs cc client) x) : x.server.state.Sound :=
  (handleRpcs_inv ser next cc client).runs_state (P := Sound)
    ((Server.handleRpcs_init methods (init cc)).1.symm ▸ sound_init cc)
    (fun r _ _ h hy => h.handle r hy) (fun _ _ _ he => he.elim) hr

/-- **What holds of the server in every run, with any clients**: each of its methods has exactly one
servicer that listens, and its maps are sound. A turn of its loop never uses a servicer that was
deleted; it ends the loop exactly if the event is not ok, which takes a client that has gone, or if
the event is a request that is rejected. -/
theorem serves (hr : Runs ser next (HandleRpcs cc client) x) :
    x.server.state.Sound ∧
    (∃ listener : Method → ℕ, ∀ k a, x.server.Listens k a ↔ a = listener k) ∧
    ∀ tag ok fresh, (tag, .done ok) ∈ x.server.ops →
      x.server.turn (service ser) tag ok fresh ≠ .error .fault ∧
      (ok = false → x.server.down = true ∨ ∃ i, x.gone i = true) ∧
      ((∃ e, x.server.turn (service ser) tag ok fresh = .error e) ↔ ok = false ∨
        ∃ i request, x.server.Holds tag ⟨i, request, none⟩ ∧ request.Rejected ser) := by
  have hinv := runs_inv hr
  obtain ⟨listener, hlistener⟩ := hinv.listening
  refine ⟨runs_sound hr, ⟨listener, fun k a => (hlistener k a).trans (by simp)⟩,
    fun tag ok fresh hop => ⟨fun hfault => ?_, ?_, fun ⟨e, he⟩ => ?_, ?_⟩⟩
  · rcases hinv.turn_error hop hfault with ⟨i, r, m, -, -, he⟩ | ⟨-, he, -⟩
    · cases he
    · cases he
  · rintro rfl
    exact (hinv.notOk tag hop).imp_left fun ⟨k, hk⟩ => hinv.tidy.down_of_listens hop hk
  · rcases hinv.turn_error hop he with ⟨i, r, m, hhold, hm, -⟩ | ⟨hok, -, -⟩
    · exact .inr ⟨i, r, hhold, (handle_throws _ r).mp ⟨m, hm⟩⟩
    · exact .inl hok
  · rintro (rfl | ⟨i, r, hhold, hrejected⟩)
    · exact ⟨_, rfl⟩
    · obtain ⟨m, hm⟩ := (handle_throws x.server.state r).mpr hrejected
      obtain rfl : ok = true :=
        Op.done.inj (hinv.tidy.op_unique hop (hinv.tidy.heap_of_holds hhold).1)
      exact ⟨_, hinv.tidy.turn_throws hhold hm fresh⟩

end ServerImpl

end

/-! ## A way to write the objects of the ideal instance -/

/-- Objects that can be counted, in unary. -/
def Serial.unary (α : Type) [Encodable α] : Serial α where
  serialize x := String.ofList (List.replicate (Encodable.encode x + 1) '1')
  deserialize text :=
    match Encodable.decode (text.length - 1) with
    | some x => .ok x
    | none => .error "unreadable"
  deserialize_serialize x := by simp
  serialize_ne x := by simp [← String.length_eq_zero_iff]

instance : Inhabited OpenFHE.ideal.DCRTPoly := inferInstanceAs (Inhabited ℤ)

noncomputable instance : Encodable (Map ℤ) :=
  .ofInj (fun m (i : Fin UInt32.size) => shareOf m i.val) fun _ _ h =>
    Std.ExtHashMap.ext_getElem? fun k => by simpa [shareOf, k.toNat_lt] using congrFun h k.toFin

deriving instance Encodable for CCParams

noncomputable def Serials.ideal : Serials OpenFHE.ideal where
  cryptoContext := .unary CCParams
  publicKey := .unary ℤ
  evalKey := .unary ℤ
  evalSumKeys := .unary ℤ
  secretShares := .unary (Map ℤ)
  ciphertext := .unary (Option (List ℤ))
  ciphertexts := .unary (List (List ℤ))

namespace ServerImpl

/-- A client sends an empty key. -/
theorem serves_empty_key :
    let next : Unit → Next Unit Reply := fun _ => .call (.PublicKeyFromClient "" 1) fun _ => ()
    ∃ x : System Method Unit (ServerImpl OpenFHE.ideal) Unit Reply,
      Runs Serials.ideal next (HandleRpcs (.ckksrns 1 50) fun _ => ()) x ∧ ∃ tag,
        (tag, .done true) ∈ x.server.ops ∧
        ∀ fresh, ∃ e, x.server.turn (service Serials.ideal) tag true fresh = .error e := by
  intro next
  let x₀ : System Method Unit (ServerImpl OpenFHE.ideal) Unit Reply :=
    HandleRpcs (.ckksrns 1 50) fun _ => ()
  have hsend : System.Step (service Serials.ideal) next (fun _ _ => False) x₀ _ :=
    .send (i := ()) rfl rfl rfl
  obtain ⟨a, hop, ho⟩ := (handleRpcs_inv Serials.ideal next (.ckksrns 1 50) fun _ => ()).exists_request
    (Server.handleRpcs_init _ _).2.2 Method.PublicKeyFromClient
  have htake : System.Step (service Serials.ideal) next (fun _ _ => False) _ _ :=
    .take (i := ()) (x := { x₀ with phase := Function.update x₀.phase () .sent }) rfl (by simp) rfl
      hop ho rfl
  have hr : Runs Serials.ideal next x₀ _ := .tail (.single hsend) htake
  have hmem := List.mem_cons_self (a := (a, Op.done true)) (l := x₀.server.ops.erase (a, .request))
  refine ⟨_, hr, a, hmem, fun fresh => ((serves hr).2.2 a true fresh hmem).2.2.mpr (.inr ?_)⟩
  refine ⟨(), .PublicKeyFromClient "" 1, ⟨⟨.PublicKeyFromClient, .PROCESS, _⟩, .done true, hmem, ?_,
    rfl, .inl rfl⟩, rfl⟩
  exact Function.update_self ..

end ServerImpl

end ThreshNet

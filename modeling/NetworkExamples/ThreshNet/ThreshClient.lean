import NetworkExamples.P2P.OpenFHE
import NetworkExamples.Fifo.Patterns
import NetworkExamples.Rpc.Schedule

/-!
# The client-server threshold network with aborts

The code of `thresh_client.cpp` after the abort point, and the handlers of the server that it
calls. The clients talk to the server only. A call and its handler are one step; between the steps
of a client the others go on in any order. A client counts its own polls: `step` makes one turn of
a polling loop at a time.

* `Server`: the maps of the server, with one function for each handler.
* `Pc`: where a client is in its code.
* `step`: what a client does next.
-/

namespace ThreshNet

variable {F : OpenFHE}

/-! ## The server -/

/-- The maps of the server. `none` in the map of the ciphertexts is an empty vector. -/
structure Server (F : OpenFHE) where
  partialCipherTexts : ℕ → Option F.Ciphertext
  ctRecd : ℕ → Bool
  abortsCipherTexts : ℕ × ℕ → Option F.Ciphertext
  /-- The shares of the dealers' secret keys, by their holders. -/
  secretShares : ℕ → ℕ → F.DCRTPoly

namespace Server

variable (sv : Server F)

def partialCipherTextFromClient (ct : F.Ciphertext) (client_id : ℕ) : Server F :=
  { sv with
    partialCipherTexts := Function.update sv.partialCipherTexts client_id (some ct)
    ctRecd := Function.update sv.ctRecd client_id true }

def partialCipherTextsReceivedWait (client_id : ℕ) : Bool := sv.ctRecd client_id

def partialCipherTextToClient (client_id : ℕ) : Option F.Ciphertext :=
  sv.partialCipherTexts client_id

def abortsPartialCipherTextFromClient (ct : F.Ciphertext)
    (received_client_id recovered_client_id : ℕ) : Server F :=
  { sv with abortsCipherTexts :=
      Function.update sv.abortsCipherTexts (received_client_id, recovered_client_id) (some ct) }

def abortsPartialCipherTextToClients (received_client_id recovered_client_id : ℕ) :
    Option F.Ciphertext :=
  sv.abortsCipherTexts (received_client_id, recovered_client_id)

/-- The shares of the first `threshold` clients other than the recovered one; `none`: there is no
such client. -/
def secretSharesToClient (recover_client_id threshold num_of_parties : ℕ) :
    Option (ℕ → Option F.DCRTPoly) :=
  let holders := (Fifo.others num_of_parties recover_client_id).take threshold
  if holders.length = 0 then none
  else some fun j => if j ∈ holders then some (sv.secretShares recover_client_id j) else none

end Server

/-! ## The clients -/

/-- The pause between two polls, in ms. -/
def ABORTS_SLEEP_TIME_MSECS : ℕ := 10

/-- In ms. -/
def TIME_OUT : ℕ := 1000

abbrev recovering_client_id : ℕ := 1

/-- Where a partial decryption comes from: its own client, or the recovering client. -/
inductive Source where
  | own
  | aborts
  deriving DecidableEq

/-- Where a client is in its code. -/
inductive Pc (F : OpenFHE) where
  /-- At the abort point. -/
  | start
  | exited
  /-- It has sent its partial decryption. -/
  | sent
  /-- At the head of the loop over the parties. -/
  | loop (i : ℕ)
  /-- At the head of the polling loop for party `i`, after `ctr` turns. -/
  | poll (i ctr : ℕ)
  /-- It has polled, and asks whether the server has got the partial decryption. -/
  | check (i ctr : ℕ) (recd : Option F.Ciphertext)
  /-- The recovering client asks for the shares of party `i`. -/
  | recover (i : ℕ)
  /-- The recovering client sends the partial decryption of party `i`. -/
  | publish (i : ℕ) (ct : F.Ciphertext)
  /-- It waits in `AbortsPartialCipherTextToClients` for the one of party `i`. -/
  | waitAborts (i : ℕ)
  /-- It has left the loop over the parties. -/
  | fuse
  | done (pt : F.Plaintext)
  | failed

/-- The parameters of a run after the abort point: the parties `1, …, Num_of_parties`, of which
`D` exit. -/
structure Setting (F : OpenFHE) where
  Num_of_parties : ℕ
  D : Finset ℕ
  cc : F.CryptoContext
  resultCT : F.Ciphertext
  rand : ℕ → F.Rand
  secretKey : ℕ → F.SecretKey

/-- A state: the server, and each client's place and vector of partial decryptions. -/
structure State (F : OpenFHE) where
  server : Server F
  pc : ℕ → Pc F
  partialCiphertextVec : ℕ → ℕ → Option (Source × F.Ciphertext)

namespace State

variable (s : State F)

/-- Client `c` goes to `p`. -/
def goto (c : ℕ) (p : Pc F) : State F := { s with pc := Function.update s.pc c p }

/-- Client `c` stores the partial decryption of party `i`, and goes on with the next party. -/
def store (c i : ℕ) (src : Source) (ct : F.Ciphertext) : State F :=
  { s with
    pc := Function.update s.pc c (.loop (i + 1))
    partialCiphertextVec := Function.update s.partialCiphertextVec c
      (Function.update (s.partialCiphertextVec c) i (some (src, ct))) }

/-- In its next step client `c` gives up waiting for the partial decryption of party `i`. -/
def GivesUp (c i : ℕ) : Prop :=
  ∃ ctr recd, s.pc c = .check i ctr recd ∧ (ctr + 1) * ABORTS_SLEEP_TIME_MSECS > TIME_OUT ∧
    s.server.partialCipherTextsReceivedWait i = false

end State

namespace Setting

variable (S : Setting F)

/-- `i` is a party. -/
abbrev IsParty (i : ℕ) : Prop := 1 ≤ i ∧ i ≤ S.Num_of_parties

def thresh : ℕ := S.Num_of_parties / 2 + 1

/-- The partial decryption of client `c`. -/
def ciphertextPartial (c : ℕ) : F.Ciphertext :=
  if c = 1 then F.multipartyDecryptLead S.cc (S.rand c) S.resultCT (S.secretKey c)
  else F.multipartyDecryptMain S.cc (S.rand c) S.resultCT (S.secretKey c)

/-- All clients are at the abort point, with the shares of all secret keys on the server. -/
def init : State F where
  server :=
    { partialCipherTexts _ := none
      ctRecd _ := false
      abortsCipherTexts _ := none
      secretShares i j := F.shareKeys S.cc (S.rand i) (S.secretKey i) S.Num_of_parties S.thresh i j }
  pc _ := .start
  partialCiphertextVec _ _ := none

/-- The next step of client `c`. -/
def step (s : State F) (c : ℕ) : State F :=
  if ¬ S.IsParty c then s
  else
    match s.pc c with
    | .exited | .done _ | .failed => s
    | .start =>
      if c ∈ S.D then s.goto c .exited
      else
        { s.goto c .sent with
          server := s.server.partialCipherTextFromClient (S.ciphertextPartial c) c }
    | .sent =>
      if s.server.partialCipherTextsReceivedWait c then s.goto c (.loop 1) else s.goto c .fuse
    | .loop i =>
      if S.Num_of_parties < i then s.goto c .fuse
      else if c ≠ i then
        match s.server.partialCipherTextToClient i with
        | some ct => s.store c i .own ct
        | none => s.goto c (.poll i 0)
      else s.store c i .own (S.ciphertextPartial c)
    | .poll i ctr => s.goto c (.check i ctr (s.server.partialCipherTextToClient i))
    | .check i ctr recd =>
      if (ctr + 1) * ABORTS_SLEEP_TIME_MSECS > TIME_OUT ∧
          s.server.partialCipherTextsReceivedWait i = false then
        if c = recovering_client_id then s.goto c (.recover i) else s.goto c (.waitAborts i)
      else
        match recd with
        | some ct => s.store c i .own ct
        | none => s.goto c (.poll i (ctr + 1))
    | .recover i =>
      match s.server.secretSharesToClient i S.thresh S.Num_of_parties with
      | none => s.goto c .failed
      | some secretSharesRecd =>
        match F.recoverSharedKey S.cc secretSharesRecd S.Num_of_parties S.thresh with
        | none => s.goto c .failed
        | some recovered_sk =>
          s.goto c (.publish i (F.multipartyDecryptMain S.cc (S.rand c) S.resultCT recovered_sk))
    | .publish i ct =>
      { s.store c i .aborts ct with
        server := s.server.abortsPartialCipherTextFromClient ct recovering_client_id i }
    | .waitAborts i =>
      match s.server.abortsPartialCipherTextToClients recovering_client_id i with
      | some ct => s.store c i .aborts ct
      | none => s
    | .fuse =>
      match (List.range' 1 S.Num_of_parties).mapM (s.partialCiphertextVec c) with
      | some vec => s.goto c (.done (F.multipartyDecryptFusion S.cc (vec.map (·.2))))
      | none => s.goto c .failed

end Setting

end ThreshNet

import NetworkExamples.Pre.Policy

/-!
# Conditions that all calls keep

A condition that the key servers keep whatever they are asked (`Closed`), and the brokers by a
`Policy`, holds along all runs whose calls the policy allows, in any interleaving.

* `Policy.safe_handler`: every call keeps the condition.
* `Policy.good_reach`: so it holds in all states of the runs.
-/

namespace Pre

open Rpc BrokerServer

/-- **A condition that the key servers keep**: it is about none of their keys, or about keys that
are added. -/
structure Closed (G : Rely World) : Prop where
  ksDown : ∀ t k, G.inv t → G.inv (t.ksDown k) ∧ G.rel t (t.ksDown k)
  setPublicKey : ∀ t k owner key, G.inv t →
    G.inv (t.setPublicKey k owner key) ∧ G.rel t (t.setPublicKey k owner key)
  setPrivateKey : ∀ t k owner key, G.inv t →
    G.inv (t.setPrivateKey k owner key) ∧ G.rel t (t.setPrivateKey k owner key)
  setRecdPublicKey : ∀ t k owner key, G.inv t →
    G.inv (t.setRecdPublicKey k owner key) ∧ G.rel t (t.setRecdPublicKey k owner key)
  setKeyPair : ∀ t k owner, G.inv t → G.inv (t.setKeyPair k owner) ∧ G.rel t (t.setKeyPair k owner)

namespace Closed

variable {cfg : Config} {G : Rely World} {s : World} {k : ℕ} {m : MessageRequest}

theorem quiet (hG : Closed G) : KeyServer.Quiet cfg G True m where
  ksDown _ t k ht := hG.ksDown t k ht
  ksUp _ _ _ _ := trivial
  recd _ t _ u key _ _ ht _ _ := hG.setRecdPublicKey t u _ key ht

theorem safe_PublicKeyToBroker (hG : Closed G) {x : Bytes} {client_type client_name : Text} :
    (BrokerServer.PublicKeyToBroker cfg k x client_type client_name).Safe G True
      (fun _ _ => True) s :=
  Handler.Safe.bind (KeyServer.safe_PublicKeyToBroker hG.quiet fun _ _ _ _ _ _ => trivial)
    fun _ _ _ _ => trivial

theorem safe_ReEncryptionKeyToBroker (hG : Closed G) {x : Bytes}
    {client_type client_name upstream_client_name upstream_client_type : Text} :
    (BrokerServer.ReEncryptionKeyToBroker cfg k x client_type client_name upstream_client_name
      upstream_client_type).Safe G True (fun _ _ => True) s :=
  Handler.Safe.bind (KeyServer.safe_ReEncryptionKeyToBroker hG.quiet fun _ _ _ _ => trivial)
    fun _ _ _ _ => trivial

theorem safe_keyServer (hG : Closed G) (rpc : KeyServer.Rpc) :
    (KeyServer.Proceed cfg k rpc m).Safe G True (fun _ _ => True) s :=
  KeyServer.safe_Proceed hG.quiet
    { setKeyPair _ t := hG.setKeyPair t k _
      setPrivateKey _ t key := hG.setPrivateKey t k _ key
      setPublicKey _ t key _ := hG.setPublicKey t k _ key
      setRecdPublicKey _ t key _ := hG.setRecdPublicKey t k _ key }
    fun _ _ _ => trivial

end Closed

namespace Policy

variable {cfg : Config} (R : Policy cfg True)

/-- The calls of a run. -/
def Allowed : Call → Prop
  | .keyServer .. => True
  | .broker [] _ _ => True
  | .broker (p :: up) .CipherTextFromProducer m =>
    (∀ t ct, R.G.inv t → R.G.inv (t.setCipherText (p :: up) m.client_name (some ct)) ∧
      R.G.rel t (t.setCipherText (p :: up) m.client_name (some ct))) ∧
    ∀ ct rk, R.operands (some ct) rk
  | .broker (p :: up) .ReEncryptedCipherTextToBroker m => R.Asks p up m
  | .broker (p :: up) .CipherTextToConsumer m => R.Consumes p up m
  | .start b => ∀ t, R.G.inv t → R.G.inv (t.restart b) ∧ R.G.rel t (t.restart b)

variable {R} {s : World}

/-- **Every allowed call keeps the condition.** -/
theorem safe_handler (hG : Closed R.G) {c : Call} (hc : R.Allowed c) :
    (handler cfg c).Safe R.G True (fun _ _ => True) s := by
  cases c with
  | keyServer k rpc m => exact hG.safe_keyServer rpc
  | start b => exact R.safe_Run hc fun _ _ _ => hG.safe_keyServer _
  | broker b rpc m =>
    refine R.safe_Proceed ?_ ?_ ?_
    · rintro p up rfl rfl
      exact hc
    · rintro p up rfl rfl
      exact hc
    · rintro p up rfl rfl s
      refine (R.safe_reEncryptUpload (A := fun _ => True) (B := fun _ => True)
        (fun _ => hG.safe_PublicKeyToBroker) (fun _ => hG.safe_ReEncryptionKeyToBroker)
        (fun _ => trivial) (fun _ _ _ => trivial) (fun _ _ _ => trivial)
        (fun ct rk _ _ => hc.2 ct rk) fun _ => trivial).mono (fun _ ct _ _ t => hc.1 t ct) id

/-- **The condition along a run.** -/
theorem good_reach (hG : Closed R.G) {p q : Pool World MessageReturn} (hp : p.Good R.G True)
    (hr : Schedule.Reach (Pool.step (handler cfg)) (fun _ a => ∀ c, a = .call c → R.Allowed c) p q) :
    q.Good R.G True :=
  hp.reach hr fun _ c hc => safe_handler hG (hc c rfl)

theorem rel_reach (hG : Closed R.G) {p q : Pool World MessageReturn} (hp : p.Good R.G True)
    (hr : Schedule.Reach (Pool.step (handler cfg)) (fun _ a => ∀ c, a = .call c → R.Allowed c) p q) :
    R.G.rel p.state q.state :=
  hp.rel_reach hr fun _ c hc => safe_handler hG (hc c rfl)

end Policy

end Pre

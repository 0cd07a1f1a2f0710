import Stdx.Hpke.KeySchedule

/-!
# Key encapsulation

Any KEM, and the Diffie-Hellman KEMs built from a group and a KDF: decapsulation agrees
with encapsulation because both sides derive from the same shared point and the same
two public keys.
-/

namespace Stdx.Hpke

open Stdx.Foundation

/-- `trait Kem`; what `encap` draws at random is an argument. -/
structure Kem where
  HPKE_KEM_ID : UInt16
  PublicKey : Type
  SecretKey : Type
  EncappedKey : Type
  Randomness : Type
  derivePublicKey : SecretKey → PublicKey
  encap : Randomness → PublicKey → Except HpkeError (Bytes × EncappedKey)
  decap : EncappedKey → SecretKey → Except HpkeError Bytes

/-- Decapsulation finds the secret that was encapsulated for its key. -/
def Kem.Agrees (K : Kem) : Prop :=
  ∀ randomness secretKey sharedSecret encappedKey,
    K.encap randomness (K.derivePublicKey secretKey) = .ok (sharedSecret, encappedKey) →
      K.decap encappedKey secretKey = .ok sharedSecret

def kemSuiteId (kemId : UInt16) : Bytes := [75, 69, 77] ++ u16Octets kemId.toNat

/-- `trait DiffieHellmanGroup` -/
structure DiffieHellmanGroup where
  SecretKey : Type
  PublicKey : Type
  secretKeySize : Nat
  bitmask : UInt8
  rejectionSampling : Bool
  diffieHellman : SecretKey → PublicKey → Except Unit Bytes
  derivePublicKey : SecretKey → PublicKey
  serializePublicKey : PublicKey → Except HpkeError Bytes
  scalarFromCandidate : Bytes → Except Unit SecretKey

def EAE_PRK : Bytes := [101, 97, 101, 95, 112, 114, 107]
def SHARED_SECRET : Bytes := [115, 104, 97, 114, 101, 100, 95, 115, 101, 99, 114, 101, 116]
def DKP_PRK : Bytes := [100, 107, 112, 95, 112, 114, 107]
def CANDIDATE : Bytes := [99, 97, 110, 100, 105, 100, 97, 116, 101]
def SK : Bytes := [115, 107]

section

variable (G : DiffieHellmanGroup) (D : Kdf) (kemId : UInt16)

def extractAndExpand (diffieHellman kemContext : Bytes) : Except HpkeError Bytes := do
  let suiteId := kemSuiteId kemId
  let pseudorandomKey := D.labeledExtract [] suiteId EAE_PRK diffieHellman
  let sharedSecret ← D.labeledExpand D.outputSize pseudorandomKey suiteId SHARED_SECRET kemContext
  .ok sharedSecret.octets

def sampleKey (pseudorandomKey suiteId : Bytes) :
    Nat → UInt8 → Except HpkeError (G.SecretKey × G.PublicKey)
  | 0, _ => .error .deriveKeyPairError
  | left + 1, counter => do
      let candidate ← D.labeledExpand G.secretKeySize pseudorandomKey suiteId CANDIDATE [counter]
      match G.scalarFromCandidate (candidate.octets.modify 0 (· &&& G.bitmask)) with
      | .ok secretKey => .ok (secretKey, G.derivePublicKey secretKey)
      | .error _ => sampleKey pseudorandomKey suiteId left (counter + 1)

def diffieHellmanKemDeriveKeypair (inputKeyingMaterial : Bytes) :
    Except HpkeError (G.SecretKey × G.PublicKey) := do
  let suiteId := kemSuiteId kemId
  let pseudorandomKey := D.labeledExtract [] suiteId DKP_PRK inputKeyingMaterial
  if G.rejectionSampling then sampleKey G D pseudorandomKey suiteId 256 0
  else
    let secretKeyBytes ← D.labeledExpand G.secretKeySize pseudorandomKey suiteId SK []
    match G.scalarFromCandidate secretKeyBytes.octets with
    | .ok secretKey => .ok (secretKey, G.derivePublicKey secretKey)
    | .error _ => .error .deriveKeyPairError

def diffieHellmanKemEncapWithEphemeral (ephemeralSecretKey : G.SecretKey)
    (recipientPublicKey : G.PublicKey) : Except HpkeError (Bytes × G.PublicKey) := do
  match G.diffieHellman ephemeralSecretKey recipientPublicKey with
  | .error _ => .error .encapError
  | .ok diffieHellman =>
    let ephemeralPublicKey := G.derivePublicKey ephemeralSecretKey
    let ephemeral ← G.serializePublicKey ephemeralPublicKey
    let recipient ← G.serializePublicKey recipientPublicKey
    let sharedSecret ← extractAndExpand D kemId diffieHellman (ephemeral ++ recipient)
    .ok (sharedSecret, ephemeralPublicKey)

def diffieHellmanKemDecap (encappedKey : G.PublicKey) (recipientSecretKey : G.SecretKey) :
    Except HpkeError Bytes := do
  match G.diffieHellman recipientSecretKey encappedKey with
  | .error _ => .error .decapError
  | .ok diffieHellman =>
    let recipientPublicKey := G.derivePublicKey recipientSecretKey
    let encapped ← G.serializePublicKey encappedKey
    let recipient ← G.serializePublicKey recipientPublicKey
    extractAndExpand D kemId diffieHellman (encapped ++ recipient)

def diffieHellmanKem : Kem where
  HPKE_KEM_ID := kemId
  PublicKey := G.PublicKey
  SecretKey := G.SecretKey
  EncappedKey := G.PublicKey
  Randomness := Bytes
  derivePublicKey := G.derivePublicKey
  encap := fun randomness recipientPublicKey => do
    let keypair ← diffieHellmanKemDeriveKeypair G D kemId randomness
    diffieHellmanKemEncapWithEphemeral G D kemId keypair.1 recipientPublicKey
  decap := diffieHellmanKemDecap G D kemId

/-- Both sides reach the same point. -/
def DiffieHellmanGroup.Commutes : Prop :=
  ∀ a b shared, G.diffieHellman a (G.derivePublicKey b) = .ok shared →
    G.diffieHellman b (G.derivePublicKey a) = .ok shared

theorem diffieHellmanKem_agrees (h : G.Commutes) : (diffieHellmanKem G D kemId).Agrees := by
  intro randomness secretKey sharedSecret encappedKey hencap
  obtain ⟨keypair, -, hencap⟩ := except_bind_eq_ok.mp hencap
  unfold diffieHellmanKemEncapWithEphemeral at hencap
  cases hshared : G.diffieHellman keypair.1 (G.derivePublicKey secretKey) with
  | error err =>
    change (match G.diffieHellman keypair.1 (G.derivePublicKey secretKey) with
      | .error _ => _ | .ok _ => _) = _ at hencap
    rw [hshared] at hencap
    cases hencap
  | ok shared =>
    change (match G.diffieHellman keypair.1 (G.derivePublicKey secretKey) with
      | .error _ => _ | .ok _ => _) = _ at hencap
    rw [hshared] at hencap
    obtain ⟨ephemeral, hephemeral, hencap⟩ := except_bind_eq_ok.mp hencap
    obtain ⟨recipient, hrecipient, hencap⟩ := except_bind_eq_ok.mp hencap
    obtain ⟨secret, hsecret, hencap⟩ := except_bind_eq_ok.mp hencap
    cases hencap
    change diffieHellmanKemDecap G D kemId (G.derivePublicKey keypair.1) secretKey = _
    unfold diffieHellmanKemDecap
    rw [h _ _ _ hshared]
    exact except_bind_eq_ok.mpr ⟨ephemeral, hephemeral,
      except_bind_eq_ok.mpr ⟨recipient, hrecipient, hsecret⟩⟩

end

end Stdx.Hpke

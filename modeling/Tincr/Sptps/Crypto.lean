import Tincr.Sptps.Types

/-!
The cryptography the session calls into, as a parameter. A `Crypto` carries the primitives with the
sizes their Rust types fix (`[u8; 64]`, `[u8; 32]`, a 16-byte tag) and nothing else: the session runs
over any of them. What two honest ends need, that what one seals the other opens and that both sides
of a key exchange meet, is the separate `Crypto.Correct`.
-/

namespace Tincr.Sptps

structure Crypto where
  SigningKey : Type
  EcdhPrivate : Type
  MlKemPrivate : Type
  Rng : Type
  publicKey : SigningKey → Bytes
  sign : SigningKey → Bytes → Bytes
  /-- `verify hiskey msg sig`. -/
  verify : Bytes → Bytes → Bytes → Bool
  /-- `fill_bytes` on a buffer of the given length. -/
  fillBytes : ℕ → Rng → Bytes × Rng
  ecdhFromSeed : Bytes → EcdhPrivate × Bytes
  /-- `None` is a peer point of small order. -/
  computeShared : EcdhPrivate → Bytes → Option Bytes
  mlkemGenerate : Rng → (MlKemPrivate × Bytes) × Rng
  /-- Ciphertext and shared secret; `None` is a malformed encapsulation key. -/
  encapsulate : Bytes → Rng → Option (Bytes × Bytes) × Rng
  decapsulate : MlKemPrivate → Bytes → Bytes
  kemTranscriptHash : Bytes → Bytes → Bytes → Bytes → Bytes
  /-- `prf secret seed` filling a buffer of the given length. -/
  prf : Bytes → Bytes → ℕ → Bytes
  /-- AEAD, 64-byte key, record number, plaintext. -/
  cipherSeal : SptpsAead → Bytes → UInt32 → Bytes → Bytes
  cipherOpen : SptpsAead → Bytes → UInt32 → Bytes → Option Bytes
  length_sign : ∀ k m, (sign k m).length = SIG_LEN
  length_fillBytes : ∀ n r, (fillBytes n r).1.length = n
  length_ecdhPublic : ∀ seed, (ecdhFromSeed seed).2.length = ECDH_PUBLIC_LEN
  length_mlkemEk : ∀ r, (mlkemGenerate r).1.2.length = MLKEM_EK_LEN
  length_encapsulate : ∀ ek r ct ss, (encapsulate ek r).1 = some (ct, ss) → ct.length = MLKEM_CT_LEN
  length_prf : ∀ s d n, (prf s d n).length = n
  length_cipherSeal : ∀ a k n pt, (cipherSeal a k n pt).length = pt.length + TAG_LEN
  length_cipherOpen : ∀ a k n ct pt, cipherOpen a k n ct = some pt → pt.length + TAG_LEN = ct.length

/-- What the primitives promise two ends that follow the protocol. -/
structure Crypto.Correct (C : Crypto) : Prop where
  verify_sign : ∀ k msg, C.verify (C.publicKey k) msg (C.sign k msg) = true
  /-- Two key pairs made from seeds agree, and neither side sees a small-order point. -/
  shared_agree : ∀ seed seed', ∃ z,
    C.computeShared (C.ecdhFromSeed seed).1 (C.ecdhFromSeed seed').2 = some z ∧
    C.computeShared (C.ecdhFromSeed seed').1 (C.ecdhFromSeed seed).2 = some z
  /-- A generated encapsulation key is accepted, and its owner recovers the secret. -/
  decapsulate_encapsulate : ∀ r r', ∃ ct ss, (C.encapsulate (C.mlkemGenerate r).1.2 r').1 = some (ct, ss) ∧
    C.decapsulate (C.mlkemGenerate r).1.1 ct = ss
  open_seal : ∀ a k n pt, C.cipherOpen a k n (C.cipherSeal a k n pt) = some pt

/-- The least cryptography with the right sizes: nothing is secret and everything verifies. It is what
concrete runs are evaluated with. -/
def Crypto.null : Crypto where
  SigningKey := Unit
  EcdhPrivate := Unit
  MlKemPrivate := Unit
  Rng := Unit
  publicKey _ := List.replicate 32 0
  sign _ _ := List.replicate SIG_LEN 0
  verify _ _ _ := true
  fillBytes n _ := (List.replicate n 0, ())
  ecdhFromSeed _ := ((), List.replicate ECDH_PUBLIC_LEN 0)
  computeShared _ _ := some (List.replicate SHARED_LEN 0)
  mlkemGenerate _ := (((), List.replicate MLKEM_EK_LEN 0), ())
  encapsulate _ _ := (some (List.replicate MLKEM_CT_LEN 0, List.replicate MLKEM_SS_LEN 0), ())
  decapsulate _ _ := List.replicate MLKEM_SS_LEN 0
  kemTranscriptHash _ _ _ _ := []
  prf _ _ n := List.replicate n 0
  cipherSeal _ _ _ pt := pt ++ List.replicate TAG_LEN 0
  cipherOpen _ _ _ ct := if TAG_LEN ≤ ct.length then some (ct.take (ct.length - TAG_LEN)) else none
  length_sign _ _ := by simp
  length_fillBytes _ _ := by simp
  length_ecdhPublic _ := by simp
  length_mlkemEk _ := by simp
  length_encapsulate _ _ _ _ h := by
    obtain ⟨rfl, -⟩ := Prod.mk.inj (Option.some.inj h)
    simp
  length_prf _ _ _ := by simp
  length_cipherSeal _ _ _ _ := by simp
  length_cipherOpen _ _ _ ct pt h := by
    split_ifs at h with hlen
    obtain rfl := Option.some.inj h
    simp only [List.length_take]
    omega

theorem Crypto.null_correct : Crypto.null.Correct where
  verify_sign _ _ := rfl
  shared_agree _ _ := ⟨_, rfl, rfl⟩
  decapsulate_encapsulate _ _ := ⟨_, _, rfl, rfl⟩
  open_seal _ _ _ pt := by simp [Crypto.null]

structure SptpsCipher where
  aead : SptpsAead
  key : Bytes
deriving DecidableEq, Repr

def SptpsCipher.seal (C : Crypto) (c : SptpsCipher) (seqno : UInt32) (pt : Bytes) : Bytes :=
  C.cipherSeal c.aead c.key seqno pt

def SptpsCipher.open? (C : Crypto) (c : SptpsCipher) (seqno : UInt32) (ct : Bytes) : Option Bytes :=
  C.cipherOpen c.aead c.key seqno ct

/-- Second half of the PRF output iff `initiator == outbound`. -/
def keyHalf (key : Bytes) (initiator outbound : Bool) : Bytes :=
  if initiator = outbound then key.drop CIPHER_KEY_LEN else key.take CIPHER_KEY_LEN

/-- SIG transcript `[role-bit][kex_a][kex_b][label]`. -/
def sigTranscript (bit : Bool) (kexA kexB label : Bytes) : Bytes :=
  (if bit then 1 else 0) :: (kexA ++ kexB ++ label)

end Tincr.Sptps

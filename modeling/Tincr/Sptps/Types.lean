import Mathlib

/-! Constants and enumerations of the session layer. A byte string is a list of
bytes; the fixed-size arrays of the source are byte strings whose length the
crypto interface states. -/

namespace Tincr.Sptps

abbrev Bytes := List UInt8

inductive SptpsError
  | badKex
  | badSig
  | badAck
  | badRecord
  | decryptFailed
  | badSeqno
  | invalidState
  | recordTooLong
  deriving DecidableEq, Repr

inductive Role
  | initiator
  | responder
  deriving DecidableEq, Repr

def Role.isInitiator : Role → Bool
  | .initiator => true
  | .responder => false

inductive Framing
  | stream
  | datagram
  deriving DecidableEq, Repr

inductive State
  | kex
  | secondaryKex
  | sig
  | ack
  | confirm
  deriving DecidableEq, Repr

inductive SptpsKex
  | x25519
  | x25519MlKem768
  deriving DecidableEq, Repr

def SptpsKex.discriminator : SptpsKex → UInt8
  | .x25519 => 0
  | .x25519MlKem768 => 1

inductive SptpsAead
  | chaCha20Poly1305
  | aes256Gcm
  deriving DecidableEq, Repr

def SptpsAead.discriminator : SptpsAead → UInt8
  | .chaCha20Poly1305 => 0
  | .aes256Gcm => 1

def KEX_LEN : ℕ := 65
def NONCE_LEN : ℕ := 32
def VERSION : UInt8 := 0
def REC_HANDSHAKE : UInt8 := 128
def TAG_LEN : ℕ := 16
def CIPHER_KEY_LEN : ℕ := 64
def ECDH_PUBLIC_LEN : ℕ := 32
def SHARED_LEN : ℕ := 32
def SIG_LEN : ℕ := 64
def MLKEM_EK_LEN : ℕ := 1184
def MLKEM_CT_LEN : ℕ := 1088
def MLKEM_SS_LEN : ℕ := 32

/-- Records sealed per key before sequence number allocation refuses. -/
def SEAL_KEY_LIMIT : ℕ := 2 ^ 32 - 2 ^ 16

def kexLen : SptpsKex → ℕ
  | .x25519 => KEX_LEN
  | .x25519MlKem768 => KEX_LEN + MLKEM_EK_LEN

theorem kexLen_ge (kex : SptpsKex) : KEX_LEN ≤ kexLen kex := by
  cases kex <;> decide

def sigLen : SptpsKex → ℕ
  | .x25519 => SIG_LEN
  | .x25519MlKem768 => SIG_LEN + MLKEM_CT_LEN

def MAX_PREAUTH_RECLEN : ℕ :=
  (if kexLen .x25519MlKem768 > sigLen .x25519MlKem768 then kexLen .x25519MlKem768
    else sigLen .x25519MlKem768) + 16

end Tincr.Sptps

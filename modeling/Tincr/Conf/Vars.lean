import Mathlib

/-!
The table of configuration variables and the ASCII case folding every reader of a configuration file
compares names with. A text is the list of its characters.
-/

namespace Tincr.Conf

abbrev Text := List Char

def asciiFold (s : Text) : Text := s.map Char.toLower

def eqIgnoreAsciiCase (a b : Text) : Bool := asciiFold a == asciiFold b

/-- Node names: `[A-Za-z0-9_]+`. -/
def checkId (s : Text) : Bool := !s.isEmpty && s.all fun c => c.isAlphanum || c == '_'

theorem lt_of_isAlphanum {c : Char} (h : c.isAlphanum = true) : c.toNat < 128 := by
  have hle : ∀ {d : Char}, c.val ≤ d.val → d.toNat < 128 → c.toNat < 128 := fun hcd hd => hcd.trans_lt hd
  simp only [Char.isAlphanum, Char.isAlpha, Char.isUpper, Char.isLower, Char.isDigit, Bool.or_eq_true,
    Bool.and_eq_true, decide_eq_true_eq] at h
  rcases h with (⟨-, h⟩ | ⟨-, h⟩) | ⟨-, h⟩
  · exact @hle 'Z' h (by decide)
  · exact @hle 'z' h (by decide)
  · exact @hle '9' h (by decide)

theorem lt_of_idChar {c : Char} (h : (c.isAlphanum || c == '_') = true) : c.toNat < 128 := by
  rcases (Bool.or_eq_true _ _).mp h with hc | hc
  · exact lt_of_isAlphanum hc
  · rw [beq_iff_eq.1 hc]
    decide

structure VarFlags where
  bits : UInt8
deriving DecidableEq

namespace VarFlags

def SERVER : VarFlags := ⟨1⟩
def HOST : VarFlags := ⟨2⟩
def MULTIPLE : VarFlags := ⟨4⟩
def OBSOLETE : VarFlags := ⟨8⟩
def SAFE : VarFlags := ⟨16⟩

def contains (a b : VarFlags) : Bool := a.bits &&& b.bits == b.bits

instance : OrOp VarFlags := ⟨fun a b => ⟨a.bits ||| b.bits⟩⟩

end VarFlags

structure Var where
  name : Text
  flags : VarFlags
deriving DecidableEq

section Table

private abbrev S := VarFlags.SERVER
private abbrev H := VarFlags.HOST
private abbrev M := VarFlags.MULTIPLE
private abbrev O := VarFlags.OBSOLETE
private abbrev F := VarFlags.SAFE

def VARS : List Var := [
  ⟨"AddressFamily".toList, S ||| F⟩,
  ⟨"AutoConnect".toList, S ||| F⟩,
  ⟨"BindToAddress".toList, S ||| M⟩,
  ⟨"BindToInterface".toList, S⟩,
  ⟨"Broadcast".toList, S ||| F⟩,
  ⟨"BroadcastSubnet".toList, S ||| M ||| F⟩,
  ⟨"ConnectTo".toList, S ||| M ||| F⟩,
  ⟨"DecrementTTL".toList, S ||| F⟩,
  ⟨"Device".toList, S⟩,
  ⟨"DeviceStandby".toList, S⟩,
  ⟨"DeviceType".toList, S⟩,
  ⟨"DirectOnly".toList, S ||| F⟩,
  ⟨"Ed25519PrivateKeyFile".toList, S⟩,
  ⟨"ExperimentalProtocol".toList, S⟩,
  ⟨"Forwarding".toList, S⟩,
  ⟨"FWMark".toList, S⟩,
  ⟨"GraphDumpFile".toList, S ||| O⟩,
  ⟨"Hostnames".toList, S⟩,
  ⟨"IffOneQueue".toList, S⟩,
  ⟨"Interface".toList, S⟩,
  ⟨"InvitationExpire".toList, S⟩,
  ⟨"KeyExpire".toList, S ||| F⟩,
  ⟨"ListenAddress".toList, S ||| M⟩,
  ⟨"LocalDiscovery".toList, S ||| F⟩,
  ⟨"LogLevel".toList, S⟩,
  ⟨"MACExpire".toList, S ||| F⟩,
  ⟨"MaxConnectionBurst".toList, S ||| F⟩,
  ⟨"MaxOutputBufferSize".toList, S ||| F⟩,
  ⟨"MaxTimeout".toList, S ||| F⟩,
  ⟨"Mode".toList, S ||| F⟩,
  ⟨"Name".toList, S⟩,
  ⟨"PingInterval".toList, S ||| F⟩,
  ⟨"PingTimeout".toList, S ||| F⟩,
  ⟨"PriorityInheritance".toList, S⟩,
  ⟨"PrivateKey".toList, S ||| O⟩,
  ⟨"PrivateKeyFile".toList, S⟩,
  ⟨"ProcessPriority".toList, S⟩,
  ⟨"Proxy".toList, S⟩,
  ⟨"ReplayWindow".toList, S ||| F⟩,
  ⟨"Sandbox".toList, S⟩,
  ⟨"ScriptsExtension".toList, S⟩,
  ⟨"ScriptsInterpreter".toList, S⟩,
  ⟨"StrictSubnets".toList, S ||| F⟩,
  ⟨"TunnelServer".toList, S ||| F⟩,
  ⟨"UDPDiscovery".toList, S ||| F⟩,
  ⟨"UDPDiscoveryKeepaliveInterval".toList, S ||| F⟩,
  ⟨"UDPDiscoveryInterval".toList, S ||| F⟩,
  ⟨"UDPDiscoveryTimeout".toList, S ||| F⟩,
  ⟨"MTUInfoInterval".toList, S ||| F⟩,
  ⟨"UDPInfoInterval".toList, S ||| F⟩,
  ⟨"UDPRcvBuf".toList, S⟩,
  ⟨"UDPSndBuf".toList, S⟩,
  ⟨"UPnP".toList, S⟩,
  ⟨"UPnPDiscoverWait".toList, S⟩,
  ⟨"UPnPRefreshPeriod".toList, S⟩,
  ⟨"VDEGroup".toList, S⟩,
  ⟨"VDEPort".toList, S⟩,
  ⟨"Address".toList, H ||| M⟩,
  ⟨"Alias".toList, H ||| M⟩,
  ⟨"Cipher".toList, S ||| H⟩,
  ⟨"ClampMSS".toList, S ||| H ||| F⟩,
  ⟨"Compression".toList, S ||| H ||| F⟩,
  ⟨"Digest".toList, S ||| H⟩,
  ⟨"Ed25519PublicKey".toList, H⟩,
  ⟨"Ed25519PublicKeyFile".toList, S ||| H⟩,
  ⟨"IndirectData".toList, S ||| H ||| F⟩,
  ⟨"MACLength".toList, S ||| H⟩,
  ⟨"PMTU".toList, S ||| H⟩,
  ⟨"PMTUDiscovery".toList, S ||| H⟩,
  ⟨"Port".toList, H⟩,
  ⟨"PublicKey".toList, H ||| O⟩,
  ⟨"PublicKeyFile".toList, S ||| H ||| O⟩,
  ⟨"Subnet".toList, H ||| M ||| F⟩,
  ⟨"TCPOnly".toList, S ||| H ||| F⟩,
  ⟨"Weight".toList, S ||| H ||| F⟩,
  ⟨"DhtBootstrap".toList, S ||| M⟩,
  ⟨"DhtDiscovery".toList, S⟩,
  ⟨"DhtSecretFile".toList, S⟩,
  ⟨"DNSAddress".toList, S ||| M⟩,
  ⟨"DNSSuffix".toList, S⟩,
  ⟨"SPTPSCipher".toList, S ||| H⟩,
  ⟨"SPTPSKex".toList, S ||| H⟩,
  ⟨"Shards".toList, S⟩]

end Table

def lookupVar (name : Text) : Option Var := VARS.find? fun v => eqIgnoreAsciiCase v.name name

structure IsName (s : Text) : Prop where
  ne_nil : s ≠ []
  alphanum : ∀ c ∈ s, c.isAlphanum = true
  folded : ∀ c ∈ asciiFold s, c.isAlphanum = true

theorem isName_of_all {s : Text}
    (h : (!s.isEmpty && s.all Char.isAlphanum && (asciiFold s).all Char.isAlphanum) = true) : IsName s := by
  simp only [Bool.and_eq_true, Bool.not_eq_true', List.isEmpty_eq_false_iff, List.all_eq_true] at h
  exact ⟨h.1.1, h.1.2, h.2⟩

theorem isName_of_mem_vars {v : Var} (h : v ∈ VARS) : IsName v.name := by
  have hall : (VARS.all fun v => !v.name.isEmpty && v.name.all Char.isAlphanum &&
      (asciiFold v.name).all Char.isAlphanum) = true := by decide +kernel
  exact isName_of_all (List.all_eq_true.1 hall v h)

theorem isAlphanum_of_toLower {c : Char} (h : c.toLower.isAlphanum = true) : c.isAlphanum = true := by
  unfold Char.toLower at h
  split_ifs at h with hupper
  · have hup : c.isUpper = true := by
      unfold Char.isUpper
      exact decide_eq_true hupper
    simp [Char.isAlphanum, Char.isAlpha, hup]
  · exact h

end Tincr.Conf

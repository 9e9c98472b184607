import Tincr.Proto.Subnet

/-!
The messages of the meta protocol and their lines. A line is the request number, for flooded messages a
nonce, and the fields of the body, all separated by spaces; some messages end in an optional group. For
every well-formed body, parsing its line gives the body back, and a relay that appends an address and a
port to a `REQ_KEY` or an `ANS_KEY` only sets `udp_addr`.
-/

namespace Tincr.Proto

open Words

inductive Request
  | id | metakey | challenge | chalReply | ack | status | error | termreq | ping | pong | addSubnet
  | delSubnet | addEdge | delEdge | keyChanged | reqKey | ansKey | packet | control | reqPubkey
  | ansPubkey | sptpsPacket | udpInfo | mtuInfo
deriving DecidableEq, Repr

def Request.number : Request → ℕ
  | id => 0 | metakey => 1 | challenge => 2 | chalReply => 3 | ack => 4 | status => 5 | error => 6
  | termreq => 7 | ping => 8 | pong => 9 | addSubnet => 10 | delSubnet => 11 | addEdge => 12
  | delEdge => 13 | keyChanged => 14 | reqKey => 15 | ansKey => 16 | packet => 17 | control => 18
  | reqPubkey => 19 | ansPubkey => 20 | sptpsPacket => 21 | udpInfo => 22 | mtuInfo => 23

def Request.text (r : Request) : String := dec r.number

/-- ` {a} {p}`, written at the end of a line if there is a pair. -/
def pairSuffix : Option (AddrStr × AddrStr) → String
  | some (a, p) => " " ++ unwords [a.str, p.str]
  | none => ""

structure AddEdge where
  fromName : String
  toName : String
  addr : AddrStr
  port : AddrStr
  options : UInt32
  weight : Int32
  localAddr : Option (AddrStr × AddrStr)
deriving DecidableEq

namespace AddEdge

def scan : Tok AddEdge := do
  Tok.skip
  Tok.skip
  let fromName ← Tok.id
  let toName ← Tok.id
  if fromName = toName then failure
  let addr ← AddrStr.new (← Tok.s)
  let port ← AddrStr.new (← Tok.s)
  let options ← Tok.x
  let weight ← Tok.d
  let localAddr ← Tok.addrPairOpt
  return ⟨fromName, toName, addr, port, options, max weight 0, localAddr⟩

def parse : String → Option AddEdge := Tok.run scan

def format (m : AddEdge) (nonce : UInt32) : String :=
  unwords [Request.addEdge.text, hex nonce.toNat, m.fromName, m.toName, m.addr.str, m.port.str,
    hex m.options.toNat, dec m.weight.toInt] ++ pairSuffix m.localAddr

structure WellFormed (m : AddEdge) : Prop where
  fromName : Name m.fromName
  toName : Name m.toName
  ne : m.fromName ≠ m.toName
  weight : 0 ≤ m.weight

end AddEdge

structure DelEdge where
  fromName : String
  toName : String
deriving DecidableEq

namespace DelEdge

def scan : Tok DelEdge := do
  Tok.skip
  Tok.skip
  let fromName ← Tok.id
  let toName ← Tok.id
  if fromName = toName then failure
  return ⟨fromName, toName⟩

def parse : String → Option DelEdge := Tok.run scan

def format (m : DelEdge) (nonce : UInt32) : String :=
  unwords [Request.delEdge.text, hex nonce.toNat, m.fromName, m.toName]

structure WellFormed (m : DelEdge) : Prop where
  fromName : Name m.fromName
  toName : Name m.toName
  ne : m.fromName ≠ m.toName

end DelEdge

structure SubnetMsg where
  owner : String
  subnet : Subnet
deriving DecidableEq

namespace SubnetMsg

def scan : Tok SubnetMsg := do
  Tok.skip
  Tok.skip
  let owner ← Tok.s
  if !checkId owner then failure
  let subnet ← Subnet.parse (← Tok.s)
  return ⟨owner, subnet⟩

def parse : String → Option SubnetMsg := Tok.run scan

def format (m : SubnetMsg) (which : Request) (nonce : UInt32) : String :=
  unwords [which.text, hex nonce.toNat, m.owner, String.ofList m.subnet.display]

structure WellFormed (m : SubnetMsg) : Prop where
  owner : Name m.owner
  subnet : m.subnet.WellFormed

end SubnetMsg

/-- The name is not checked. -/
structure KeyChanged where
  node : String
deriving DecidableEq

namespace KeyChanged

def scan : Tok KeyChanged := do
  Tok.skip
  Tok.skip
  let node ← Tok.s
  return ⟨node⟩

def parse : String → Option KeyChanged := Tok.run scan

def format (m : KeyChanged) (nonce : UInt32) : String :=
  unwords [Request.keyChanged.text, hex nonce.toNat, m.node]

end KeyChanged

structure ReqKeyExt where
  reqno : Int32
  payload : Option String
deriving DecidableEq

structure ReqKey where
  fromName : String
  toName : String
  ext : Option ReqKeyExt
  udpAddr : Option (AddrStr × AddrStr)
deriving DecidableEq

namespace ReqKey

def scan : Tok ReqKey := do
  Tok.skip
  let fromName ← Tok.id
  let toName ← Tok.id
  let ext ← match ← Tok.dOpt with
    | none => pure none
    | some reqno => do
      let payload ← Tok.sOpt
      pure (some ⟨reqno, payload⟩)
  let udpAddr ← Tok.addrPairOpt
  return ⟨fromName, toName, ext, udpAddr⟩

def parse : String → Option ReqKey := Tok.run scan

def extWords : Option ReqKeyExt → List String
  | none => []
  | some ⟨reqno, payload⟩ => dec reqno.toInt :: payload.toList

def words (m : ReqKey) : List String := [Request.reqKey.text, m.fromName, m.toName] ++ extWords m.ext

def format (m : ReqKey) : String := unwords m.words ++ pairSuffix m.udpAddr

structure WellFormed (m : ReqKey) : Prop where
  fromName : Name m.fromName
  toName : Name m.toName
  payload : ∀ ext p, m.ext = some ext → ext.payload = some p → Token p
  udpAddr : m.udpAddr.isSome → ∃ ext, m.ext = some ext ∧ ext.payload.isSome

end ReqKey

structure AnsKey where
  fromName : String
  toName : String
  key : String
  cipher : Int32
  digest : Int32
  maclen : UInt64
  compression : Int32
  udpAddr : Option (AddrStr × AddrStr)
deriving DecidableEq

namespace AnsKey

def scan : Tok AnsKey := do
  Tok.skip
  let fromName ← Tok.id
  let toName ← Tok.id
  let key ← Tok.s
  let cipher ← Tok.d
  let digest ← Tok.d
  let maclen ← Tok.lu
  let compression ← Tok.d
  let udpAddr ← Tok.addrPairOpt
  return ⟨fromName, toName, key, cipher, digest, maclen, compression, udpAddr⟩

def parse : String → Option AnsKey := Tok.run scan

def words (m : AnsKey) : List String :=
  [Request.ansKey.text, m.fromName, m.toName, m.key, dec m.cipher.toInt, dec m.digest.toInt,
    dec m.maclen.toNat, dec m.compression.toInt]

def format (m : AnsKey) : String := unwords m.words ++ pairSuffix m.udpAddr

structure WellFormed (m : AnsKey) : Prop where
  fromName : Name m.fromName
  toName : Name m.toName
  key : Token m.key

end AnsKey

structure UdpInfo where
  fromName : String
  toName : String
  addr : AddrStr
  port : AddrStr
deriving DecidableEq

namespace UdpInfo

def scan : Tok UdpInfo := do
  Tok.skip
  let fromName ← Tok.id
  let toName ← Tok.id
  let addr ← AddrStr.new (← Tok.s)
  let port ← AddrStr.new (← Tok.s)
  return ⟨fromName, toName, addr, port⟩

def parse : String → Option UdpInfo := Tok.run scan

def format (m : UdpInfo) : String :=
  unwords [Request.udpInfo.text, m.fromName, m.toName, m.addr.str, m.port.str]

structure WellFormed (m : UdpInfo) : Prop where
  fromName : Name m.fromName
  toName : Name m.toName

end UdpInfo

structure MtuInfo where
  fromName : String
  toName : String
  mtu : Int32
  udpRxLen : UInt16
deriving DecidableEq

def u16OfI32 (v : Int32) : Option UInt16 :=
  if 0 ≤ v.toInt ∧ v.toInt < 2 ^ 16 then some (UInt16.ofNat v.toInt.toNat) else none

namespace MtuInfo

/-- A length that is missing or out of range is read as zero. -/
def scan : Tok MtuInfo := do
  Tok.skip
  let fromName ← Tok.id
  let toName ← Tok.id
  let mtu ← Tok.d
  let udpRxLen ← Tok.dOpt
  return ⟨fromName, toName, mtu, (udpRxLen.bind u16OfI32).getD 0⟩

def parse : String → Option MtuInfo := Tok.run scan

def format (m : MtuInfo) : String :=
  if m.udpRxLen = 0 then unwords [Request.mtuInfo.text, m.fromName, m.toName, dec m.mtu.toInt]
  else unwords [Request.mtuInfo.text, m.fromName, m.toName, dec m.mtu.toInt, dec m.udpRxLen.toNat]

structure WellFormed (m : MtuInfo) : Prop where
  fromName : Name m.fromName
  toName : Name m.toName

end MtuInfo

/-- The line before a raw blob; a length that is negative as an `i16` is rejected. -/
def scanLenPrefix : Tok UInt16 := do
  Tok.skip
  let len ← Tok.hd
  if len < 0 then failure
  return len.toUInt16

def parseLenPrefix : String → Option UInt16 := Tok.run scanLenPrefix

structure TcpPacket where
  len : UInt16
deriving DecidableEq

def TcpPacket.parse (line : String) : Option TcpPacket := (parseLenPrefix line).map TcpPacket.mk

def TcpPacket.format (m : TcpPacket) : String := unwords [Request.packet.text, dec m.len.toNat]

structure SptpsPacket where
  len : UInt16
deriving DecidableEq

def SptpsPacket.parse (line : String) : Option SptpsPacket := (parseLenPrefix line).map SptpsPacket.mk

def SptpsPacket.format (m : SptpsPacket) : String := unwords [Request.sptpsPacket.text, dec m.len.toNat]

theorem token_text (r : Request) : Token r.text := by
  have h : r.number < 24 := by cases r <;> decide
  exact token_dec (by omega)

theorem token_hex_u32 (n : UInt32) : Token (hex n.toNat) := by
  have := n.toNat_lt
  exact token_hex (by omega)

def pairWords : Option (AddrStr × AddrStr) → List String
  | some (a, p) => [a.str, p.str]
  | none => []

theorem spells_pairSuffix {line : String} {ts : List String} (h : Spells MAX_STRING line.toList ts)
    (pair : Option (AddrStr × AddrStr)) :
    Spells MAX_STRING (line ++ pairSuffix pair).toList (ts ++ pairWords pair) := by
  cases pair with
  | none => simpa [pairSuffix, pairWords] using h
  | some pair =>
    obtain ⟨a, p⟩ := pair
    rw [pairSuffix, String.toList_append, String.toList_append]
    refine h.snoc (List.cons_ne_nil _ _) isSpace_of_mem_blank (spells_unwords ?_)
    simp [a.token, p.token]

theorem yields_pair (pair : Option (AddrStr × AddrStr)) :
    Yields MAX_STRING Tok.addrPairOpt (pairWords pair) pair [] := by
  cases pair with
  | none => exact yields_addrPairOpt_nil
  | some pair => exact yields_addrPairOpt [] pair.1 pair.2

section Lines

variable {α : Type} {x : Tok α} {a : α} {ts : List String}

theorem run_unwords (hts : ∀ t ∈ ts, Token t) (h : Yields MAX_STRING x ts a []) :
    Tok.run x (unwords ts) = some a :=
  Tok.run_eq h (spells_unwords hts)

theorem run_pairSuffix (hts : ∀ t ∈ ts, Token t) {pair : Option (AddrStr × AddrStr)}
    (h : Yields MAX_STRING x (ts ++ pairWords pair) a []) :
    Tok.run x (unwords ts ++ pairSuffix pair) = some a :=
  Tok.run_eq h (spells_pairSuffix (spells_unwords hts) pair)

end Lines

theorem AddEdge.parse_format {m : AddEdge} (h : m.WellFormed) (nonce : UInt32) :
    AddEdge.parse (m.format nonce) = some m := by
  have hmax : max m.weight 0 = m.weight := by
    change (if m.weight ≤ 0 then 0 else m.weight) = m.weight
    split_ifs with hle
    · exact Int32.le_antisymm h.weight hle
    · rfl
  refine run_pairSuffix ?_ ?_
  · simp [token_text, token_hex_u32, h.fromName.token, h.toName.token, m.addr.token, m.port.token,
      token_dec_i32]
  · refine (yields_skip _ _).bind <| (yields_skip _ _).bind <| (yields_id _ h.fromName).bind <|
      (yields_id _ h.toName).bind <| .ite_neg h.ne <|
      (yields_s _ _).bind <| (Yields.lift m.addr.new_str _).bind <|
      (yields_s _ _).bind <| (Yields.lift m.port.new_str _).bind <| (yields_x _ _).bind <|
      (yields_d _ _).bind <| (yields_pair _).bind ?_
    rw [hmax]
    exact .pure m []

theorem DelEdge.parse_format {m : DelEdge} (h : m.WellFormed) (nonce : UInt32) :
    DelEdge.parse (m.format nonce) = some m := by
  refine run_unwords ?_ ?_
  · simp [token_text, token_hex_u32, h.fromName.token, h.toName.token]
  · exact (yields_skip _ _).bind <| (yields_skip _ _).bind <| (yields_id _ h.fromName).bind <|
      (yields_id _ h.toName).bind <| .ite_neg h.ne (.pure m [])

theorem SubnetMsg.parse_format {m : SubnetMsg} (h : m.WellFormed) (which : Request) (nonce : UInt32) :
    SubnetMsg.parse (m.format which nonce) = some m := by
  refine run_unwords ?_ ?_
  · simp [token_text, token_hex_u32, h.owner.token, Subnet.token_display]
  · have hid : ¬ (!checkId m.owner) = true := by simp [h.owner.id]
    exact (yields_skip _ _).bind <| (yields_skip _ _).bind <| (yields_s _ _).bind <| .ite_neg hid <|
      (yields_s _ _).bind <|
      (Yields.lift (Subnet.parse_display h.subnet) _).bind (.pure m [])

theorem KeyChanged.parse_format {m : KeyChanged} (h : Token m.node) (nonce : UInt32) :
    KeyChanged.parse (m.format nonce) = some m := by
  refine run_unwords ?_ ?_
  · simp [token_text, token_hex_u32, h]
  · exact (yields_skip _ _).bind <| (yields_skip _ _).bind <| (yields_s _ _).bind (.pure m [])

theorem AnsKey.yields_scan {m : AnsKey} (h : m.WellFormed) :
    Yields MAX_STRING AnsKey.scan (m.words ++ pairWords m.udpAddr) m [] :=
  (yields_skip _ _).bind <| (yields_id _ h.fromName).bind <| (yields_id _ h.toName).bind <|
    (yields_s _ _).bind <| (yields_d _ _).bind <| (yields_d _ _).bind <| (yields_lu _ _).bind <|
    (yields_d _ _).bind <| (yields_pair _).bind (.pure m [])

theorem UdpInfo.parse_format {m : UdpInfo} (h : m.WellFormed) : UdpInfo.parse m.format = some m := by
  refine run_unwords ?_ ?_
  · simp [token_text, h.fromName.token, h.toName.token, m.addr.token, m.port.token]
  · exact (yields_skip _ _).bind <| (yields_id _ h.fromName).bind <| (yields_id _ h.toName).bind <|
      (yields_s _ _).bind <| (Yields.lift m.addr.new_str _).bind <|
      (yields_s _ _).bind <| (Yields.lift m.port.new_str _).bind (.pure m [])

theorem toInt_ofInt_u16 (n : UInt16) : (Int32.ofInt n.toNat).toInt = n.toNat := by
  have := n.toNat_lt
  exact Int32.toInt_ofInt_of_le (by omega) (by omega)

theorem u16OfI32_ofInt (n : UInt16) : u16OfI32 (Int32.ofInt n.toNat) = some n := by
  have := n.toNat_lt
  rw [u16OfI32, toInt_ofInt_u16, if_pos (by omega), Int.toNat_natCast, UInt16.ofNat_toNat]

theorem token_dec_u16 (n : UInt16) : Token (dec n.toNat) := by
  have := n.toNat_lt
  exact token_dec (by omega)

theorem MtuInfo.parse_format {m : MtuInfo} (h : m.WellFormed) : MtuInfo.parse m.format = some m := by
  obtain ⟨fromName, toName, mtu, udpRxLen⟩ := m
  unfold MtuInfo.format
  split_ifs with hzero
  · refine run_unwords ?_ ?_
    · simp [token_text, h.fromName.token, h.toName.token, token_dec_i32]
    · refine (yields_skip _ _).bind <| (yields_id _ h.fromName).bind <| (yields_id _ h.toName).bind <|
        (yields_d _ _).bind <| yields_dOpt_nil.bind ?_
      rw [show udpRxLen = 0 from hzero]
      exact .pure _ []
  · refine run_unwords ?_ ?_
    · simp [token_text, h.fromName.token, h.toName.token, token_dec_i32, token_dec_u16]
    · have hlen := yields_dOpt [] (Int32.ofInt udpRxLen.toNat)
      rw [toInt_ofInt_u16] at hlen
      refine (yields_skip _ _).bind <| (yields_id _ h.fromName).bind <| (yields_id _ h.toName).bind <|
        (yields_d _ _).bind <| hlen.bind ?_
      rw [Option.bind_some, u16OfI32_ofInt]
      exact .pure _ []

theorem parseLenPrefix_eq {n : UInt16} (hn : n.toNat ≤ 32767) (r : Request) :
    parseLenPrefix (unwords [r.text, dec n.toNat]) = some n := by
  refine run_unwords ?_ ?_
  · simp [token_text, token_dec_u16]
  · have hint : (Int16.ofInt n.toNat).toInt = n.toNat := Int16.toInt_ofInt_of_le (by omega) (by omega)
    have hneg : ¬ Int16.ofInt n.toNat < 0 := by
      rw [Int16.lt_iff_toInt_lt, hint]
      simp
    have hu16 : (Int16.ofInt n.toNat).toUInt16 = n := by
      rw [Int16.ofInt_eq_ofNat, Int16.toUInt16_ofNat', UInt16.ofNat_toNat]
    refine (yields_skip _ _).bind <| (yields_hd _ (by omega)).bind <| .ite_neg hneg ?_
    rw [hu16]
    exact .pure n []

theorem AnsKey.spells_format {m : AnsKey} (h : m.WellFormed) :
    Spells MAX_STRING m.format.toList (m.words ++ pairWords m.udpAddr) := by
  refine spells_pairSuffix (spells_unwords ?_) m.udpAddr
  have := m.maclen.toNat_lt
  simp [AnsKey.words, token_text, h.fromName.token, h.toName.token, h.key, token_dec_i32,
    token_dec (i := m.maclen.toNat) (by omega)]

theorem ReqKey.yields_scan {m : ReqKey} (h : m.WellFormed) :
    Yields MAX_STRING ReqKey.scan (m.words ++ pairWords m.udpAddr) m [] := by
  obtain ⟨fromName, toName, ext, udpAddr⟩ := m
  refine (yields_skip _ _).bind <| (yields_id _ h.fromName).bind <| (yields_id _ h.toName).bind ?_
  -- without a payload there is no pair, so nothing is left for the optional tokens to take
  rcases ext with _ | ⟨reqno, _ | payload⟩
  · obtain rfl : udpAddr = none := by
      by_contra hsome
      obtain ⟨ext, hext, -⟩ := h.udpAddr (Option.isSome_iff_ne_none.2 hsome)
      exact absurd hext (by simp)
    exact yields_dOpt_nil.bind <| .bind (.pure none []) <| yields_addrPairOpt_nil.bind (.pure _ [])
  · obtain rfl : udpAddr = none := by
      by_contra hsome
      obtain ⟨ext, hext, hp⟩ := h.udpAddr (Option.isSome_iff_ne_none.2 hsome)
      obtain rfl := Option.some.inj hext
      exact absurd hp (by simp)
    exact (yields_dOpt _ _).bind <| yields_sOpt_nil.bind <| .bind (.pure _ _) <|
      yields_addrPairOpt_nil.bind (.pure _ [])
  · exact (yields_dOpt _ _).bind <| (yields_sOpt _ _).bind <| .bind (.pure _ _) <|
      (yields_pair udpAddr).bind (.pure _ [])

theorem ReqKey.spells_format {m : ReqKey} (h : m.WellFormed) :
    Spells MAX_STRING m.format.toList (m.words ++ pairWords m.udpAddr) := by
  refine spells_pairSuffix (spells_unwords ?_) m.udpAddr
  obtain ⟨fromName, toName, ext, udpAddr⟩ := m
  rcases ext with _ | ⟨reqno, _ | payload⟩
  · simp [ReqKey.words, ReqKey.extWords, token_text, h.fromName.token, h.toName.token]
  · simp [ReqKey.words, ReqKey.extWords, token_text, h.fromName.token, h.toName.token, token_dec_i32]
  · simp [ReqKey.words, ReqKey.extWords, token_text, h.fromName.token, h.toName.token, token_dec_i32,
      h.payload _ payload rfl rfl]

structure Separator (s : String) : Prop where
  nonempty : s.toList ≠ []
  blank : ∀ c ∈ s.toList, isSpace c = true

/-- What a relay appends: an address and a port behind whitespace. -/
def relayed (line : String) (sep₁ sep₂ : String) (a p : AddrStr) : String :=
  line ++ sep₁ ++ a.str ++ sep₂ ++ p.str

theorem spells_relayed {line sep₁ sep₂ : String} {ts : List String} {a p : AddrStr}
    (h : Spells MAX_STRING line.toList ts) (h₁ : Separator sep₁) (h₂ : Separator sep₂) :
    Spells MAX_STRING (relayed line sep₁ sep₂ a p).toList (ts ++ pairWords (some (a, p))) := by
  have hport := (Spells.word a.token).snoc h₂.nonempty h₂.blank (Spells.word p.token)
  have hall := h.snoc h₁.nonempty h₁.blank hport
  simpa only [relayed, String.toList_append, List.append_assoc, pairWords,
    List.singleton_append] using hall

def RoundTrips {M : Type} (wellFormed : M → Prop) (format : M → String) (parse : String → Option M) :
    Prop :=
  ∀ m, wellFormed m → parse (format m) = some m

/-- Every message survives the wire, and a relay's address and port become `udp_addr`. -/
theorem messages_roundTrip :
    (∀ nonce, RoundTrips AddEdge.WellFormed (AddEdge.format · nonce) AddEdge.parse) ∧
    (∀ nonce, RoundTrips DelEdge.WellFormed (DelEdge.format · nonce) DelEdge.parse) ∧
    (∀ which nonce, RoundTrips SubnetMsg.WellFormed (SubnetMsg.format · which nonce) SubnetMsg.parse) ∧
    (∀ nonce, RoundTrips (fun m => Token m.node) (KeyChanged.format · nonce) KeyChanged.parse) ∧
    RoundTrips ReqKey.WellFormed ReqKey.format ReqKey.parse ∧
    RoundTrips AnsKey.WellFormed AnsKey.format AnsKey.parse ∧
    RoundTrips UdpInfo.WellFormed UdpInfo.format UdpInfo.parse ∧
    RoundTrips MtuInfo.WellFormed MtuInfo.format MtuInfo.parse ∧
    RoundTrips (fun m => m.len.toNat ≤ 32767) TcpPacket.format TcpPacket.parse ∧
    RoundTrips (fun m => m.len.toNat ≤ 32767) SptpsPacket.format SptpsPacket.parse ∧
    (∀ (m : ReqKey) ext sep₁ sep₂ a p, m.WellFormed → m.ext = some ext → ext.payload.isSome →
      m.udpAddr = none → Separator sep₁ → Separator sep₂ →
      ReqKey.parse (relayed m.format sep₁ sep₂ a p) = some { m with udpAddr := some (a, p) }) ∧
    (∀ (m : AnsKey) sep₁ sep₂ a p, m.WellFormed → m.udpAddr = none → Separator sep₁ → Separator sep₂ →
      AnsKey.parse (relayed m.format sep₁ sep₂ a p) = some { m with udpAddr := some (a, p) }) := by
  refine ⟨fun nonce m h => AddEdge.parse_format h nonce, fun nonce m h => DelEdge.parse_format h nonce,
    fun which nonce m h => SubnetMsg.parse_format h which nonce,
    fun nonce m h => KeyChanged.parse_format h nonce,
    fun m h => Tok.run_eq (ReqKey.yields_scan h) (ReqKey.spells_format h),
    fun m h => Tok.run_eq (AnsKey.yields_scan h) (AnsKey.spells_format h),
    fun m h => UdpInfo.parse_format h, fun m h => MtuInfo.parse_format h, ?_, ?_, ?_, ?_⟩
  · intro m h
    rw [TcpPacket.parse, TcpPacket.format, parseLenPrefix_eq h, Option.map_some]
  · intro m h
    rw [SptpsPacket.parse, SptpsPacket.format, parseLenPrefix_eq h, Option.map_some]
  · intro m ext sep₁ sep₂ a p h hext hpayload hnone h₁ h₂
    have hline := ReqKey.spells_format h
    rw [hnone, pairWords, List.append_nil] at hline
    have hset : ({ m with udpAddr := some (a, p) } : ReqKey).WellFormed :=
      ⟨h.fromName, h.toName, h.payload, fun _ => ⟨ext, hext, hpayload⟩⟩
    exact Tok.run_eq (ReqKey.yields_scan hset) (spells_relayed hline h₁ h₂)
  · intro m sep₁ sep₂ a p h hnone h₁ h₂
    have hline := AnsKey.spells_format h
    rw [hnone, pairWords, List.append_nil] at hline
    have hset : ({ m with udpAddr := some (a, p) } : AnsKey).WellFormed := ⟨h.fromName, h.toName, h.key⟩
    exact Tok.run_eq (AnsKey.yields_scan hset) (spells_relayed hline h₁ h₂)

theorem name_alice : Name "alice" := ⟨by decide +kernel, by decide +kernel⟩

theorem name_bob : Name "bob" := ⟨by decide +kernel, by decide +kernel⟩

def sampleAddr : AddrStr := ⟨"10.0.0.1", by simp, by decide +kernel, by simp [isSpace]⟩

def samplePort : AddrStr := ⟨"655", by simp, by decide +kernel, by simp [isSpace]⟩

/-- An edge, and a key request that a relay forwards. -/
theorem messages_roundTrip_sample :
    let edge : AddEdge := ⟨"alice", "bob", sampleAddr, samplePort, 0x700000c, 50, none⟩
    let req : ReqKey := ⟨"alice", "bob", some ⟨15, some "AAAA"⟩, none⟩
    AddEdge.parse (edge.format 0xdeadbeef) = some edge ∧
      ReqKey.parse (relayed req.format " " " " sampleAddr samplePort) =
        some { req with udpAddr := some (sampleAddr, samplePort) } := by
  intro edge req
  have hedge : edge.WellFormed := ⟨name_alice, name_bob, by decide, by decide⟩
  have hreq : req.WellFormed := by
    refine ⟨name_alice, name_bob, ?_, fun h => absurd h (by decide)⟩
    rintro _ _ ⟨⟩ ⟨⟩
    exact ⟨by simp, by decide +kernel, by simp [isSpace]⟩
  have hsep : Separator " " := ⟨by simp, isSpace_of_mem_blank⟩
  obtain ⟨hadd, -, -, -, -, -, -, -, -, -, hrelay, -⟩ := messages_roundTrip
  exact ⟨hadd _ edge hedge, hrelay req _ _ _ _ _ hreq rfl rfl rfl hsep hsep⟩

end Tincr.Proto

import Tincr.Lib.Endian

/-!
Messages of the domain name system, without name compression. A message is read back from its bytes by the counts
of its header: as many questions and records as they say, and nothing may be left. The counts and the lengths of
the record data have 16 bits, so the bytes of a message are read back when these fit.
-/

namespace DnsMessage

open BigEndian

/-- A reader takes what it reads from the front of the bytes. -/
abbrev Reader (α : Type) := List UInt8 → Option (α × List UInt8)

/-- Names on the wire: labels behind their lengths, of at most 63 bytes, and an empty label at the end. -/
inductive IsName : List UInt8 → Prop
  | root : IsName [0]
  | label {len : UInt8} {bytes name : List UInt8} (hpos : len ≠ 0) (hlong : len &&& 0xC0 = 0)
      (hlen : bytes.length = len.toNat) (hname : IsName name) : IsName (len :: (bytes ++ name))

theorem IsName.ne_nil {name : List UInt8} (h : IsName name) : name ≠ [] := by
  cases h <;> simp

structure Question where
  name : List UInt8
  qtype : UInt16
  qclass : UInt16
deriving DecidableEq

structure Record where
  name : List UInt8
  rtype : UInt16
  rclass : UInt16
  ttl : UInt32
  rdata : List UInt8
deriving DecidableEq

structure Message where
  id : UInt16
  flags : UInt16
  questions : List Question
  answers : List Record
  authority : List Record
  additional : List Record
deriving DecidableEq

def Question.bytes (q : Question) : List UInt8 := q.name ++ (encode 2 q.qtype.toNat ++ encode 2 q.qclass.toNat)

def Record.bytes (r : Record) : List UInt8 :=
  r.name ++ (encode 2 r.rtype.toNat ++ (encode 2 r.rclass.toNat ++ (encode 4 r.ttl.toNat ++
    (encode 2 r.rdata.length ++ r.rdata))))

def Message.bytes (m : Message) : List UInt8 :=
  encode 2 m.id.toNat ++ (encode 2 m.flags.toNat ++ (encode 2 m.questions.length ++ (encode 2 m.answers.length ++
    (encode 2 m.authority.length ++ (encode 2 m.additional.length ++ (m.questions.flatMap Question.bytes ++
      (m.answers.flatMap Record.bytes ++ (m.authority.flatMap Record.bytes ++
        m.additional.flatMap Record.bytes))))))))

/-! ### Readers -/

def readWord (width : ℕ) : Reader ℕ := fun bs =>
  if width ≤ bs.length then some (decode (bs.take width), bs.drop width) else none

def readBytes (n : ℕ) : Reader (List UInt8) := fun bs =>
  if n ≤ bs.length then some (bs.take n, bs.drop n) else none

def readName (bs : List UInt8) : Option (List UInt8 × List UInt8) :=
  match bs with
  | [] => none
  | len :: bs =>
    if len = 0 then some ([0], bs)
    else if len &&& 0xC0 = 0 ∧ len.toNat ≤ bs.length then
      (readName (bs.drop len.toNat)).map fun (name, rest) => (len :: (bs.take len.toNat ++ name), rest)
    else none
termination_by bs.length
decreasing_by
  rw [List.length_drop, List.length_cons]
  omega

def readQuestion : Reader Question := fun bs => do
  let (name, bs) ← readName bs
  let (qtype, bs) ← readWord 2 bs
  let (qclass, bs) ← readWord 2 bs
  return (⟨name, UInt16.ofNat qtype, UInt16.ofNat qclass⟩, bs)

def readRecord : Reader Record := fun bs => do
  let (name, bs) ← readName bs
  let (rtype, bs) ← readWord 2 bs
  let (rclass, bs) ← readWord 2 bs
  let (ttl, bs) ← readWord 4 bs
  let (rdlength, bs) ← readWord 2 bs
  let (rdata, bs) ← readBytes rdlength bs
  return (⟨name, UInt16.ofNat rtype, UInt16.ofNat rclass, UInt32.ofNat ttl, rdata⟩, bs)

def readMany {α : Type} (read : Reader α) : ℕ → Reader (List α)
  | 0, bs => some ([], bs)
  | n + 1, bs => do
    let (a, bs) ← read bs
    let (as, bs) ← readMany read n bs
    return (a :: as, bs)

def Message.read (bs : List UInt8) : Option Message := do
  let (id, bs) ← readWord 2 bs
  let (flags, bs) ← readWord 2 bs
  let (qdcount, bs) ← readWord 2 bs
  let (ancount, bs) ← readWord 2 bs
  let (nscount, bs) ← readWord 2 bs
  let (arcount, bs) ← readWord 2 bs
  let (questions, bs) ← readMany readQuestion qdcount bs
  let (answers, bs) ← readMany readRecord ancount bs
  let (authority, bs) ← readMany readRecord nscount bs
  let (additional, bs) ← readMany readRecord arcount bs
  if bs = [] then
    return ⟨UInt16.ofNat id, UInt16.ofNat flags, questions, answers, authority, additional⟩
  else none

/-! ### Reading back -/

theorem readWord_encode {width n : ℕ} (h : n < 256 ^ width) (rest : List UInt8) :
    readWord width (encode width n ++ rest) = some (n, rest) := by
  have hlen := length_encode width n
  rw [readWord, if_pos (by rw [List.length_append, hlen]; omega), List.take_left' hlen, List.drop_left' hlen,
    decode_encode_of_lt h]

theorem readBytes_append (bytes rest : List UInt8) : readBytes bytes.length (bytes ++ rest) = some (bytes, rest) := by
  rw [readBytes, if_pos (by rw [List.length_append]; omega), List.take_left, List.drop_left]

theorem readName_append {name : List UInt8} (h : IsName name) (rest : List UInt8) :
    readName (name ++ rest) = some (name, rest) := by
  induction h with
  | root =>
    rw [List.singleton_append, readName, if_pos rfl]
  | @label len bytes name hpos hlong hlen _ ih =>
    rw [List.cons_append, List.append_assoc, readName, if_neg hpos, if_pos ⟨hlong, by
      rw [List.length_append]; omega⟩, List.drop_left' hlen, List.take_left' hlen, ih]
    rfl

theorem readName_sound {bs name rest : List UInt8} (h : readName bs = some (name, rest)) :
    IsName name ∧ bs = name ++ rest := by
  fun_induction readName bs generalizing name rest with
  | case1 => simp at h
  | case2 bs =>
    obtain ⟨rfl, rfl⟩ : [0] = name ∧ bs = rest := by simpa using h
    exact ⟨.root, rfl⟩
  | case3 len bs hpos hlen ih =>
    obtain ⟨⟨name', rest'⟩, hread, heq⟩ := Option.map_eq_some_iff.1 h
    obtain ⟨rfl, rfl⟩ : len :: (bs.take len.toNat ++ name') = name ∧ rest' = rest := by simpa using heq
    obtain ⟨hname, hsplit⟩ := ih hread
    refine ⟨.label hpos hlen.1 (by rw [List.length_take]; omega) hname, ?_⟩
    rw [List.cons_append, List.append_assoc, ← hsplit, List.take_append_drop]
  | case4 => simp at h

theorem readQuestion_append {q : Question} (h : IsName q.name) (rest : List UInt8) :
    readQuestion (q.bytes ++ rest) = some (q, rest) := by
  have htype : q.qtype.toNat < 256 ^ 2 := q.qtype.toNat_lt
  have hclass : q.qclass.toNat < 256 ^ 2 := q.qclass.toNat_lt
  simp [readQuestion, Question.bytes, readName_append h, readWord_encode htype, readWord_encode hclass]

structure Record.WellFormed (r : Record) : Prop where
  name : IsName r.name
  rdata : r.rdata.length < 2 ^ 16

theorem readRecord_append {r : Record} (h : r.WellFormed) (rest : List UInt8) :
    readRecord (r.bytes ++ rest) = some (r, rest) := by
  have htype : r.rtype.toNat < 256 ^ 2 := r.rtype.toNat_lt
  have hclass : r.rclass.toNat < 256 ^ 2 := r.rclass.toNat_lt
  have httl : r.ttl.toNat < 256 ^ 4 := r.ttl.toNat_lt
  have hlen : r.rdata.length < 256 ^ 2 := h.rdata
  simp [readRecord, Record.bytes, readName_append h.name, readWord_encode htype, readWord_encode hclass,
    readWord_encode httl, readWord_encode hlen, readBytes_append]

theorem readMany_flatMap {α : Type} {read : Reader α} {bytes : α → List UInt8} {as : List α}
    (h : ∀ a ∈ as, ∀ rest, read (bytes a ++ rest) = some (a, rest)) (rest : List UInt8) :
    readMany read as.length (as.flatMap bytes ++ rest) = some (as, rest) := by
  induction as with
  | nil => rfl
  | cons a as ih =>
    have hhead := h a List.mem_cons_self
    have htail := ih fun b hb => h b (List.mem_cons_of_mem _ hb)
    simp [readMany, hhead, htail]

structure Message.WellFormed (m : Message) : Prop where
  question : ∀ q ∈ m.questions, IsName q.name
  record : ∀ r ∈ m.answers ++ m.authority ++ m.additional, r.WellFormed
  qdcount : m.questions.length < 2 ^ 16
  ancount : m.answers.length < 2 ^ 16
  nscount : m.authority.length < 2 ^ 16
  arcount : m.additional.length < 2 ^ 16

theorem Message.read_bytes {m : Message} (h : m.WellFormed) : read m.bytes = some m := by
  have hid : m.id.toNat < 256 ^ 2 := m.id.toNat_lt
  have hflags : m.flags.toNat < 256 ^ 2 := m.flags.toNat_lt
  have hrecord : ∀ r, r ∈ m.answers ∨ r ∈ m.authority ∨ r ∈ m.additional →
      ∀ rest, readRecord (r.bytes ++ rest) = some (r, rest) :=
    fun r hr => readRecord_append (h.record r (by simpa [or_assoc] using hr))
  have hquestions := @readMany_flatMap _ _ _ m.questions fun q hq => readQuestion_append (h.question q hq)
  have hanswers := @readMany_flatMap _ _ _ m.answers fun r hr => hrecord r (.inl hr)
  have hauthority := @readMany_flatMap _ _ _ m.authority fun r hr => hrecord r (.inr (.inl hr))
  have hadditional := @readMany_flatMap _ _ _ m.additional (fun r hr => hrecord r (.inr (.inr hr))) []
  rw [List.append_nil] at hadditional
  simp [read, bytes, readWord_encode hid, readWord_encode hflags, readWord_encode (show _ < 256 ^ 2 from h.qdcount),
    readWord_encode (show _ < 256 ^ 2 from h.ancount), readWord_encode (show _ < 256 ^ 2 from h.nscount),
    readWord_encode (show _ < 256 ^ 2 from h.arcount), hquestions, hanswers, hauthority, hadditional]

/-! ### Sizes -/

structure Message.Named (m : Message) : Prop where
  question : ∀ q ∈ m.questions, IsName q.name
  record : ∀ r ∈ m.answers ++ m.authority ++ m.additional, IsName r.name

theorem Question.length_bytes (q : Question) : q.bytes.length = q.name.length + 4 := by
  simp [bytes]

theorem Record.length_bytes (r : Record) : r.bytes.length = r.name.length + 10 + r.rdata.length := by
  simp only [bytes, List.length_append, length_encode]
  omega

theorem Message.length_bytes (m : Message) :
    m.bytes.length = 12 + (m.questions.flatMap Question.bytes).length + (m.answers.flatMap Record.bytes).length +
      (m.authority.flatMap Record.bytes).length + (m.additional.flatMap Record.bytes).length := by
  simp only [bytes, List.length_append, length_encode]
  omega

theorem length_le_flatMap {α : Type} {bytes : α → List UInt8} {as : List α} (h : ∀ a ∈ as, 0 < (bytes a).length) :
    as.length ≤ (as.flatMap bytes).length := by
  induction as with
  | nil => simp
  | cons a as ih =>
    have hhead := h a List.mem_cons_self
    have htail := ih fun b hb => h b (List.mem_cons_of_mem _ hb)
    rw [List.flatMap_cons, List.length_append, List.length_cons]
    omega

theorem Record.length_rdata_le {r : Record} {rs : List Record} (h : r ∈ rs) :
    r.rdata.length ≤ (rs.flatMap Record.bytes).length := by
  have hle := (List.sublist_flatten_of_mem (List.mem_map_of_mem (f := Record.bytes) h)).length_le
  rw [length_bytes, ← List.flatMap_def] at hle
  omega

/-- Nothing in a message of fewer than 65536 bytes is too long or too many for its field. -/
theorem Message.Named.wellFormed {m : Message} (h : m.Named) (hlen : m.bytes.length < 2 ^ 16) : m.WellFormed := by
  have hrecord : ∀ r : Record, 0 < r.bytes.length := fun r => by rw [Record.length_bytes]; omega
  have hquestions := @length_le_flatMap _ Question.bytes m.questions fun q _ => by rw [Question.length_bytes]; omega
  have hanswers := @length_le_flatMap _ Record.bytes m.answers fun r _ => hrecord r
  have hauthority := @length_le_flatMap _ Record.bytes m.authority fun r _ => hrecord r
  have hadditional := @length_le_flatMap _ Record.bytes m.additional fun r _ => hrecord r
  rw [length_bytes] at hlen
  refine ⟨h.question, fun r hr => ⟨h.record r hr, ?_⟩, by omega, by omega, by omega, by omega⟩
  have hle := Record.length_rdata_le hr
  simp only [List.flatMap_append, List.length_append] at hle
  omega

end DnsMessage

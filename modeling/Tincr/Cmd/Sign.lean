import Tincr.Conf.Parse
import Tincr.Crypto.B64
import Tincr.Lib.Numeral
import Tincr.Lib.Utf8

/-!
Signed files. The signature is over the file with the signer's name and the time behind it; the output is a line with
these two and the signature, and then the file. The name and the time have no spaces in them, so the signed message
can be cut in one way only, whatever the file ends in.
-/

namespace Tincr.Cmd

open Conf Numeral

abbrev SIG_LEN : ℕ := 64
abbrev SIG_B64_LEN : ℕ := 86
abbrev MAX_HEADER_LEN : ℕ := 2048

/-- `data || " " || name || " " || t`. -/
def signedMessage (data : List UInt8) (name : Text) (t : Int64) : List UInt8 :=
  data ++ Utf8.bytes (' ' :: name ++ ' ' :: printInt t.toInt)

def signHeader (name : Text) (t : Int64) (sig : List UInt8) : Text :=
  "Signature = ".toList ++ (name ++ ' ' :: (printInt t.toInt ++ ' ' :: B64.encode sig))

/-- `cmd_sign` with the private key's signing function. -/
def signBlob (sign : List UInt8 → List UInt8) (name : Text) (t : Int64) (data : List UInt8) : List UInt8 :=
  Utf8.bytes (signHeader name t (sign (signedMessage data name t)) ++ ['\n']) ++ data

inductive Signer
  | any
  | named (name : Text)

structure Verified where
  signer : Text
  body : List UInt8
deriving DecidableEq

inductive VerifyError
  | invalidInput
  | notMadeBy (name : Text)
  | hostKey (name : Text)
  | invalidSignature
deriving DecidableEq

/-- What the first line says, and what is behind it. -/
structure Header where
  signerName : Text
  t : Int64
  sigB64 : Text
  body : List UInt8

def parseFields (header : Text) (body : List UInt8) : Option Header :=
  match header.splitOn ' ' with
  | [signature, eq, signerName, tStr, sigB64] =>
    if signature ≠ "Signature".toList ∨ eq ≠ "=".toList then none
    else if utf8Len sigB64 ≠ SIG_B64_LEN then none
    else match readSigned (2 ^ 63) tStr with
      | none => none
      | some t =>
        if t = 0 then none
        else if checkId signerName = false then none
        else some ⟨signerName, Int64.ofInt t, sigB64, body⟩
  | _ => none

/-- The part of `verify_blob` whose errors are all "Invalid input". -/
def parseHeader (blob : List UInt8) : Option Header :=
  match blob.findIdx? (· == 10) with
  | none => none
  | some nl =>
    if MAX_HEADER_LEN < nl then none
    else match Utf8.decode (blob.take nl) with
      | none => none
      | some header => parseFields header (blob.drop (nl + 1))

section Verify

variable {Key : Type} (hostKey : Text → Option Key) (verify : Key → List UInt8 → List UInt8 → Bool)

/-- The key is that of the name in the header, and so is the message that is checked. -/
def checkSignature (h : Header) : Except VerifyError Verified :=
  match hostKey h.signerName with
  | none => .error (.hostKey h.signerName)
  | some key =>
    match B64.decode h.sigB64 with
    | none => .error .invalidSignature
    | some sig =>
      if sig.length ≠ SIG_LEN then .error .invalidSignature
      else if verify key (signedMessage h.body h.signerName h.t) sig then .ok ⟨h.signerName, h.body⟩
      else .error .invalidSignature

def verifyBlob (signer : Signer) (blob : List UInt8) : Except VerifyError Verified :=
  match parseHeader blob with
  | none => .error .invalidInput
  | some h =>
    match signer with
    | .any => checkSignature hostKey verify h
    | .named n => if n ≠ h.signerName then .error (.notMadeBy n) else checkSignature hostKey verify h

end Verify

/-! ### The signed message is cut in one way -/

variable {name : Text} {t : Int64} {sig : List UInt8}

theorem space_not_mem_of_checkId (h : checkId name = true) : ' ' ∉ name := by
  intro hmem
  simp only [checkId, Bool.and_eq_true, List.all_eq_true] at h
  exact absurd (h.2 ' ' hmem) (by decide)

theorem space_not_mem_printInt (i : ℤ) : ' ' ∉ printInt i := by
  have hdigits : ' ' ∉ Nat.toDigits 10 i.natAbs := by
    intro hmem
    obtain ⟨d, hd, hc⟩ := mem_toDigits prints_ten hmem
    revert hc
    revert d
    decide
  unfold printInt
  split_ifs
  · simp [hdigits]
  · exact hdigits

theorem printInt_injective {s : Int64} (h : printInt s.toInt = printInt t.toInt) : s = t := by
  have hread : ∀ r : Int64, readSigned (2 ^ 63) (printInt r.toInt) = some r.toInt := fun r =>
    readSigned_printInt r.le_toInt r.toInt_lt
  have hint : some s.toInt = some t.toInt := (hread s).symm.trans (h ▸ hread t)
  exact Int64.toInt_inj.1 (Option.some.inj hint)

theorem append_cons_inj_of_last {α : Type*} {x : α} {a a' b b' : List α} (hb : x ∉ b) (hb' : x ∉ b')
    (h : a ++ x :: b = a' ++ x :: b') : a = a' ∧ b = b' := by
  rcases List.append_eq_append_iff.1 h with ⟨c, rfl, hc⟩ | ⟨c, rfl, hc⟩
  · cases c with
    | nil => exact ⟨by simp, (List.cons.inj hc).2⟩
    | cons y c =>
      obtain ⟨-, rfl⟩ := List.cons.inj hc
      exact absurd (by simp) hb
  · cases c with
    | nil => exact ⟨by simp, (List.cons.inj hc).2.symm⟩
    | cons y c =>
      obtain ⟨-, rfl⟩ := List.cons.inj hc
      exact absurd (by simp) hb'

theorem signedMessage_eq (data : List UInt8) (name : Text) (t : Int64) :
    signedMessage data name t = (data ++ 32 :: Utf8.bytes name) ++ 32 :: Utf8.bytes (printInt t.toInt) := by
  have hspace : String.utf8EncodeChar ' ' = [32] := rfl
  simp only [signedMessage, Utf8.bytes_append, Utf8.bytes_cons, hspace, List.cons_append, List.nil_append,
    List.append_assoc]

theorem signedMessage_injective {data data' : List UInt8} {name' : Text} {t' : Int64} (hname : checkId name = true)
    (hname' : checkId name' = true) (h : signedMessage data name t = signedMessage data' name' t') :
    data = data' ∧ name = name' ∧ t = t' := by
  have hspace : ∀ {s : Text}, ' ' ∉ s → (32 : UInt8) ∉ Utf8.bytes s := fun hs hmem =>
    hs ((@Utf8.mem_bytes ' ' (by decide) _).1 hmem)
  rw [signedMessage_eq, signedMessage_eq] at h
  -- the time is cut off first, then the name
  obtain ⟨hfront, htime⟩ :=
    append_cons_inj_of_last (hspace (space_not_mem_printInt _)) (hspace (space_not_mem_printInt _)) h
  obtain ⟨hdata, hnames⟩ := append_cons_inj_of_last (hspace (space_not_mem_of_checkId hname))
    (hspace (space_not_mem_of_checkId hname')) hfront
  exact ⟨hdata, Utf8.bytes_injective hnames, printInt_injective (Utf8.bytes_injective htime)⟩

section Accepted

variable {Key : Type} {hostKey : Text → Option Key} {verify : Key → List UInt8 → List UInt8 → Bool}

theorem checkId_of_parseHeader {blob : List UInt8} {h : Header} (hparse : parseHeader blob = some h) :
    checkId h.signerName = true := by
  unfold parseHeader at hparse
  split at hparse
  · cases hparse
  · split_ifs at hparse
    split at hparse
    · cases hparse
    · unfold parseFields at hparse
      split at hparse
      · split_ifs at hparse with _ _ hid
        · split at hparse <;> simp at hparse
        · split at hparse
          · cases hparse
          · split_ifs at hparse
            rw [← Option.some.inj hparse]
            simpa using hid
      · cases hparse

/-- What is accepted was checked against the key of the name in the header. -/
theorem verifyBlob_ok {signer : Signer} {blob : List UInt8} {v : Verified}
    (hok : verifyBlob hostKey verify signer blob = .ok v) :
    ∃ h key sig, parseHeader blob = some h ∧ hostKey h.signerName = some key ∧
      verify key (signedMessage h.body h.signerName h.t) sig = true ∧ v = ⟨h.signerName, h.body⟩ := by
  have hcheck : ∀ {h : Header}, checkSignature hostKey verify h = .ok v → ∃ key sig, hostKey h.signerName = some key ∧
      verify key (signedMessage h.body h.signerName h.t) sig = true ∧ v = ⟨h.signerName, h.body⟩ := by
    intro h hchecked
    unfold checkSignature at hchecked
    split at hchecked
    · cases hchecked
    · next key hkey =>
      split at hchecked
      · cases hchecked
      · next sig _ =>
        split_ifs at hchecked with _ hverify
        exact ⟨key, sig, hkey, hverify, (Except.ok.inj hchecked).symm⟩
  unfold verifyBlob at hok
  split at hok
  · cases hok
  · next h hparse =>
    split at hok
    · obtain ⟨key, sig, hrest⟩ := hcheck hok
      exact ⟨h, key, sig, hparse, hrest⟩
    · split_ifs at hok
      obtain ⟨key, sig, hrest⟩ := hcheck hok
      exact ⟨h, key, sig, hparse, hrest⟩

end Accepted

/-! ### The header line is read back -/

/-- A character of one byte that ends neither a field nor the line. -/
def Solid (c : Char) : Prop := c.toNat < 128 ∧ c ≠ ' ' ∧ c ≠ '\n'

instance (c : Char) : Decidable (Solid c) := inferInstanceAs (Decidable (_ ∧ _))

theorem solid_checkId (h : checkId name = true) : ∀ c ∈ name, Solid c := by
  intro c hc
  simp only [checkId, Bool.and_eq_true, List.all_eq_true] at h
  have hchar := h.2 c hc
  have hne : ∀ d : Char, (d.isAlphanum || d == '_') = false → c ≠ d := by
    rintro d hd rfl
    rw [hchar] at hd
    cases hd
  exact ⟨lt_of_idChar hchar, hne ' ' (by decide), hne '\n' (by decide)⟩

theorem solid_printInt (i : ℤ) : ∀ c ∈ printInt i, Solid c := by
  have hdigit : ∀ d < 10, Solid (Nat.digitChar d) := by decide
  have hdigits : ∀ c ∈ Nat.toDigits 10 i.natAbs, Solid c := by
    intro c hc
    obtain ⟨d, hd, rfl⟩ := mem_toDigits prints_ten hc
    exact hdigit d hd
  unfold printInt
  split_ifs
  · exact List.forall_mem_cons.2 ⟨by decide, hdigits⟩
  · exact hdigits

theorem solid_encode (x : List UInt8) : ∀ c ∈ B64.encode x, Solid c := by
  intro c hc
  have hall : ∀ d, Solid (B64.ALPHABET_STD.get d) := by decide +kernel
  obtain ⟨d, rfl⟩ := B64.exists_get (B64.mem_encodeWith hc)
  exact hall d

theorem length_encode_sig (h : sig.length = SIG_LEN) : (B64.encode sig).length = SIG_B64_LEN := by
  have hlen := B64.length_of_decode (B64.decode_encode sig)
  rw [h] at hlen
  change 64 = 3 * (B64.encode sig).length / 4 at hlen
  change (B64.encode sig).length = 86
  omega

theorem utf8Len_of_ascii {l : Text} (h : ∀ c ∈ l, c.toNat < 128) : utf8Len l = l.length := by
  induction l with
  | nil => rfl
  | cons c l ih =>
    have hc : c.utf8Size = 1 := by
      rw [Char.utf8Size_eq_one_iff, UInt32.le_iff_toNat_le]
      exact Nat.le_of_lt_succ (h c List.mem_cons_self)
    have htail := ih fun d hd => h d (List.mem_cons_of_mem _ hd)
    rw [utf8Len] at htail ⊢
    rw [List.map_cons, List.sum_cons, htail, hc, List.length_cons, Nat.add_comm]

def headerFields (name : Text) (t : Int64) (sig : List UInt8) : List Text :=
  [['S', 'i', 'g', 'n', 'a', 't', 'u', 'r', 'e'], ['='], name, printInt t.toInt, B64.encode sig]

theorem intercalate_five (a b c d e : Text) :
    [' '].intercalate [a, b, c, d, e] = a ++ ' ' :: (b ++ ' ' :: (c ++ ' ' :: (d ++ ' ' :: e))) := by
  simp [List.intercalate]

theorem signHeader_eq (name : Text) (t : Int64) (sig : List UInt8) :
    signHeader name t sig = ['S', 'i', 'g', 'n', 'a', 't', 'u', 'r', 'e', ' ', '=', ' '] ++
      (name ++ ' ' :: (printInt t.toInt ++ ' ' :: B64.encode sig)) := by
  have hword : "Signature = ".toList = ['S', 'i', 'g', 'n', 'a', 't', 'u', 'r', 'e', ' ', '=', ' '] := by decide
  exact congrArg (· ++ (name ++ ' ' :: (printInt t.toInt ++ ' ' :: B64.encode sig))) hword

theorem signHeader_eq_intercalate (name : Text) (t : Int64) (sig : List UInt8) :
    signHeader name t sig = [' '].intercalate (headerFields name t sig) := by
  rw [signHeader_eq, headerFields, intercalate_five]
  rfl

theorem solid_fields (h : checkId name = true) (t : Int64) (sig : List UInt8) :
    ∀ l ∈ headerFields name t sig, ∀ c ∈ l, Solid c := by
  have hsig : (['S', 'i', 'g', 'n', 'a', 't', 'u', 'r', 'e'].all fun c => decide (Solid c)) = true := by decide
  have heq : (['='].all fun c => decide (Solid c)) = true := by decide
  rw [List.all_eq_true] at hsig heq
  intro l hl
  simp only [headerFields, List.mem_cons, List.not_mem_nil, or_false] at hl
  rcases hl with rfl | rfl | rfl | rfl | rfl
  · exact fun c hc => of_decide_eq_true (hsig c hc)
  · exact fun c hc => of_decide_eq_true (heq c hc)
  · exact solid_checkId h
  · exact solid_printInt _
  · exact solid_encode sig

theorem splitOn_signHeader (h : checkId name = true) (t : Int64) (sig : List UInt8) :
    (signHeader name t sig).splitOn ' ' = headerFields name t sig := by
  rw [signHeader_eq_intercalate]
  refine List.splitOn_intercalate _ (fun l hl hmem => ?_) (by simp [headerFields])
  exact (solid_fields h t sig l hl ' ' hmem).2.1 rfl

theorem parseFields_signHeader (h : checkId name = true) (ht : t ≠ 0) (hsig : sig.length = SIG_LEN)
    (body : List UInt8) : parseFields (signHeader name t sig) body = some ⟨name, t, B64.encode sig, body⟩ := by
  have hword : ['S', 'i', 'g', 'n', 'a', 't', 'u', 'r', 'e'] = "Signature".toList := by decide
  have heq : ['='] = "=".toList := by decide
  have hlen : utf8Len (B64.encode sig) = SIG_B64_LEN :=
    (utf8Len_of_ascii fun c hc => (solid_encode sig c hc).1).trans (length_encode_sig hsig)
  have hread : readSigned (2 ^ 63) (printInt t.toInt) = some t.toInt := readSigned_printInt t.le_toInt t.toInt_lt
  have hzero : t.toInt ≠ 0 := fun h0 => ht (Int64.toInt_inj.1 h0)
  rw [parseFields, splitOn_signHeader h, headerFields]
  simp only [hword, heq, hlen, hread, hzero, h, ne_eq, not_true_eq_false, or_self, if_false, Bool.true_eq_false,
    Int64.ofInt_toInt]

theorem plain_signHeader (h : checkId name = true) (t : Int64) (sig : List UInt8) :
    ∀ c ∈ signHeader name t sig, c.toNat < 128 ∧ c ≠ '\n' := by
  have hsolid : ∀ {l : Text}, (∀ c ∈ l, Solid c) → ∀ c ∈ l, c.toNat < 128 ∧ c ≠ '\n' := fun hl c hc =>
    ⟨(hl c hc).1, (hl c hc).2.2⟩
  have hspace : ' '.toNat < 128 ∧ ' ' ≠ '\n' := by decide
  have hword : (['S', 'i', 'g', 'n', 'a', 't', 'u', 'r', 'e', ' ', '=', ' '].all fun c =>
      decide (c.toNat < 128 ∧ c ≠ '\n')) = true := by decide
  rw [List.all_eq_true] at hword
  rw [signHeader_eq]
  refine List.forall_mem_append.2 ⟨fun c hc => of_decide_eq_true (hword c hc), ?_⟩
  refine List.forall_mem_append.2 ⟨hsolid (solid_checkId h), List.forall_mem_cons.2 ⟨hspace, ?_⟩⟩
  exact List.forall_mem_append.2
    ⟨hsolid (solid_printInt _), List.forall_mem_cons.2 ⟨hspace, hsolid (solid_encode sig)⟩⟩

theorem length_signHeader (name : Text) (t : Int64) (hsig : sig.length = SIG_LEN) :
    (signHeader name t sig).length = name.length + (printInt t.toInt).length + 100 := by
  have hlen : (B64.encode sig).length = 86 := length_encode_sig hsig
  simp only [signHeader_eq, List.length_append, List.length_cons, List.length_nil, hlen]
  omega

theorem findIdx?_newline {bs : List UInt8} (h : 10 ∉ bs) (rest : List UInt8) :
    (bs ++ 10 :: rest).findIdx? (· == 10) = some bs.length := by
  have hnone : bs.findIdx? (· == 10) = none := by
    rw [List.findIdx?_eq_none_iff]
    intro b hb
    exact beq_false_of_ne fun heq => h (heq ▸ hb)
  rw [List.findIdx?_append, hnone, List.findIdx?_cons]
  simp

/-- The header of a signed file is read back unless it is too long. -/
theorem parseHeader_signBlob (h : checkId name = true) (ht : t ≠ 0) {sign : List UInt8 → List UInt8}
    {data : List UInt8} (hsig : (sign (signedMessage data name t)).length = SIG_LEN) :
    parseHeader (signBlob sign name t data) =
      if MAX_HEADER_LEN < name.length + (printInt t.toInt).length + 100 then none
      else some ⟨name, t, B64.encode (sign (signedMessage data name t)), data⟩ := by
  generalize hs : sign (signedMessage data name t) = sig at hsig
  have hplain := plain_signHeader h t sig
  have hno : 10 ∉ Utf8.bytes (signHeader name t sig) := fun hmem =>
    (hplain '\n' (Utf8.newline_mem_bytes.1 hmem)).2 rfl
  have hblob : signBlob sign name t data = Utf8.bytes (signHeader name t sig) ++ 10 :: data := by
    have hnl : Utf8.bytes ['\n'] = [10] := rfl
    rw [signBlob, hs, Utf8.bytes_append, hnl, List.append_assoc, List.singleton_append]
  have hlen : (Utf8.bytes (signHeader name t sig)).length = name.length + (printInt t.toInt).length + 100 := by
    rw [Utf8.length_bytes fun c hc => (hplain c hc).1, length_signHeader name t hsig]
  rw [parseHeader, hblob, findIdx?_newline hno]
  dsimp only
  rw [List.take_left, List.drop_length_add_append, Utf8.decode_bytes, hlen]
  split_ifs
  · rfl
  · exact parseFields_signHeader h ht hsig data

section Binding

variable {Key : Type} (hostKey : Text → Option Key) (verify : Key → List UInt8 → List UInt8 → Bool)

theorem verifyBlob_signBlob {sign : List UInt8 → List UInt8} {key : Key} {data : List UInt8} {name : Text} {t : Int64}
    {signer : Signer} (hname : checkId name = true) (ht : t ≠ 0)
    (hsig : (sign (signedMessage data name t)).length = SIG_LEN) (hkey : hostKey name = some key)
    (hverify : verify key (signedMessage data name t) (sign (signedMessage data name t)) = true)
    (hsigner : signer = .any ∨ signer = .named name) :
    verifyBlob hostKey verify signer (signBlob sign name t data) =
      if MAX_HEADER_LEN < name.length + (printInt t.toInt).length + 100 then .error .invalidInput
      else .ok ⟨name, data⟩ := by
  rw [verifyBlob, parseHeader_signBlob hname ht hsig]
  split_ifs
  · rfl
  · have hcheck : checkSignature hostKey verify
        ⟨name, t, B64.encode (sign (signedMessage data name t)), data⟩ = .ok ⟨name, data⟩ := by
      simp only [checkSignature, hkey, B64.decode_encode, hsig, ne_eq, not_true_eq_false, if_false, hverify, if_true]
    rcases hsigner with rfl | rfl
    · exact hcheck
    · exact (if_neg (by simp)).trans hcheck

/-- Signed files whose header is not too long are accepted, with their body and name; and what is accepted has the
body, the name and the time of a call of `sign`, if nothing else passes for signed. -/
theorem signature_binds :
    (∀ (sign : List UInt8 → List UInt8) (key : Key) (data : List UInt8) (name : Text) (t : Int64) (signer : Signer),
      checkId name = true → t ≠ 0 → name.length + (printInt t.toInt).length + 100 ≤ MAX_HEADER_LEN →
      (sign (signedMessage data name t)).length = SIG_LEN → hostKey name = some key →
      verify key (signedMessage data name t) (sign (signedMessage data name t)) = true →
      (signer = .any ∨ signer = .named name) →
      verifyBlob hostKey verify signer (signBlob sign name t data) = .ok ⟨name, data⟩) ∧
    ∀ signed : Key → List UInt8 → Text → Int64 → Prop,
      (∀ key data name t, signed key data name t → checkId name = true) →
      (∀ key m sig, verify key m sig = true → ∃ data name t, signed key data name t ∧ m = signedMessage data name t) →
      ∀ signer blob v, verifyBlob hostKey verify signer blob = .ok v →
        ∃ h key, parseHeader blob = some h ∧ v = ⟨h.signerName, h.body⟩ ∧ hostKey v.signer = some key ∧
          signed key v.body v.signer h.t := by
  constructor
  · intro sign key data name t signer hname ht hlen hsig hkey hverify hsigner
    rw [verifyBlob_signBlob hostKey verify hname ht hsig hkey hverify hsigner, if_neg (not_lt.2 hlen)]
  · intro signed hnames hgenuine signer blob v hok
    obtain ⟨h, key, sig, hparse, hkey, hverify, rfl⟩ := verifyBlob_ok hok
    obtain ⟨data, name, t, hsigned, hmessage⟩ := hgenuine key _ sig hverify
    obtain ⟨hdata, hname, ht⟩ :=
      signedMessage_injective (checkId_of_parseHeader hparse) (hnames key data name t hsigned) hmessage
    refine ⟨h, key, hparse, rfl, hkey, ?_⟩
    rw [hdata, hname, ht]
    exact hsigned

end Binding

/-- One signed file and nothing else passes. -/
def oneSigned (m : List UInt8) : Bool := m == signedMessage [7] ['b', 'o', 'b'] 5

theorem signature_binds_one :
    verifyBlob (fun _ => some ()) (fun _ m _ => oneSigned m) .any
      (signBlob (fun _ => List.replicate 64 0) ['b', 'o', 'b'] 5 [7]) = .ok ⟨['b', 'o', 'b'], [7]⟩ ∧
    ∀ signer blob v, verifyBlob (fun _ => some ()) (fun _ m _ => oneSigned m) signer blob = .ok v →
      v = ⟨['b', 'o', 'b'], [7]⟩ := by
  have hbinds := signature_binds (fun _ => some ()) fun _ m _ => oneSigned m
  constructor
  · exact hbinds.1 (fun _ => List.replicate 64 0) () [7] ['b', 'o', 'b'] 5 .any (by decide) (by decide)
      (by decide) rfl rfl (beq_self_eq_true _) (.inl rfl)
  · intro signer blob v hok
    obtain ⟨h, key, _, hv, _, hsigned⟩ := hbinds.2
      (fun _ data name t => data = [7] ∧ name = ['b', 'o', 'b'] ∧ t = 5)
      (fun _ _ _ _ hcall => by rw [hcall.2.1]; decide)
      (fun _ m _ hm => ⟨[7], ['b', 'o', 'b'], 5, ⟨rfl, rfl, rfl⟩, beq_iff_eq.1 hm⟩) signer blob v hok
    obtain ⟨signerName, body⟩ := v
    obtain ⟨rfl, rfl, _⟩ := hsigned
    rfl

/-- A name that fills the header beyond its limit is signed with, but not accepted. -/
theorem verifyBlob_long_name : checkId (List.replicate 2000 'a') = true ∧
    verifyBlob (fun _ => some ()) (fun _ _ _ => true) .any
      (signBlob (fun _ => List.replicate 64 0) (List.replicate 2000 'a') 5 [7]) = .error .invalidInput := by
  have hname : checkId (List.replicate 2000 'a') = true := by decide +kernel
  refine ⟨hname, ?_⟩
  rw [verifyBlob_signBlob (fun _ => some ()) (fun _ _ _ => true) hname (by decide) rfl rfl rfl (.inl rfl), if_pos]
  rw [List.length_replicate]
  exact Nat.lt_of_lt_of_le (by decide) (Nat.add_le_add_right (Nat.le_add_right 2000 _) 100)

end Tincr.Cmd

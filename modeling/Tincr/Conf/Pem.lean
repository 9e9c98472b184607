import Tincr.Conf.Parse
import Tincr.Crypto.B64
import Tincr.Lib.Utf8

/-!
Keys in their armour. The writer puts 48 bytes on a line and encodes each line for itself; the reader looks for the
line that opens the block, decodes one line after the other and counts what it has. A line that is not UTF-8 ends the
reading wherever it stands.
-/

namespace Tincr.Conf

open Lines Radix

inductive PemError
  | notFound
  | badBase64
  | size (got want : ℕ)
  | io
deriving DecidableEq, Repr

def finishPem (out : List UInt8) (want : ℕ) : Except PemError (List UInt8) :=
  if out.length = want then .ok out else .error (.size out.length want)

def beginMarker (ty : Text) : Text := "-----BEGIN ".toList ++ ty

/-- One round of the loop for each line that `read_line` gives. -/
def readPemLoop (ty : Text) (want : ℕ) (inBlock : Bool) (out : List UInt8) :
    List (List UInt8) → Except PemError (List UInt8)
  | [] => if inBlock then finishPem out want else .error .notFound
  | bytes :: rest =>
    match Utf8.decode bytes with
    | none => .error .io
    | some line =>
      if inBlock = false then
        -- the marker is a beginning of the line, so a longer type is found as well
        readPemLoop ty want ((beginMarker ty).isPrefixOf (chomp line)) out rest
      else if "-----END ".toList.isPrefixOf (chomp line) then finishPem out want
      else match B64.decode (chomp line) with
        | none => .error .badBase64
        | some decoded =>
          if decoded = [] then .error .badBase64
          else if want < out.length + decoded.length then .error (.size (out.length + decoded.length) want)
          else readPemLoop ty want true (out ++ decoded) rest

def readPem (file : List UInt8) (ty : Text) (want : ℕ) : Except PemError (List UInt8) :=
  readPemLoop ty want false [] (cutAfter 10 file)

def writeLines (lines : List Text) : List UInt8 := lines.flatMap fun l => Utf8.bytes (l ++ ['\n'])

def writePem (ty : Text) (body : List UInt8) : List UInt8 :=
  writeLines ((beginMarker ty ++ "-----".toList) :: (chunks 48 body).map B64.encode ++
    ["-----END ".toList ++ ty ++ "-----".toList])

/-! ### Lines of text -/

theorem cutAfter_writeLines {lines : List Text} (h : ∀ l ∈ lines, '\n' ∉ l) (rest : List UInt8) :
    cutAfter 10 (writeLines lines ++ rest) = lines.map (fun l => Utf8.bytes (l ++ ['\n'])) ++ cutAfter 10 rest := by
  induction lines with
  | nil => rfl
  | cons l lines ih =>
    have hl : 10 ∉ Utf8.bytes l := fun hmem => h l List.mem_cons_self (Utf8.newline_mem_bytes.1 hmem)
    have hline : Utf8.bytes (l ++ ['\n']) = Utf8.bytes l ++ [10] := Utf8.bytes_append l ['\n']
    have hsplit : writeLines (l :: lines) ++ rest = Utf8.bytes l ++ 10 :: (writeLines lines ++ rest) := by
      rw [writeLines, List.flatMap_cons, hline]
      simp [writeLines]
    rw [hsplit, cutAfter_append hl, ih fun m hm => h m (List.mem_cons_of_mem _ hm), List.map_cons, hline,
      List.cons_append]

theorem chomp_line (l : Text) : chomp (l ++ ['\n']) = chomp l := List.rdropWhile_concat_pos _ _ _ (by decide)

theorem chomp_eq_self {l : Text} (h : ∀ c ∈ l, c ≠ '\n' ∧ c ≠ '\r') : chomp l = l := by
  rw [chomp, List.rdropWhile_eq_self_iff]
  intro hne
  obtain ⟨hn, hr⟩ := h _ (List.getLast_mem hne)
  simp [hn, hr]

theorem decode_line (l : Text) : Utf8.decode (Utf8.bytes (l ++ ['\n'])) = some (l ++ ['\n']) := Utf8.decode_bytes _

/-! ### Reading a block -/

variable {ty : Text} {want : ℕ} {out : List UInt8} {rest : List (List UInt8)}

theorem readPemLoop_preamble {pre : List Text} (h : ∀ l ∈ pre, ¬ beginMarker ty <+: l) :
    readPemLoop ty want false out (pre.map (fun l => Utf8.bytes (l ++ ['\n'])) ++ rest) =
      readPemLoop ty want false out rest := by
  induction pre with
  | nil => rfl
  | cons l pre ih =>
    have hskip : (beginMarker ty).isPrefixOf (chomp (l ++ ['\n'])) = false := by
      rw [chomp_line, Bool.eq_false_iff]
      intro hmarker
      exact h l List.mem_cons_self ((List.isPrefixOf_iff_prefix.1 hmarker).trans (List.rdropWhile_prefix _ l))
    rw [List.map_cons, List.cons_append, readPemLoop, decode_line]
    simp only [if_pos, hskip]
    exact ih fun m hm => h m (List.mem_cons_of_mem _ hm)

theorem chomp_dashes (l : Text) : chomp (l ++ "-----".toList) = l ++ "-----".toList := by
  have hlast : l ++ "-----".toList = (l ++ "----".toList) ++ ['-'] := by simp
  rw [hlast, chomp, List.rdropWhile_concat_neg _ _ _ (by decide)]

theorem readPemLoop_begin : readPemLoop ty want false out
    (Utf8.bytes (beginMarker ty ++ "-----".toList ++ ['\n']) :: rest) = readPemLoop ty want true out rest := by
  have hmarker : (beginMarker ty).isPrefixOf (chomp (beginMarker ty ++ "-----".toList ++ ['\n'])) = true := by
    rw [chomp_line, chomp_dashes, List.isPrefixOf_iff_prefix]
    exact List.prefix_append _ _
  rw [readPemLoop, decode_line]
  simp only [if_pos, hmarker]

theorem plain_std {c : Char} (h : c ∈ B64.ALPHABET_STD.toList) : (c ≠ '\n' ∧ c ≠ '\r') ∧ c ≠ '-' := by
  have hall : ∀ d, (B64.ALPHABET_STD.get d ≠ '\n' ∧ B64.ALPHABET_STD.get d ≠ '\r') ∧ B64.ALPHABET_STD.get d ≠ '-' := by
    decide +kernel
  obtain ⟨d, rfl⟩ := B64.exists_get h
  exact hall d

/-- What the reader returns for a body of this length. -/
structure ReadsBody (want : ℕ) (body : List UInt8) (r : Except PemError (List UInt8)) : Prop where
  ok : want = body.length → r = .ok body
  size : want ≠ body.length → ∃ got, r = .error (.size got want)

theorem readsBody_finish : ReadsBody want out (finishPem out want) where
  ok h := if_pos h.symm
  size h := ⟨out.length, if_neg h.symm⟩

theorem readPemLoop_end : readPemLoop ty want true out
    [Utf8.bytes ("-----END ".toList ++ ty ++ "-----".toList ++ ['\n'])] = finishPem out want := by
  have hend : "-----END ".toList.isPrefixOf (chomp ("-----END ".toList ++ ty ++ "-----".toList ++ ['\n'])) = true := by
    rw [chomp_line, chomp_dashes, List.isPrefixOf_iff_prefix, List.append_assoc]
    exact List.prefix_append _ _
  rw [readPemLoop, decode_line]
  simp only [if_pos, hend, Bool.true_eq_false, if_false]

/-- A line of the body adds what it was made of, or is too much. -/
theorem readPemLoop_chunk {a : List UInt8} (hne : a ≠ []) :
    readPemLoop ty want true out (Utf8.bytes (B64.encode a ++ ['\n']) :: rest) =
      if want < out.length + a.length then .error (.size (out.length + a.length) want)
      else readPemLoop ty want true (out ++ a) rest := by
  have hchomp : chomp (B64.encode a ++ ['\n']) = B64.encode a := by
    rw [chomp_line]
    exact chomp_eq_self fun c hc => (plain_std (B64.mem_encodeWith hc)).1
  have hend : "-----END ".toList.isPrefixOf (B64.encode a) = false := by
    rw [Bool.eq_false_iff]
    intro hpre
    have hdash : '-' ∈ B64.encode a := (List.isPrefixOf_iff_prefix.1 hpre).subset (by simp)
    exact (plain_std (B64.mem_encodeWith hdash)).2 rfl
  rw [readPemLoop, decode_line]
  simp only [hchomp, hend, B64.decode_encode, hne, Bool.true_eq_false, Bool.false_eq_true, if_false]

theorem readPemLoop_body (body : List UInt8) : ReadsBody want (out ++ body) (readPemLoop ty want true out
    ((chunks 48 body).map (fun chunk => Utf8.bytes (B64.encode chunk ++ ['\n'])) ++
      [Utf8.bytes ("-----END ".toList ++ ty ++ "-----".toList ++ ['\n'])])) := by
  induction body using chunks_induction (n := 48) (by decide) generalizing out with
  | nil =>
    rw [List.append_nil, chunks, List.map_nil, List.nil_append, readPemLoop_end]
    exact readsBody_finish
  | group a l hne hle hfull ih =>
    rw [chunks_append hne hle hfull, List.map_cons, List.cons_append, readPemLoop_chunk hne, ← List.append_assoc]
    split_ifs with hmuch
    · have hlen : (out ++ a ++ l).length = out.length + a.length + l.length := by
        rw [List.length_append, List.length_append]
      exact ⟨fun h => by omega, fun _ => ⟨_, rfl⟩⟩
    · exact ih

/-- The body comes back if its length is asked for, behind any lines that do not open a block of the type. -/
theorem readPem_writePem {pre : List Text} (hno : ∀ l ∈ pre, '\n' ∉ l) (hpre : ∀ l ∈ pre, ¬ beginMarker ty <+: l)
    (hty : '\n' ∉ ty) (body : List UInt8) :
    ReadsBody want body (readPem (writeLines pre ++ writePem ty body) ty want) := by
  have hlines : ∀ l ∈ (beginMarker ty ++ "-----".toList) :: (chunks 48 body).map B64.encode ++
      ["-----END ".toList ++ ty ++ "-----".toList], '\n' ∉ l := by
    have hdashes : '\n' ∉ "-----".toList := by decide
    have hbegin : '\n' ∉ "-----BEGIN ".toList := by decide
    have hend : '\n' ∉ "-----END ".toList := by decide
    have hbody : ∀ chunk ∈ chunks 48 body, '\n' ∉ B64.encode chunk := by
      intro chunk _ hmem
      exact (plain_std (B64.mem_encodeWith hmem)).1.1 rfl
    rw [List.forall_mem_append, List.forall_mem_cons, List.forall_mem_singleton, List.forall_mem_map]
    refine ⟨⟨?_, hbody⟩, ?_⟩
    · exact List.not_mem_append (List.not_mem_append hbegin hty) hdashes
    · exact List.not_mem_append (List.not_mem_append hend hty) hdashes
  have hcut := cutAfter_writeLines hlines []
  rw [List.append_nil, cutAfter, List.append_nil] at hcut
  rw [readPem, cutAfter_writeLines hno, readPemLoop_preamble hpre, writePem, hcut, List.cons_append, List.map_cons,
    readPemLoop_begin, List.map_append, List.map_map]
  exact @readPemLoop_body ty want [] body

end Tincr.Conf

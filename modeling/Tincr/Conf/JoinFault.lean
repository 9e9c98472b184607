import Tincr.Conf.JoinRead
import Tincr.Lib.Rollback

/-!
`tinc join` where any operation on a file may fail. The functions of the join give here the operations they perform, in
their order; nothing but the success of an operation matters for those behind it. Without a fault this is the join of
before. A run that fails removes the files it recorded, and old files are among those.
-/

namespace Tincr.Conf

open Lines EStateM Rollback

/-- An operation, with the path its error names; a directory has none here. -/
structure Step where
  op : Op Path Char
  label : Option Path

inductive JoinError
  | cmd (e : CmdError)
  | io (path : Option Path)

/-- `create_nofollow` and the push behind it. -/
def Step.create (p : Path) : Step := ⟨.create p, some p⟩

/-- A file that is recorded only after it is written. -/
def Step.put (p : Path) (text : Text) : Step := ⟨.put p text, some p⟩

def Step.writeln (p label : Path) (line : Text) : Step := ⟨.append p (line ++ ['\n']), some label⟩

/-- `makedirs` and `OpenFiles::new`. -/
def openSteps (name data : Text) : List Step :=
  [⟨.pass, none⟩, .create .tincConf, .writeln .tincConf .tincConf (varLine "Name".toList name),
    .create (.host name), .put .invitationData data]

/-- `write_chunk1`; an error names `tinc.conf` for either file. -/
def chunk1Steps (name : Text) (force : Bool) : List Text → List Step × Option (Text × List Text)
  | [] => ([], none)
  | line :: rest =>
    match ownLine name force line with
    | .skip => chunk1Steps name force rest
    | .boundary v => ([], some (v, rest))
    | .var var val =>
      let target := if var.flags.contains .HOST then Path.host name else Path.tincConf
      let tail := chunk1Steps name force rest
      (.writeln target .tincConf (varLine var.name val) :: tail.1, tail.2)

def hostOpen (name hostName : Text) : Except CmdError Step :=
  if checkId hostName = false then .error (.badInput "Invalid Name found in invitation.")
  else if eqIgnoreAsciiCase hostName name then
    .error (.badInput "Secondary chunk would overwrite our own host config file.")
  else .ok (.create (.host hostName))

def hostSteps (name cur : Text) (written : List Text) : List Text → List Step × Except CmdError (List Text)
  | [] => ([], .ok written)
  | line :: rest =>
    match peerLine line with
    | .skip => hostSteps name cur written rest
    | .boundary v =>
      match hostOpen name v with
      | .error e => ([], .error e)
      | .ok step =>
        let tail := hostSteps name v (written ++ [v]) rest
        (step :: tail.1, tail.2)
    | .copy =>
      let tail := hostSteps name cur written rest
      (.writeln (.host cur) (.host cur) line :: tail.1, tail.2)

def hostChunkSteps (name : Text) : Option (Text × List Text) → List Step × Except CmdError (List Text)
  | none => ([], .ok [])
  | some (v, lines) =>
    match hostOpen name v with
    | .error e => ([], .error e)
    | .ok step =>
      let tail := hostSteps name v [v] lines
      (step :: tail.1, tail.2)

/-- `generate_node_key` where the key's file is new, and `write_tinc_up_placeholder`. -/
def lastSteps (name : Text) (files : Conf.Files) (key : NodeKey) : List Step :=
  [.put .ed25519Private key.privatePem,
    .writeln (.host name) (.host name) (varLine "Ed25519PublicKey".toList key.pubkeyB64), ⟨.pass, some .tincUp⟩] ++
    if (files .tincUp).isSome then [] else [.put .tincUp tincUpPlaceholder]

def joinSteps (data : Text) (files : Conf.Files) (force : Bool) (key : NodeKey) :
    List Step × Except CmdError JoinResult :=
  match parseBlobHeader (strLines data) with
  | .error e => ([], .error e)
  | .ok (name, lines) =>
    if (files .tincConf).isSome then ([], .error (.alreadyExists .tincConf))
    else
      let own := chunk1Steps name force lines
      let peers := hostChunkSteps name own.2
      let steps := openSteps name data ++ own.1 ++ peers.1
      match peers.2 with
      | .error e => (steps, .error e)
      | .ok hosts =>
        if (files .ed25519Private).isSome then (steps, .error (.alreadyExists .ed25519Private))
        else (steps ++ lastSteps name files key, .ok ⟨name, key.pubkeyB64, hosts⟩)

def blobSteps (data : ByteArray) (files : Conf.Files) (force : Bool) (key : NodeKey) :
    List Step × Except CmdError JoinResult :=
  match String.fromUTF8? data with
  | none => ([], .error (.badInput "Invitation data is not valid UTF-8"))
  | some text => joinSteps text.toList files force key

/-- The operation that fails, counted from 0, and how much of its text is written if it got to that. -/
structure Fault where
  index : ℕ
  kept : Option ℕ
deriving DecidableEq

def interrupted (fault : Option Fault) (steps : List Step) : Option (List Step × Step × Option ℕ) :=
  fault.bind fun f => steps[f.index]?.map fun step => (steps.take f.index, step, f.kept)

def opsOf (steps : List Step) : List (Op Path Char) := steps.map Step.op

/-- `finalize_join`, with the directory it leaves. -/
def finalizeJoinIo (data : ByteArray) (files : Conf.Files) (force : Bool) (key : NodeKey) (fault : Option Fault) :
    Except JoinError JoinResult × Conf.Files :=
  let script := blobSteps data files force key
  match interrupted fault script.1 with
  | some (done, step, kept) =>
    (.error (.io step.label), undo (made (opsOf done)) (step.op.cut kept (applyAll files (opsOf done))))
  | none =>
    match script.2 with
    | .ok r => (.ok r, applyAll files (opsOf script.1))
    | .error e => (.error (.cmd e), undo (made (opsOf script.1)) (applyAll files (opsOf script.1)))

/-! ### The operations keep the record -/

section Sound

variable {name cur : Text} {force : Bool} {record : List Path} {lines : List Text}

theorem opsOf_append (a b : List Step) : opsOf (a ++ b) = opsOf a ++ opsOf b := List.map_append

theorem sound_openSteps (name data : Text) : Sound [] (opsOf (openSteps name data)) := by
  simp [openSteps, opsOf, Sound, Op.Sound, Op.made, Step.create, Step.put, Step.writeln]

theorem made_openSteps (name data : Text) :
    made (opsOf (openSteps name data)) = [.tincConf, .host name, .invitationData] := rfl

theorem made_chunk1Steps (name : Text) (force : Bool) (lines : List Text) :
    made (opsOf (chunk1Steps name force lines).1) = [] := by
  induction lines with
  | nil => rfl
  | cons line rest ih =>
    rw [chunk1Steps]
    cases ownLine name force line with
    | skip => exact ih
    | boundary v => rfl
    | var var val => exact ih

theorem sound_chunk1Steps (hconf : Path.tincConf ∈ record) (hhost : Path.host name ∈ record) :
    Sound record (opsOf (chunk1Steps name force lines).1) := by
  induction lines with
  | nil => exact trivial
  | cons line rest ih =>
    rw [chunk1Steps]
    cases ownLine name force line with
    | skip => exact ih
    | boundary v => exact trivial
    | var var val =>
      refine ⟨?_, by simpa [opsOf, Step.writeln, Op.made] using ih⟩
      show (if var.flags.contains .HOST then Path.host name else Path.tincConf) ∈ record
      split_ifs
      · exact hhost
      · exact hconf

theorem hostOpen_ok {v : Text} {step : Step} (h : hostOpen name v = .ok step) : step = .create (.host v) := by
  unfold hostOpen at h
  split_ifs at h
  exact (Except.ok.inj h).symm

/-- What holds of the operations on a host's file, if it does behind its opening. -/
theorem sound_opened {v : Text} {steps : List Step}
    (h : Sound (record ++ [.host v]) (opsOf steps) ∧ ∀ p ∈ made (opsOf steps), ∃ x, p = .host x) :
    Sound record (opsOf (.create (.host v) :: steps)) ∧
      ∀ p ∈ made (opsOf (.create (.host v) :: steps)), ∃ x, p = .host x := by
  refine ⟨⟨trivial, h.1⟩, fun p hp => ?_⟩
  rcases List.mem_cons.1 hp with rfl | hp
  · exact ⟨v, rfl⟩
  · exact h.2 p hp

theorem sound_hostSteps {written : List Text} (hcur : Path.host cur ∈ record) :
    Sound record (opsOf (hostSteps name cur written lines).1) ∧
      ∀ p ∈ made (opsOf (hostSteps name cur written lines).1), ∃ x, p = .host x := by
  induction lines generalizing cur written record with
  | nil => exact ⟨trivial, fun p hp => absurd hp List.not_mem_nil⟩
  | cons line rest ih =>
    rw [hostSteps]
    cases peerLine line with
    | skip => exact ih hcur
    | copy =>
      obtain ⟨hsound, hmade⟩ := @ih cur record written hcur
      exact ⟨⟨hcur, by simpa [opsOf, Step.writeln, Op.made] using hsound⟩, hmade⟩
    | boundary v =>
      dsimp only
      cases hopen : hostOpen name v with
      | error e => exact ⟨trivial, fun p hp => absurd hp List.not_mem_nil⟩
      | ok step =>
        obtain rfl := hostOpen_ok hopen
        exact sound_opened (ih (by simp))

theorem sound_hostChunkSteps (record : List Path) (after : Option (Text × List Text)) :
    Sound record (opsOf (hostChunkSteps name after).1) ∧
      ∀ p ∈ made (opsOf (hostChunkSteps name after).1), ∃ x, p = .host x := by
  cases after with
  | none => exact ⟨trivial, fun p hp => absurd hp List.not_mem_nil⟩
  | some after =>
    obtain ⟨v, lines⟩ := after
    rw [hostChunkSteps]
    cases hopen : hostOpen name v with
    | error e => exact ⟨trivial, fun p hp => absurd hp List.not_mem_nil⟩
    | ok step =>
      obtain rfl := hostOpen_ok hopen
      exact sound_opened (sound_hostSteps (by simp))

theorem sound_lastSteps {files : Conf.Files} {key : NodeKey} (hhost : Path.host name ∈ record)
    (hkey : Path.ed25519Private ∉ record) (hup : Path.tincUp ∉ record) :
    Sound record (opsOf (lastSteps name files key)) := by
  unfold lastSteps
  split_ifs
  · exact ⟨hkey, List.mem_append_left _ hhost, trivial, trivial⟩
  · refine ⟨hkey, List.mem_append_left _ hhost, trivial, ?_, trivial⟩
    simpa [Step.put, Step.writeln, Op.Sound, Op.made] using hup

theorem sound_front (name data : Text) (force : Bool) (lines : List Text) :
    Sound [] (opsOf (openSteps name data ++ (chunk1Steps name force lines).1 ++
      (hostChunkSteps name (chunk1Steps name force lines).2).1)) := by
  rw [opsOf_append, opsOf_append, sound_append, sound_append]
  refine ⟨⟨sound_openSteps name data, ?_⟩, (sound_hostChunkSteps _ _).1⟩
  rw [made_openSteps]
  exact sound_chunk1Steps (by simp) (by simp)

theorem made_front {data p} (hp : p ∈ made (opsOf (openSteps name data ++ (chunk1Steps name force lines).1 ++
    (hostChunkSteps name (chunk1Steps name force lines).2).1))) :
    p = .tincConf ∨ p = .invitationData ∨ ∃ x, p = .host x := by
  rw [opsOf_append, opsOf_append, made_append, made_append, made_openSteps, made_chunk1Steps] at hp
  rcases List.mem_append.1 hp with hp | hp
  · rcases (by simpa using hp : p = .tincConf ∨ p = .host name ∨ p = .invitationData) with rfl | rfl | rfl
    · exact .inl rfl
    · exact .inr (.inr ⟨name, rfl⟩)
    · exact .inr (.inl rfl)
  · exact .inr (.inr ((sound_hostChunkSteps [] _).2 p hp))

theorem sound_joinSteps (data : Text) (files : Conf.Files) (force : Bool) (key : NodeKey) :
    Sound [] (opsOf (joinSteps data files force key).1) := by
  unfold joinSteps
  cases parseBlobHeader (strLines data) with
  | error e => exact trivial
  | ok header =>
    obtain ⟨name, lines⟩ := header
    dsimp only
    have hfront := sound_front name data force lines
    cases (hostChunkSteps name (chunk1Steps name force lines).2).2 with
    | error e =>
      dsimp only
      split_ifs
      · exact trivial
      · exact hfront
    | ok hosts =>
      split_ifs
      · exact trivial
      · exact hfront
      · rw [opsOf_append, sound_append, List.nil_append]
        refine ⟨hfront, sound_lastSteps ?_ ?_ ?_⟩
        · rw [opsOf_append, opsOf_append, made_append, made_append, made_openSteps]
          simp
        · intro hmem
          simpa using made_front hmem
        · intro hmem
          simpa using made_front hmem

end Sound

/-! ### Without a fault this is the join -/

def Disk.after (d : Disk) (steps : List Step) : Disk :=
  ⟨applyAll d.files (opsOf steps), d.created ++ made (opsOf steps)⟩

/-- How the join runs that performs these operations and then ends so. -/
def runOf {α : Type} (script : List Step × Except CmdError α) (d : Disk) : Result CmdError Disk α :=
  match script.2 with
  | .ok a => .ok a (d.after script.1)
  | .error e => .error e (d.after script.1)

section Refines

variable {name cur : Text} {force : Bool} {lines : List Text} {d : Disk}

theorem after_append (d : Disk) (a b : List Step) : d.after (a ++ b) = (d.after a).after b := by
  simp [Disk.after, opsOf_append, applyAll_append, made_append]

theorem after_nil (d : Disk) : d.after [] = d := by
  simp [Disk.after, opsOf, applyAll, made]

theorem after_writeln (d : Disk) (p label : Path) (line : Text) (steps : List Step) :
    d.after (.writeln p label line :: steps) = (d.writeLine p line).after steps := by
  simp [Disk.after, Disk.writeLine, Step.writeln, opsOf, applyAll, made, Op.apply, Op.made]

theorem after_create (d : Disk) (p : Path) (steps : List Step) :
    d.after (.create p :: steps) = (d.create p).after steps := by
  simp [Disk.after, Disk.create, Step.create, opsOf, applyAll, made, Op.apply, Op.made]

theorem after_put (d : Disk) (p : Path) (text : Text) (steps : List Step) :
    d.after (.put p text :: steps) = (d.put p text).after steps := by
  simp [Disk.after, Disk.put, Step.put, opsOf, applyAll, made, Op.apply, Op.made]

theorem after_pass (d : Disk) (label : Option Path) (steps : List Step) :
    d.after (⟨.pass, label⟩ :: steps) = d.after steps := rfl

theorem openFiles_steps (name data : Text) (d : Disk) : openFiles name data d = d.after (openSteps name data) := by
  rw [openSteps, after_pass, after_create, after_writeln, after_create, after_put, after_nil]
  rfl

theorem writeChunk1_steps (name : Text) (force : Bool) (d : Disk) (lines : List Text) :
    writeChunk1 name force d lines =
      (d.after (chunk1Steps name force lines).1, (chunk1Steps name force lines).2) := by
  induction lines generalizing d with
  | nil => rw [writeChunk1, chunk1Steps, after_nil]
  | cons line rest ih =>
    rw [writeChunk1, chunk1Steps]
    cases ownLine name force line with
    | skip => exact ih d
    | boundary v =>
      dsimp only
      rw [after_nil]
    | var var val =>
      dsimp only
      rw [ih, after_writeln]

theorem openHost_steps (name v : Text) (d : Disk) : (openHost name v).run d =
    match hostOpen name v with
    | .error e => .error e d
    | .ok _ => .ok () (d.create (.host v)) := by
  unfold openHost hostOpen
  rw [run_ite, run_ite]
  split_ifs <;> rfl

theorem hostLoop_steps (name cur : Text) (written lines : List Text) (d : Disk) :
    (hostLoop name cur written lines).run d = runOf (hostSteps name cur written lines) d := by
  induction lines generalizing cur written d with
  | nil => rw [hostSteps, runOf, after_nil]; rfl
  | cons line rest ih =>
    rw [hostLoop, hostSteps]
    cases peerLine line with
    | skip => exact ih cur written d
    | copy =>
      have hrest := ih cur written (d.writeLine (.host cur) line)
      refine Eq.trans hrest ?_
      simp only [runOf, after_writeln]
    | boundary v =>
      dsimp only
      rw [run_bind, openHost_steps]
      cases hopen : hostOpen name v with
      | error e => simp only [runOf, after_nil]
      | ok step =>
        obtain rfl := hostOpen_ok hopen
        refine (ih v (written ++ [v]) (d.create (.host v))).trans ?_
        simp only [runOf, after_create]

theorem writeHostChunks_steps (name : Text) (after : Option (Text × List Text)) (d : Disk) :
    (writeHostChunks name after).run d = runOf (hostChunkSteps name after) d := by
  cases after with
  | none => rw [hostChunkSteps, runOf, after_nil]; rfl
  | some after =>
    obtain ⟨v, lines⟩ := after
    rw [writeHostChunks, hostChunkSteps, run_bind, openHost_steps]
    cases hopen : hostOpen name v with
    | error e => simp only [runOf, after_nil]
    | ok step =>
      obtain rfl := hostOpen_ok hopen
      refine (hostLoop_steps name v [v] lines (d.create (.host v))).trans ?_
      simp only [runOf, after_create]

theorem finish_steps (name : Text) (key : NodeKey) {files : Conf.Files} (hup : d.files .tincUp = files .tincUp) :
    finish name key d = d.after (lastSteps name files key) := by
  have hkept : ((d.put .ed25519Private key.privatePem).writeLine (.host name)
      (varLine "Ed25519PublicKey".toList key.pubkeyB64)).files .tincUp = files .tincUp := by
    generalize varLine "Ed25519PublicKey".toList key.pubkeyB64 = line
    simp [Disk.writeLine, Disk.put, hup]
  unfold finish lastSteps
  dsimp only
  rw [hkept, after_append, after_put, after_writeln, after_pass, after_nil]
  split_ifs
  · rw [after_nil]
  · rw [after_put, after_nil]

theorem front_frame {data : Text} {files : Conf.Files} {p : Path} (hconf : p ≠ .tincConf) (hinv : p ≠ .invitationData)
    (hhost : ∀ x, p ≠ .host x) :
    (Disk.after ⟨files, []⟩ (openSteps name data ++ (chunk1Steps name force lines).1 ++
      (hostChunkSteps name (chunk1Steps name force lines).2).1)).files p = files p := by
  refine applyAll_frame (sound_front name data force lines) fun hmem => ?_
  rcases made_front hmem with rfl | rfl | ⟨x, rfl⟩
  · exact hconf rfl
  · exact hinv rfl
  · exact hhost x rfl

theorem finalizeJoinText_steps (data : Text) (files : Conf.Files) (force : Bool) (key : NodeKey) :
    (finalizeJoinText data force key).run ⟨files, []⟩ = runOf (joinSteps data files force key) ⟨files, []⟩ := by
  rw [finalizeJoinText_run, joinSteps]
  cases parseBlobHeader (strLines data) with
  | error e => simp only [runOf, after_nil]
  | ok header =>
    obtain ⟨name, lines⟩ := header
    dsimp only
    by_cases hfresh : (files .tincConf).isSome = true
    · rw [if_pos hfresh, if_pos hfresh]
      simp only [runOf, after_nil]
    · rw [if_neg hfresh, if_neg hfresh, openFiles_steps, writeChunk1_steps, writeHostChunks_steps]
      dsimp only
      have hkey := @front_frame name force lines data files .ed25519Private (by simp) (by simp) (by simp)
      have hup := @front_frame name force lines data files .tincUp (by simp) (by simp) (by simp)
      rw [after_append, after_append] at hkey hup
      cases hhosts : (hostChunkSteps name (chunk1Steps name force lines).2).2 with
      | error e => simp only [runOf, hhosts, after_append]
      | ok hosts =>
        simp only [runOf, hhosts]
        rw [hkey]
        split_ifs
        · simp only [after_append]
        · rw [finish_steps name key hup, after_append, after_append, after_append]

end Refines

/-- Where no operation fails, this is `finalizeJoin`. -/
theorem finalizeJoinIo_none (data : ByteArray) (files : Conf.Files) (force : Bool) (key : NodeKey) :
    finalizeJoinIo data files force key none =
      ((finalizeJoin data files force key).1.mapError .cmd, (finalizeJoin data files force key).2.files) := by
  have hrun : (finalizeJoinInner data force key).run ⟨files, []⟩ = runOf (blobSteps data files force key) ⟨files, []⟩ := by
    unfold finalizeJoinInner blobSteps
    cases String.fromUTF8? data with
    | none =>
      simp only [runOf, after_nil]
      rfl
    | some text => exact finalizeJoinText_steps _ _ _ _
  rw [finalizeJoin, hrun, finalizeJoinIo]
  cases hend : (blobSteps data files force key).2 with
  | ok r | error e =>
    simp only [runOf, hend]
    rfl

/-! ### What a failed join leaves -/

section Failed

variable {data : ByteArray} {files files' : Conf.Files} {force : Bool} {key : NodeKey} {fault : Option Fault}

/-- What a failing run got through, and the operation it failed at: one that does nothing where it gave up itself. -/
def failedAt (data : ByteArray) (files : Conf.Files) (force : Bool) (key : NodeKey) (fault : Option Fault) :
    List (Op Path Char) × Op Path Char × Option ℕ :=
  match interrupted fault (blobSteps data files force key).1 with
  | some (done, step, kept) => (opsOf done, step.op, kept)
  | none => (opsOf (blobSteps data files force key).1, .pass, none)

/-- No recorded file is an old one, and no file is left in the middle of its writing, but one that was already so. -/
structure Undoable (data : ByteArray) (files : Conf.Files) (force : Bool) (key : NodeKey) (fault : Option Fault) :
    Prop where
  fresh : ∀ p ∈ made (failedAt data files force key fault).1, files p = none
  whole : ∀ p text k, (failedAt data files force key fault).2.1 = .put p text →
    (failedAt data files force key fault).2.2 = some k → files p = some (text.take k)

theorem sound_blobSteps (data : ByteArray) (files : Conf.Files) (force : Bool) (key : NodeKey) :
    Sound [] (opsOf (blobSteps data files force key).1) := by
  unfold blobSteps
  cases String.fromUTF8? data with
  | none => exact trivial
  | some text => exact sound_joinSteps _ _ _ _

theorem interrupted_prefix {steps done : List Step} {step : Step} {kept : Option ℕ}
    (h : interrupted fault steps = some (done, step, kept)) : done ++ [step] <+: steps := by
  obtain ⟨f, -, hf⟩ := Option.bind_eq_some_iff.1 h
  obtain ⟨step', hstep, heq⟩ := Option.map_eq_some_iff.1 hf
  obtain ⟨rfl, rfl, -⟩ := by simpa only [Prod.mk.injEq] using heq
  have htake : steps.take (f.index + 1) = steps.take f.index ++ [step'] := by
    rw [List.take_add_one, hstep]
    rfl
  exact htake ▸ List.take_prefix _ _

theorem sound_failedAt (data : ByteArray) (files : Conf.Files) (force : Bool) (key : NodeKey) (fault : Option Fault) :
    Sound [] ((failedAt data files force key fault).1 ++ [(failedAt data files force key fault).2.1]) := by
  have hall := sound_blobSteps data files force key
  unfold failedAt
  cases hint : interrupted fault (blobSteps data files force key).1 with
  | some cut =>
    obtain ⟨done, step, kept⟩ := cut
    obtain ⟨rest, hrest⟩ := interrupted_prefix hint
    rw [← hrest, opsOf_append, sound_append] at hall
    simpa [opsOf] using hall.1
  | none => exact sound_append.2 ⟨hall, trivial, trivial⟩

theorem failed_join_restores_iff {e : JoinError}
    (h : finalizeJoinIo data files force key fault = (.error e, files')) :
    files' = files ↔ Undoable data files force key fault := by
  have hfinal : files' = undo (made (failedAt data files force key fault).1)
      ((failedAt data files force key fault).2.1.cut (failedAt data files force key fault).2.2
        (applyAll files (failedAt data files force key fault).1)) := by
    unfold finalizeJoinIo at h
    unfold failedAt
    cases hint : interrupted fault (blobSteps data files force key).1 with
    | some cut =>
      obtain ⟨done, step, kept⟩ := cut
      simp only [hint] at h
      exact (Prod.mk.inj h).2.symm
    | none =>
      simp only [hint] at h
      cases hend : (blobSteps data files force key).2 with
      | ok r => simp [hend] at h
      | error e =>
        simp only [hend] at h
        exact (Prod.mk.inj h).2.symm
  rw [hfinal, undo_eq_iff (sound_failedAt data files force key fault)]
  exact ⟨fun h => ⟨h.1, h.2⟩, fun h => ⟨h.1, h.2⟩⟩

end Failed

theorem gives_up (s : String) (files : Conf.Files) (key : NodeKey)
    (h : (joinSteps s.toList files false key).2.toOption.isNone = true) : ∃ e,
    finalizeJoinIo s.toUTF8 files false key none =
      (.error e, undo (made (opsOf (joinSteps s.toList files false key).1))
        (applyAll files (opsOf (joinSteps s.toList files false key).1))) := by
  have htext : blobSteps s.toUTF8 files false key = joinSteps s.toList files false key := by
    simp only [blobSteps, fromUTF8_toUTF8]
  cases hend : (joinSteps s.toList files false key).2 with
  | ok r =>
    rw [hend] at h
    cases h
  | error e =>
    refine ⟨.cmd e, ?_⟩
    simp only [finalizeJoinIo, interrupted, Option.bind_none, htext, hend]

def misnamed : String := "Name = alice\nName = !!\n"

theorem failed_join_restores_iff_misnamed : ∃ e files',
    finalizeJoinIo misnamed.toUTF8 (fun _ => none) false aliceKey none = (.error e, files') ∧
      files' = fun _ => none := by
  obtain ⟨e, hrun⟩ := gives_up misnamed (fun _ => none) aliceKey (by decide)
  refine ⟨e, _, hrun, (failed_join_restores_iff hrun).2 ⟨fun p _ => rfl, fun p text k hop => ?_⟩⟩
  simp [failedAt, interrupted] at hop

def misnamedLater : String := "Name = alice\nName = bob\nName = !!\n"

def bobKnown : Conf.Files := fun p => if p = .host "bob".toList then some "Port = 655\n".toList else none

/-- The file of a known host is emptied for its chunk and removed when the next chunk is refused. -/
theorem failed_join_removes_bob : ∃ e files',
    finalizeJoinIo misnamedLater.toUTF8 bobKnown false aliceKey none = (.error e, files') ∧
      bobKnown (.host "bob".toList) = some "Port = 655\n".toList ∧ files' (.host "bob".toList) = none := by
  obtain ⟨e, hrun⟩ := gives_up misnamedLater bobKnown aliceKey (by decide)
  refine ⟨e, _, hrun, by decide, ?_⟩
  have hmade : Path.host "bob".toList ∈ made (opsOf (joinSteps misnamedLater.toList bobKnown false aliceKey).1) := by
    decide
  exact if_pos hmade

end Tincr.Conf

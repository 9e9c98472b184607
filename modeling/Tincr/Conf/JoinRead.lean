import Tincr.Conf.Join

/-!
What the daemon reads from the files that `tinc join` wrote. Every file is a list of lines with a newline
behind each; the lines of `tinc.conf` and of our own host file start with the name of a variable of the
table, so the reader finds that variable and no other. A peer's lines are copied as they came: the filter
looks at the key before the first separator, and so does the reader, unless the line is the first of its
file and starts with a byte-order mark.
-/

namespace Tincr.Conf

open Lines EStateM

def textOf (lines : List Text) : Text := (lines.map (· ++ ['\n'])).flatten

def Holds (P : Text → Prop) (t : Option Text) : Prop := ∃ lines, t = some (textOf lines) ∧ ∀ l ∈ lines, '\n' ∉ l ∧ P l

section Lines

variable {P Q : Text → Prop} {t : Option Text}

theorem Holds.snoc (h : Holds P t) {l : Text} (hline : '\n' ∉ l) (hP : P l) :
    Holds P (t.map fun s => s ++ (l ++ ['\n'])) := by
  obtain ⟨lines, rfl, hlines⟩ := h
  refine ⟨lines ++ [l], by simp [textOf], fun m hm => ?_⟩
  rcases List.mem_append.1 hm with hm | hm
  · exact hlines m hm
  · obtain rfl := List.mem_singleton.1 hm
    exact ⟨hline, hP⟩

theorem Holds.mono (h : Holds P t) (himp : ∀ l, P l → Q l) : Holds Q t := by
  obtain ⟨lines, rfl, hlines⟩ := h
  exact ⟨lines, rfl, fun l hl => ⟨(hlines l hl).1, himp l (hlines l hl).2⟩⟩

theorem splitInclusive_textOf {lines : List Text} (h : ∀ l ∈ lines, '\n' ∉ l) :
    splitInclusive (textOf lines) = lines.map (· ++ ['\n']) :=
  splitInclusive_flatten fun l hl => by
    obtain ⟨body, hbody, rfl⟩ := List.mem_map.1 hl
    exact ⟨body, h body hbody, rfl⟩

/-- An entry comes from a line, and only the first line is read as such. -/
theorem entry_of_textOf {lines : List Text} (h : ∀ l ∈ lines, '\n' ∉ l) {entries : List Entry}
    (hparse : parseFile (textOf lines) = .ok entries) {e : Entry} (he : e ∈ entries) :
    ∃ pre l post inside, lines = pre ++ l :: post ∧
      view pre.isEmpty inside (l ++ ['\n']) = .entry e.varName e.value := by
  rw [parseFile, splitInclusive_textOf h] at hparse
  have hpairs := (readLoop_ok hparse).2
  have hmem : e.pair ∈ scan true false (lines.map (· ++ ['\n'])) := by
    have := List.mem_map_of_mem (f := Entry.pair) he
    rw [hpairs] at this
    exact this
  obtain ⟨pre, l', post, inside, hsplit, hview⟩ := mem_scan hmem
  obtain ⟨pre, rest, rfl, rfl, hrest⟩ := List.map_eq_append_iff.1 hsplit
  obtain ⟨l, post, rfl, rfl, rfl⟩ := List.map_eq_cons_iff.1 hrest
  exact ⟨pre, l, post, inside, rfl, by simpa [Entry.pair] using hview⟩

theorem not_mem_stripNewline {data l : Text} (h : l ∈ strLines data) : '\n' ∉ l := by
  obtain ⟨m, hm, rfl⟩ := List.mem_map.1 h
  unfold stripNewline
  rcases mem_splitInclusive hm with ⟨body, hbody, rfl⟩ | hno
  · have hlast : (body ++ ['\n']).getLast? = some '\n' := by simp
    rw [if_pos hlast, List.dropLast_concat]
    split_ifs
    · exact fun hmem => hbody (List.mem_of_mem_dropLast hmem)
    · exact hbody
  · rw [if_neg fun hlast => hno (List.mem_of_getLast? hlast)]
    exact hno

theorem splitKv_value_suffix (l : Text) : (splitKv l).2 <:+ l := by
  have hrest : (l.dropWhile fun c => !isSeparator c).dropWhile isBlank <:+ l :=
    (List.dropWhile_suffix _).trans (List.dropWhile_suffix _)
  refine (List.dropWhile_suffix _).trans ?_
  split_ifs
  · exact (List.tail_suffix _).trans hrest
  · exact hrest

theorem splitKv_varLine {name : Text} (hname : IsName name) (value : Text) : (splitKv (varLine name value)).1 = name := by
  have hsep : ∀ c ∈ name, (!isSeparator c) = true := fun c hc => by
    rw [isAlphanum_not_separator (hname.alphanum c hc)]
    rfl
  have hblank : isSeparator ' ' = true := rfl
  rw [varLine, splitKv, List.append_assoc, List.takeWhile_append_of_pos hsep]
  simp [hblank]

theorem plain_varLine {name : Text} (hname : IsName name) (value : Text) : Plain (varLine name value ++ ['\n']) := by
  obtain ⟨c, rest, rfl⟩ := List.exists_cons_of_ne_nil hname.ne_nil
  exact plain_of_head (hname.alphanum c List.mem_cons_self)

theorem key_of_varLine {name value k v : Text} {first inPem : Bool} (hname : IsName name)
    (h : view first inPem (varLine name value ++ ['\n']) = .entry k v) : k = name :=
  (entry_key h ((plain_varLine hname value).strip first)).trans (splitKv_varLine hname value)

end Lines

def ConfLine (name l : Text) : Prop := l = varLine "Name".toList name ∨
  ∃ v ∈ VARS, v.flags.contains .SAFE = true ∧ v.flags.contains .HOST = false ∧ ∃ val, l = varLine v.name val

def OwnHostLine (l : Text) : Prop :=
  ∃ v ∈ VARS, v.flags.contains .SAFE = true ∧ v.flags.contains .HOST = true ∧ ∃ val, l = varLine v.name val

/-- Where the first chunk ends: the name of the next and the lines behind. -/
def afterChunk1 (name : Text) : List Text → Option (Text × List Text)
  | [] => none
  | line :: rest =>
    match ownLine name false line with
    | .boundary v => some (v, rest)
    | _ => afterChunk1 name rest

variable {r : JoinResult} {val : Text} {data : ByteArray} {files : Files} {key : NodeKey}

theorem ownLine_value {name line : Text} {force : Bool} {v : Var} (h : ownLine name force line = .var v val) :
    v ∈ VARS ∧ (v.flags.contains .SAFE || force) = true ∧ val = (splitKv line).2 := by
  unfold ownLine at h
  split_ifs at h
  split at h
  · cases h
  · next key val' hsplit =>
    split_ifs at h
    split at h
    · cases h
    · next var hvar =>
      split_ifs at h with hsafe
      obtain ⟨rfl, rfl⟩ := OwnLine.var.inj h
      unfold splitVar at hsplit
      split_ifs at hsplit
      have hval : (splitKv line).2 = val' := congrArg Prod.snd (Option.some.inj hsplit)
      exact ⟨List.mem_of_find?_eq_some hvar, hsafe, hval.symm⟩

theorem ownLine_var {name line : Text} {v : Var} (h : ownLine name false line = .var v val) :
    v ∈ VARS ∧ v.flags.contains .SAFE = true ∧ val <:+ line := by
  obtain ⟨hv, hsafe, rfl⟩ := ownLine_value h
  exact ⟨hv, by simpa using hsafe, splitKv_value_suffix line⟩

theorem not_mem_varLine {name value : Text} (hname : IsName name) (hvalue : '\n' ∉ value) :
    '\n' ∉ varLine name value := by
  have hno : '\n' ∉ name := fun hmem => by simpa using hname.alphanum _ hmem
  simp [varLine, hno, hvalue]

structure OwnWritten (name : Text) (d d' : Disk) : Prop where
  conf : Holds (ConfLine name) (d'.files .tincConf)
  own : Holds OwnHostLine (d'.files (.host name))
  other : ∀ p, p ≠ .tincConf → p ≠ .host name → d'.files p = d.files p
  created : d'.created = d.created

theorem OwnWritten.writeLine {name : Text} {d d' : Disk} {v : Var} (h : OwnWritten name d d') (hv : v ∈ VARS)
    (hsafe : v.flags.contains .SAFE = true) (hval : '\n' ∉ val) :
    OwnWritten name d (d'.writeLine (if v.flags.contains .HOST then .host name else .tincConf) (varLine v.name val)) := by
  have hline := not_mem_varLine (isName_of_mem_vars hv) hval
  cases hhost : v.flags.contains .HOST with
  | true =>
    refine ⟨by simpa [Disk.writeLine] using h.conf, ?_, fun p hp hq => ?_, h.created⟩
    · simpa [Disk.writeLine] using h.own.snoc hline ⟨v, hv, hsafe, hhost, val, rfl⟩
    · simpa [Disk.writeLine, hq] using h.other p hp hq
  | false =>
    refine ⟨?_, by simpa [Disk.writeLine] using h.own, fun p hp hq => ?_, h.created⟩
    · simpa [Disk.writeLine] using h.conf.snoc hline (.inr ⟨v, hv, hsafe, hhost, val, rfl⟩)
    · simpa [Disk.writeLine, hp] using h.other p hp hq

theorem writeChunk1_written {name : Text} {d d' : Disk} {lines : List Text} (h : OwnWritten name d d')
    (hlines : ∀ l ∈ lines, '\n' ∉ l) :
    OwnWritten name d (writeChunk1 name false d' lines).1 ∧
      (writeChunk1 name false d' lines).2 = afterChunk1 name lines := by
  induction lines generalizing d' with
  | nil => exact ⟨h, rfl⟩
  | cons l rest ih =>
    have hrest : ∀ m ∈ rest, '\n' ∉ m := fun m hm => hlines m (List.mem_cons_of_mem _ hm)
    rw [writeChunk1, afterChunk1]
    cases hl : ownLine name false l with
    | skip => exact ih h hrest
    | boundary v => exact ⟨h, rfl⟩
    | var v val =>
      obtain ⟨hv, hsafe, hval⟩ := ownLine_var hl
      exact ih (h.writeLine hv hsafe fun hmem => hlines l List.mem_cons_self (hval.subset hmem)) hrest

theorem afterChunk1_subset {name v : Text} {lines rest : List Text} (h : afterChunk1 name lines = some (v, rest)) :
    rest ⊆ lines := by
  induction lines with
  | nil => cases h
  | cons l tail ih =>
    rw [afterChunk1] at h
    split at h
    · obtain ⟨-, rfl⟩ := Prod.mk.inj (Option.some.inj h)
      exact List.subset_cons_self _ _
    · exact fun x hx => List.mem_cons_of_mem _ (ih h hx)

/-- The later chunks: each with the name of its host and the lines copied from it. -/
def hostBlocks (cur : Text) (body : List Text) : List Text → List (Text × List Text)
  | [] => [(cur, body)]
  | line :: rest =>
    match peerLine line with
    | .skip => hostBlocks cur body rest
    | .boundary v => (cur, body) :: hostBlocks v [] rest
    | .copy => hostBlocks cur (body ++ [line]) rest

def blocksOf : Option (Text × List Text) → List (Text × List Text)
  | none => []
  | some (v, lines) => hostBlocks v [] lines

/-- A host may have several chunks: the last one stays. -/
def lastBlock (name : Text) : List (Text × List Text) → Option (List Text)
  | [] => none
  | b :: rest => (lastBlock name rest).or (if b.1 = name then some b.2 else none)

/-- What copying `blocks` into the files of `opened` leaves in the directory. -/
structure PeersWritten (name : Text) (blocks : List (Text × List Text)) (opened : List Text) (d d' : Disk) : Prop where
  files : ∀ x, d'.files (.host x) = ((lastBlock x blocks).map textOf).or (d.files (.host x))
  other : ∀ p, (∀ x, p ≠ .host x) → d'.files p = d.files p
  created : d'.created = d.created ++ opened.map Path.host
  names : ∀ x ∈ opened, checkId x = true ∧ eqIgnoreAsciiCase x name = false

section Blocks

variable {name cur v : Text} {body written w : List Text} {lines : List Text} {d d' : Disk}

theorem openHost_run (h : (openHost name v).run d = .ok () d') :
    checkId v = true ∧ eqIgnoreAsciiCase v name = false ∧ d' = d.create (.host v) := by
  unfold openHost at h
  rw [run_ite, run_ite] at h
  split_ifs at h with hid hown
  · exact absurd h (by simp [throw, throwThe, MonadExceptOf.throw, EStateM.throw, EStateM.run])
  · exact absurd h (by simp [throw, throwThe, MonadExceptOf.throw, EStateM.throw, EStateM.run])
  · obtain ⟨-, rfl⟩ := Result.ok.inj h
    exact ⟨by simpa using hid, by simpa using hown, rfl⟩

theorem lastBlock_hostBlocks (cur : Text) (body lines : List Text) : (lastBlock cur (hostBlocks cur body lines)).isSome := by
  induction lines generalizing body with
  | nil => simp [hostBlocks, lastBlock]
  | cons l rest ih =>
    rw [hostBlocks]
    cases peerLine l with
    | skip => exact ih body
    | boundary v => simp [lastBlock]
    | copy => exact ih (body ++ [l])

variable {blocks : List (Text × List Text)} {x : Text}

theorem PeersWritten.skip_write {opened : List Text} {l : Text}
    (h : PeersWritten name blocks opened (d.writeLine (.host cur) l) d') (hcur : (lastBlock cur blocks).isSome) :
    PeersWritten name blocks opened d d' := by
  refine ⟨fun x => ?_, fun p hp => ?_, h.created, h.names⟩
  · rw [h.files x]
    by_cases hx : x = cur
    · obtain ⟨b, hb⟩ := Option.isSome_iff_exists.1 hcur
      simp [hx, hb]
    · simp [Disk.writeLine, hx]
  · rw [h.other p hp]
    simp [Disk.writeLine, hp cur]

theorem PeersWritten.after_open {opened : List Text} (h : PeersWritten name blocks opened (d.create (.host v)) d')
    (hv : (lastBlock v blocks).isSome) (hid : checkId v = true) (hown : eqIgnoreAsciiCase v name = false) :
    PeersWritten name blocks (v :: opened) d d' := by
  refine ⟨fun x => ?_, fun p hp => ?_, ?_, ?_⟩
  · rw [h.files x]
    by_cases hx : x = v
    · obtain ⟨b, hb⟩ := Option.isSome_iff_exists.1 hv
      simp [hx, hb]
    · simp [Disk.create, hx]
  · rw [h.other p hp]
    simp [Disk.create, hp v]
  · rw [h.created]
    simp [Disk.create]
  · simpa using ⟨⟨hid, hown⟩, h.names⟩

theorem PeersWritten.cons {blocks : List (Text × List Text)} {opened : List Text}
    (h : PeersWritten name blocks opened d d') (hcur : d.files (.host cur) = some (textOf body)) :
    PeersWritten name ((cur, body) :: blocks) opened d d' := by
  refine ⟨fun x => ?_, h.other, h.created, h.names⟩
  rw [h.files x, lastBlock]
  cases lastBlock x blocks with
  | some b => rfl
  | none =>
    by_cases hx : cur = x
    · simp [hx, ← hcur]
    · simp [hx]

theorem hostLoop_run (hcur : d.files (.host cur) = some (textOf body))
    (h : (hostLoop name cur written lines).run d = .ok w d') :
    ∃ opened, (hostBlocks cur body lines).map Prod.fst = cur :: opened ∧ w = written ++ opened ∧
      PeersWritten name (hostBlocks cur body lines) opened d d' := by
  induction lines generalizing cur body written d with
  | nil =>
    obtain ⟨rfl, rfl⟩ := Result.ok.inj h
    refine ⟨[], rfl, by simp, fun x => ?_, fun _ _ => rfl, by simp, by simp⟩
    by_cases hx : cur = x
    · simp [hostBlocks, lastBlock, hx, ← hcur]
    · simp [hostBlocks, lastBlock, hx]
  | cons l rest ih =>
    rw [hostLoop] at h
    rw [hostBlocks]
    cases hl : peerLine l with
    | skip =>
      rw [hl] at h
      exact ih hcur h
    | copy =>
      rw [hl] at h
      have hcur' : (d.writeLine (.host cur) l).files (.host cur) = some (textOf (body ++ [l])) := by
        simp [Disk.writeLine, hcur, textOf]
      obtain ⟨opened, hnames, hw, hpeers⟩ := ih hcur' h
      exact ⟨opened, hnames, hw, hpeers.skip_write (lastBlock_hostBlocks _ _ _)⟩
    | boundary v =>
      rw [hl] at h
      dsimp only at h
      rw [run_bind] at h
      cases hopen : (openHost name v).run d with
      | error e d₁ =>
        rw [hopen] at h
        cases h
      | ok u d₁ =>
        rw [hopen] at h
        obtain ⟨hid, hown, rfl⟩ := openHost_run hopen
        have hv : (d.create (.host v)).files (.host v) = some (textOf []) := by simp [Disk.create, textOf]
        obtain ⟨opened, hnames, hw, hpeers⟩ := ih hv h
        refine ⟨v :: opened, by simp [hnames], by simp [hw], ?_⟩
        exact (hpeers.after_open (lastBlock_hostBlocks _ _ _) hid hown).cons hcur

theorem writeHostChunks_run {after : Option (Text × List Text)}
    (h : (writeHostChunks name after).run d = .ok w d') :
    (blocksOf after).map Prod.fst = w ∧ PeersWritten name (blocksOf after) w d d' := by
  cases after with
  | none =>
    obtain ⟨rfl, rfl⟩ := Result.ok.inj h
    exact ⟨rfl, fun x => rfl, fun _ _ => rfl, by simp, by simp⟩
  | some after =>
    obtain ⟨v, lines⟩ := after
    rw [writeHostChunks, run_bind] at h
    cases hopen : (openHost name v).run d with
    | error e d₁ =>
      rw [hopen] at h
      cases h
    | ok u d₁ =>
      rw [hopen] at h
      obtain ⟨hid, hown, rfl⟩ := openHost_run hopen
      have hv : (d.create (.host v)).files (.host v) = some (textOf []) := by simp [Disk.create, textOf]
      obtain ⟨opened, hnames, rfl, hpeers⟩ := hostLoop_run hv h
      exact ⟨hnames, hpeers.after_open (lastBlock_hostBlocks _ _ _) hid hown⟩

theorem mem_hostBlocks {P : Text → Prop} (hbody : ∀ l ∈ body, P l) (hlines : ∀ l ∈ lines, peerLine l = .copy → P l) :
    ∀ b ∈ hostBlocks cur body lines, ∀ l ∈ b.2, P l := by
  induction lines generalizing cur body with
  | nil => simpa [hostBlocks] using hbody
  | cons m rest ih =>
    have hrest : ∀ l ∈ rest, peerLine l = .copy → P l := fun l hl => hlines l (List.mem_cons_of_mem _ hl)
    rw [hostBlocks]
    cases hm : peerLine m with
    | skip => exact ih hbody hrest
    | boundary v =>
      intro b hb
      rcases List.mem_cons.1 hb with rfl | hb
      · exact hbody
      · exact ih (by simp) hrest b hb
    | copy =>
      refine ih (fun l hl => ?_) hrest
      rcases List.mem_append.1 hl with hl | hl
      · exact hbody l hl
      · obtain rfl := List.mem_singleton.1 hl
        exact hlines l List.mem_cons_self hm

theorem lastBlock_mem (h : lastBlock x blocks = some body) : (x, body) ∈ blocks := by
  induction blocks with
  | nil => cases h
  | cons b rest ih =>
    rw [lastBlock] at h
    cases hrest : lastBlock x rest with
    | some b' =>
      rw [hrest] at h ih
      exact List.mem_cons_of_mem _ (ih h)
    | none =>
      rw [hrest, Option.none_or] at h
      split_ifs at h with hx
      obtain rfl := Option.some.inj h
      exact List.mem_cons.2 (.inl (by rw [← hx]))

theorem lastBlock_isSome (h : x ∈ blocks.map Prod.fst) : (lastBlock x blocks).isSome := by
  induction blocks with
  | nil => cases h
  | cons b rest ih =>
    rw [lastBlock, Option.isSome_or]
    rcases List.mem_cons.1 h with rfl | h
    · simp
    · simp [ih h]

theorem lastBlock_eq_none (h : x ∉ blocks.map Prod.fst) : lastBlock x blocks = none := by
  cases hlast : lastBlock x blocks with
  | none => rfl
  | some body => exact absurd (List.mem_map.2 ⟨_, lastBlock_mem hlast, rfl⟩) h

end Blocks

def textBlocks (text : Text) : List (Text × List Text) :=
  match parseBlobHeader (strLines text) with
  | .error _ => []
  | .ok (name, lines) => blocksOf (afterChunk1 name lines)

def peerBlocks (data : ByteArray) : List (Text × List Text) :=
  match String.fromUTF8? data with
  | none => []
  | some text => textBlocks text.toList

structure Stages (data : ByteArray) (files : Files) (key : NodeKey) (r : JoinResult) (d' : Disk) where
  text : String
  lines : List Text
  own : Disk
  peers : Disk
  utf8 : String.fromUTF8? data = some text
  header : parseBlobHeader (strLines text.toList) = .ok (r.name, lines)
  own_eq : own = (writeChunk1 r.name false (openFiles r.name text.toList ⟨files, []⟩) lines).1
  peers_run : (writeHostChunks r.name
    (writeChunk1 r.name false (openFiles r.name text.toList ⟨files, []⟩) lines).2).run own = .ok r.hostsWritten peers
  last_eq : ∃ up : Bool, d' = (fun d : Disk => if up then d.put .tincUp tincUpPlaceholder else d)
    ((peers.put .ed25519Private key.privatePem).writeLine (.host r.name)
      (varLine "Ed25519PublicKey".toList key.pubkeyB64))
  pubkey : r.pubkeyB64 = key.pubkeyB64

theorem ensureFreshConfbase_run (d : Disk) : ensureFreshConfbase.run d =
    if (d.files .tincConf).isSome then .error (.alreadyExists .tincConf) d else .ok () d := by
  unfold ensureFreshConfbase
  rw [run_bind, run_get]
  dsimp only
  split_ifs <;> rfl

theorem generateNodeKey_run (name : Text) (key : NodeKey) (d : Disk) : (generateNodeKey name key).run d =
    if (d.files .ed25519Private).isSome then .error (.alreadyExists .ed25519Private) d
    else .ok () ((d.put .ed25519Private key.privatePem).writeLine (.host name)
      (varLine "Ed25519PublicKey".toList key.pubkeyB64)) := by
  unfold generateNodeKey
  rw [run_bind, run_get]
  dsimp only
  split_ifs <;> rfl

def finish (name : Text) (key : NodeKey) (d : Disk) : Disk :=
  let d := (d.put .ed25519Private key.privatePem).writeLine (.host name)
    (varLine "Ed25519PublicKey".toList key.pubkeyB64)
  if (d.files .tincUp).isSome then d else d.put .tincUp tincUpPlaceholder

theorem finalizeJoinText_run (data : Text) (force : Bool) (key : NodeKey) (d : Disk) :
    (finalizeJoinText data force key).run d =
      match parseBlobHeader (strLines data) with
      | .error e => .error e d
      | .ok (name, lines) =>
        if (d.files .tincConf).isSome then .error (.alreadyExists .tincConf) d
        else
          match (writeHostChunks name (writeChunk1 name force (openFiles name data d) lines).2).run
            (writeChunk1 name force (openFiles name data d) lines).1 with
          | .error e d => .error e d
          | .ok hosts d =>
            if (d.files .ed25519Private).isSome then .error (.alreadyExists .ed25519Private) d
            else .ok ⟨name, key.pubkeyB64, hosts⟩ (finish name key d) := by
  unfold finalizeJoinText
  cases parseBlobHeader (strLines data) with
  | error e => rfl
  | ok header =>
    obtain ⟨name, lines⟩ := header
    dsimp only
    rw [run_bind, ensureFreshConfbase_run]
    split_ifs with hfresh
    · rfl
    · dsimp only
      rw [run_bind, run_modify]
      dsimp only
      rw [run_bind, run_get]
      dsimp only
      rw [run_bind, run_set]
      dsimp only
      rw [run_bind]
      cases (writeHostChunks name (writeChunk1 name force (openFiles name data d) lines).2).run
          (writeChunk1 name force (openFiles name data d) lines).1 with
      | error e d => rfl
      | ok hosts d =>
        dsimp only
        rw [run_bind, generateNodeKey_run]
        split_ifs <;> rfl

structure Finished (data : ByteArray) (files : Files) (force : Bool) (key : NodeKey) (r : JoinResult) (d' : Disk) where
  text : String
  lines : List Text
  peers : Disk
  utf8 : String.fromUTF8? data = some text
  header : parseBlobHeader (strLines text.toList) = .ok (r.name, lines)
  fresh : files .tincConf = none
  peers_run : (writeHostChunks r.name
    (writeChunk1 r.name force (openFiles r.name text.toList ⟨files, []⟩) lines).2).run
      (writeChunk1 r.name force (openFiles r.name text.toList ⟨files, []⟩) lines).1 = .ok r.hostsWritten peers
  new_key : peers.files .ed25519Private = none
  last_eq : d' = finish r.name key peers
  pubkey : r.pubkeyB64 = key.pubkeyB64

theorem finished_of_run {force : Bool} {d' : Disk} (h : finalizeJoin data files force key = (.ok r, d')) :
    Nonempty (Finished data files force key r d') := by
  unfold finalizeJoin at h
  split at h
  case h_2 => simp at h
  case h_1 r₁ d₁ hrun =>
    obtain ⟨hr, rfl⟩ := Prod.mk.inj h
    obtain rfl := Except.ok.inj hr
    unfold finalizeJoinInner at hrun
    split at hrun
    · cases hrun
    · next text htext =>
      rw [finalizeJoinText_run] at hrun
      split at hrun
      · cases hrun
      · next name lines hheader =>
        by_cases hfresh : (files .tincConf).isSome = true
        · rw [if_pos hfresh] at hrun
          cases hrun
        · rw [if_neg hfresh] at hrun
          split at hrun
          · cases hrun
          · next hosts d₂ hpeers =>
            split_ifs at hrun with hkey
            obtain ⟨rfl, rfl⟩ := Result.ok.inj hrun
            exact ⟨⟨text, lines, d₂, htext, hheader, by simpa using hfresh, hpeers, by simpa using hkey, rfl, rfl⟩⟩

theorem stages_of_run {d' : Disk} (h : finalizeJoin data files false key = (.ok r, d')) :
    Nonempty (Stages data files key r d') := by
  obtain ⟨⟨text, lines, peers, hutf8, hheader, _, hrun, _, rfl, hpubkey⟩⟩ := finished_of_run h
  refine ⟨⟨text, lines, _, peers, hutf8, hheader, rfl, hrun, ?_, hpubkey⟩⟩
  unfold finish
  generalize (peers.put .ed25519Private key.privatePem).writeLine _ _ = d₃
  dsimp only
  exact ⟨!(d₃.files .tincUp).isSome, by cases (d₃.files .tincUp).isSome <;> rfl⟩

theorem header_name {lines rest : List Text} {name : Text} (h : parseBlobHeader lines = .ok (name, rest)) :
    checkId name = true ∧ rest ⊆ lines := by
  cases lines with
  | nil => cases h
  | cons first lines =>
    rw [parseBlobHeader] at h
    split at h
    · cases h
    · split_ifs at h with hid
      obtain ⟨rfl, rfl⟩ := Prod.mk.inj (Except.ok.inj h)
      exact ⟨hid, List.subset_cons_self _ _⟩

structure Joined (data : ByteArray) (files : Files) (r : JoinResult) (d' : Disk) : Prop where
  name : checkId r.name = true
  conf : Holds (ConfLine r.name) (d'.files .tincConf)
  own : Holds (fun l => OwnHostLine l ∨ l = varLine "Ed25519PublicKey".toList r.pubkeyB64) (d'.files (.host r.name))
  hosts : (peerBlocks data).map Prod.fst = r.hostsWritten
  peers : ∀ x body, lastBlock x (peerBlocks data) = some body → d'.files (.host x) = some (textOf body)
  copied : ∀ b ∈ peerBlocks data, ∀ l ∈ b.2, '\n' ∉ l ∧ peerLine l = .copy
  created : ∀ x, .host x ∈ d'.created → checkId x = true
  untouched : ∀ p, p ∉ d'.created → d'.files p = files p
  pubkey : ValueOk r.pubkeyB64

theorem valueOk_of_all {p : Char → Bool} (hp : (p '\n' || p '\r' || p '\t' || p ' ') = false) {value : Text}
    (hne : value ≠ []) (h : ∀ c ∈ value, p c = true) : ValueOk value := by
  simp only [Bool.or_eq_false_iff] at hp
  have hblank : ∀ c ∈ value, isBlank c = false := by
    intro c hc
    simp only [isBlank, Bool.or_eq_false_iff, beq_eq_false_iff_ne]
    constructor
    · rintro rfl
      simp [h _ hc] at hp
    · rintro rfl
      simp [h _ hc] at hp
  refine ⟨hne, fun c hc => ⟨?_, ?_⟩, fun c hc => hblank c (List.mem_of_mem_head? hc),
    fun c hc => hblank c (List.mem_of_getLast? hc)⟩
  · rintro rfl
    simp [h _ hc] at hp
  · rintro rfl
    simp [h _ hc] at hp

theorem valueOk_of_checkId {name : Text} (h : checkId name = true) : ValueOk name := by
  simp only [checkId, Bool.and_eq_true, Bool.not_eq_true', List.isEmpty_eq_false_iff, List.all_eq_true] at h
  exact valueOk_of_all (by decide) h.1 h.2

theorem not_mem_of_checkId {name : Text} (h : checkId name = true) : '\n' ∉ name := by
  exact fun hmem => ((valueOk_of_checkId h).no_break _ hmem).1 rfl

theorem isName_Name : IsName "Name".toList := isName_of_all (by decide)

theorem openFiles_written {name : Text} (h : checkId name = true) (text : Text) (files : Files) :
    OwnWritten name (openFiles name text ⟨files, []⟩) (openFiles name text ⟨files, []⟩) := by
  refine ⟨?_, ?_, fun _ _ _ => rfl, rfl⟩
  · refine ⟨[varLine "Name".toList name], by simp [openFiles, Disk.create, Disk.writeLine, Disk.put, textOf], ?_⟩
    intro l hl
    obtain rfl := List.mem_singleton.1 hl
    exact ⟨not_mem_varLine isName_Name (not_mem_of_checkId h), .inl rfl⟩
  · exact ⟨[], by simp [openFiles, Disk.create, Disk.writeLine, Disk.put, textOf], by simp⟩

theorem joined_of_run {d' : Disk} (h : finalizeJoin data files false key = (.ok r, d')) :
    Joined data files r d' := by
  obtain ⟨⟨text, lines, own, peers, hutf8, hheader, hownEq, hrun, ⟨up, hlast⟩, hpubkey⟩⟩ := stages_of_run h
  obtain ⟨hid, hsub⟩ := header_name hheader
  have hlines : ∀ l ∈ lines, '\n' ∉ l := fun l hl => not_mem_stripNewline (hsub hl)
  obtain ⟨hown, hafter⟩ := writeChunk1_written (openFiles_written hid text.toList files) hlines
  have hblocks : peerBlocks data = blocksOf (afterChunk1 r.name lines) := by
    simp only [peerBlocks, textBlocks, hutf8, hheader]
  rw [hafter] at hrun
  rw [← hownEq] at hown
  obtain ⟨hnames, hpeers⟩ := writeHostChunks_run hrun
  rw [← hblocks] at hnames hpeers
  have hself : ∀ x ∈ r.hostsWritten, x ≠ r.name := by
    rintro x hx rfl
    simpa [eqIgnoreAsciiCase] using (hpeers.names _ hx).2
  have hcreated : d'.created = [.tincConf, .host r.name, .invitationData] ++ r.hostsWritten.map Path.host ++
      [.ed25519Private] ++ if up then [.tincUp] else [] := by
    rw [hlast]
    cases up <;> simp [Disk.put, Disk.writeLine, hpeers.created, hown.created, openFiles, Disk.create]
  have hfile : ∀ p, p ≠ .host r.name → p ≠ .ed25519Private → (up = true → p ≠ .tincUp) →
      d'.files p = peers.files p := by
    intro p hname hpriv hup
    rw [hlast]
    cases up
    · simp [Disk.put, Disk.writeLine, hname, hpriv]
    · simp [Disk.put, Disk.writeLine, hname, hpriv, hup rfl]
  have hnone : peers.files (.host r.name) = own.files (.host r.name) := by
    rw [hpeers.files, lastBlock_eq_none fun hmem => hself _ (hnames ▸ hmem) rfl]
    rfl
  have hvalue : ValueOk r.pubkeyB64 := hpubkey ▸ valueOk_of_all (by decide) key.ne_nil key.alphabet
  refine ⟨hid, ?_, ?_, hnames, fun x body hx => ?_, ?_, fun x hx => ?_, fun p hp => ?_, hvalue⟩
  · rw [hfile _ (by simp) (by simp) (by simp), hpeers.other _ (by simp)]
    exact hown.conf
  · have hkey : '\n' ∉ varLine "Ed25519PublicKey".toList r.pubkeyB64 := by
      exact not_mem_varLine (isName_of_all (by decide)) fun hmem => (hvalue.no_break _ hmem).1 rfl
    have hlines := (hown.own.mono (Q := fun l => OwnHostLine l ∨ l = varLine "Ed25519PublicKey".toList r.pubkeyB64)
      fun l hl => .inl hl).snoc hkey (.inr rfl)
    rw [← hnone, hpubkey] at hlines
    rw [hlast, hpubkey]
    cases up <;> simpa [Disk.put, Disk.writeLine] using hlines
  · have hmem : x ∈ r.hostsWritten := hnames ▸ List.mem_map.2 ⟨_, lastBlock_mem hx, rfl⟩
    rw [hfile _ (by simpa using hself x hmem) (by simp) (by simp), hpeers.files, hx]
    rfl
  · rw [hblocks]
    cases hsome : afterChunk1 r.name lines with
    | none => simp [blocksOf]
    | some after =>
      obtain ⟨v, rest⟩ := after
      exact mem_hostBlocks (by simp) fun l hl hcopy => ⟨hlines l (afterChunk1_subset hsome hl), hcopy⟩
  · rw [hcreated] at hx
    have hcases : x = r.name ∨ x ∈ r.hostsWritten := by
      cases up <;> simpa using hx
    rcases hcases with rfl | hx
    · exact hid
    · exact (hpeers.names x hx).1
  · rw [hcreated] at hp
    simp only [List.mem_append, List.mem_cons, List.not_mem_nil, or_false, not_or] at hp
    obtain ⟨⟨⟨⟨hconf, hhost, hdata⟩, hhosts⟩, hpriv⟩, hup⟩ := hp
    rw [hfile p hhost hpriv (by rintro rfl rfl; simp at hup)]
    have hkept : peers.files p = own.files p := by
      cases p with
      | host x =>
        have hx : x ∉ (peerBlocks data).map Prod.fst := fun hmem => hhosts (List.mem_map_of_mem (hnames ▸ hmem))
        rw [hpeers.files, lastBlock_eq_none hx]
        rfl
      | _ => exact hpeers.other _ (by simp)
    rw [hkept, hown.other p hconf hhost]
    simp [openFiles, Disk.create, Disk.writeLine, Disk.put, hconf, hhost, hdata]

/-- What the daemon reads from the new directory; a file that the reader refuses has no entries. -/
structure Harmless (files : Files) (r : JoinResult) (d' : Disk) : Prop where
  tincConf : ∀ text entries, d'.files .tincConf = some text → parseFile text = .ok entries → ∀ e ∈ entries,
    e.pair = ("Name".toList, r.name) ∨
      ∃ v ∈ VARS, v.name = e.varName ∧ v.flags.contains .SAFE = true ∧ v.flags.contains .HOST = false
  ownHost : ∀ text entries, d'.files (.host r.name) = some text → parseFile text = .ok entries → ∀ e ∈ entries,
    (∃ v ∈ VARS, v.name = e.varName ∧ v.flags.contains .SAFE = true ∧ v.flags.contains .HOST = true) ∨
      e.pair = ("Ed25519PublicKey".toList, r.pubkeyB64)
  peers : ∀ x ∈ r.hostsWritten, ∀ text entries, d'.files (.host x) = some text → parseFile text = .ok entries →
    ∀ e ∈ entries, droppedKey e.varName = false
  created : ∀ x, .host x ∈ d'.created → checkId x = true
  untouched : ∀ p, p ∉ d'.created → d'.files p = files p

/-- The chunk's file is accepted, and its first line hides a dropped key behind a byte-order mark. -/
def HidesKey (body : List Text) : Prop :=
  (∃ l rest, body = ('\uFEFF' :: l) :: rest ∧ droppedKey (splitKv l).1 = true) ∧
    ∃ entries, parseFile (textOf body) = .ok entries

section Entries

variable {first inPem : Bool} {name value l k v : Text}

theorem pair_of_varLine (hname : IsName name) (hvalue : ValueOk value)
    (h : view first inPem (varLine name value ++ ['\n']) = .entry k v) : (k, v) = (name, value) := by
  have hview := @view_newLine ⟨.set, name, value, false⟩ hname hvalue first inPem
  rw [show Intent.newLine ⟨.set, name, value, false⟩ = varLine name value ++ ['\n'] from rfl, h] at hview
  split_ifs at hview
  obtain ⟨rfl, rfl⟩ := View.entry.inj hview
  rfl

theorem view_bom (inPem : Bool) (l : Text) : view true inPem ('\uFEFF' :: l) = view false inPem l := by
  have hstrip : stripBom true ('\uFEFF' :: l) = stripBom false l := by simp [stripBom]
  rw [view_eq, view_eq, trimmed, trimmed, hstrip]

theorem key_of_copied (h : peerLine l = .copy) : droppedKey (splitKv l).1 = false := by
  unfold peerLine splitVar at h
  split_ifs at h with hsep hnil
  · rw [hnil]
    decide
  · dsimp only at h
    split_ifs at h with hname hdrop
    simpa using hdrop

theorem isName_of_dropped {d : Text} (h : d ∈ CHUNK2_DROP_KEYS) : IsName d := by
  have hall : (CHUNK2_DROP_KEYS.all fun d => !d.isEmpty && d.all Char.isAlphanum &&
      (asciiFold d).all Char.isAlphanum) = true := by decide +kernel
  exact isName_of_all (List.all_eq_true.1 hall d h)

/-- A dropped key in an entry stands in plain sight or behind the mark of the first line. -/
theorem dropped_entry (hview : view first inPem (l ++ ['\n']) = .entry k v) (hcopy : peerLine l = .copy)
    (hdrop : droppedKey k = true) : first = true ∧ ∃ m, l = '\uFEFF' :: m ∧ droppedKey (splitKv m).1 = true := by
  by_cases hbom : first = true ∧ (l ++ ['\n']).head? = some '\uFEFF'
  · obtain ⟨rfl, hhead⟩ := hbom
    cases l with
    | nil => simp at hhead
    | cons c m =>
      obtain rfl : c = '\uFEFF' := by simpa using hhead
      refine ⟨rfl, m, rfl, ?_⟩
      rw [List.cons_append, view_bom] at hview
      rwa [← entry_key hview (by simp [stripBom])]
  · have hkey := entry_key hview (by rw [stripBom, if_neg hbom])
    rw [hkey, key_of_copied hcopy] at hdrop
    cases hdrop

end Entries

theorem hidden_entry {body : List Text} (hno : ∀ l ∈ body, '\n' ∉ l) (h : HidesKey body) :
    ∃ entries, parseFile (textOf body) = .ok entries ∧ ∃ e ∈ entries, droppedKey e.varName = true := by
  obtain ⟨⟨l, rest, rfl, hdrop⟩, entries, hparse⟩ := h
  refine ⟨entries, hparse, ?_⟩
  rw [parseFile, splitInclusive_textOf hno] at hparse
  obtain ⟨hfine, hpairs⟩ := readLoop_ok hparse
  obtain ⟨d, hd, hkey⟩ := List.any_eq_true.1 hdrop
  obtain ⟨c, m, rfl, hc⟩ := head_of_key (isName_of_dropped hd) hkey
  have hplain : Plain (c :: m ++ ['\n']) := plain_of_head hc
  have hview : (view false false (c :: m ++ ['\n'])).Fine := by
    rw [← view_bom]
    exact hfine.1
  have hentry : ∃ k v, view false false (c :: m ++ ['\n']) = .entry k v := by
    rw [hplain.view_eq] at hview ⊢
    simp only [Bool.false_eq_true, if_false] at hview ⊢
    split_ifs at hview ⊢
    · exact absurd rfl hview.2
    · exact absurd rfl hview.1
    · exact ⟨_, _, rfl⟩
  obtain ⟨k, v, hentry⟩ := hentry
  have hmem : (k, v) ∈ entries.map Entry.pair := by
    rw [hpairs, List.map_cons, scan]
    refine List.mem_append.2 (.inr (List.mem_append.2 (.inl ?_)))
    rw [List.cons_append, show ((0 : ℕ) == 0) = true from rfl, view_bom, hentry]
    simp
  obtain ⟨e, he, hpair⟩ := List.mem_map.1 hmem
  refine ⟨e, he, ?_⟩
  rw [show e.varName = k from congrArg Prod.fst hpair, entry_key hentry (hplain.strip false)]
  exact hdrop

/-- The blob smuggles in nothing if and only if no peer's file hides a dropped key behind a mark. -/
theorem finalizeJoin_harmless_iff {data : ByteArray} {files : Files} {key : NodeKey} {r : JoinResult} {d' : Disk}
    (h : finalizeJoin data files false key = (.ok r, d')) :
    Harmless files r d' ↔ ∀ x body, lastBlock x (peerBlocks data) = some body → ¬ HidesKey body := by
  have hj := joined_of_run h
  have hno : ∀ x body, lastBlock x (peerBlocks data) = some body → ∀ l ∈ body, '\n' ∉ l ∧ peerLine l = .copy :=
    fun x body hx => hj.copied _ (lastBlock_mem hx)
  constructor
  · intro hharm x body hx hhides
    obtain ⟨entries, hparse, e, he, hdrop⟩ := hidden_entry (fun l hl => (hno x body hx l hl).1) hhides
    have hmem : x ∈ r.hostsWritten := hj.hosts ▸ List.mem_map.2 ⟨_, lastBlock_mem hx, rfl⟩
    have hfalse := hharm.peers x hmem _ entries (hj.peers x body hx) hparse e he
    rw [hdrop] at hfalse
    cases hfalse
  · intro hclear
    refine ⟨?_, ?_, ?_, hj.created, hj.untouched⟩
    · intro text entries htext hparse e he
      obtain ⟨lines, hlines, hconf⟩ := hj.conf
      obtain rfl := Option.some.inj (htext.symm.trans hlines)
      obtain ⟨pre, l, post, inside, rfl, hview⟩ := entry_of_textOf (fun l hl => (hconf l hl).1) hparse he
      rcases (hconf l (by simp)).2 with rfl | ⟨v, hv, hsafe, hhost, val, rfl⟩
      · exact .inl (pair_of_varLine isName_Name (valueOk_of_checkId hj.name) hview)
      · exact .inr ⟨v, hv, (key_of_varLine (isName_of_mem_vars hv) hview).symm, hsafe, hhost⟩
    · intro text entries htext hparse e he
      obtain ⟨lines, hlines, hown⟩ := hj.own
      obtain rfl := Option.some.inj (htext.symm.trans hlines)
      obtain ⟨pre, l, post, inside, rfl, hview⟩ := entry_of_textOf (fun l hl => (hown l hl).1) hparse he
      rcases (hown l (by simp)).2 with ⟨v, hv, hsafe, hhost, val, rfl⟩ | rfl
      · exact .inl ⟨v, hv, (key_of_varLine (isName_of_mem_vars hv) hview).symm, hsafe, hhost⟩
      · exact .inr (pair_of_varLine (isName_of_all (by decide)) hj.pubkey hview)
    · intro x hx text entries htext hparse e he
      rw [← hj.hosts] at hx
      obtain ⟨body, hbody⟩ := Option.isSome_iff_exists.1 (lastBlock_isSome hx)
      obtain rfl := Option.some.inj (htext.symm.trans (hj.peers x body hbody))
      obtain ⟨pre, l, post, inside, rfl, hview⟩ := entry_of_textOf (fun l hl => (hno x _ hbody l hl).1) hparse he
      by_contra hdrop
      obtain ⟨hfirst, m, rfl, hkey⟩ := dropped_entry hview (hno x _ hbody l (by simp)).2 (by simpa using hdrop)
      obtain rfl := List.isEmpty_iff.1 hfirst
      exact hclear x _ hbody ⟨⟨m, post, rfl, hkey⟩, entries, hparse⟩

def aliceKey : NodeKey := ⟨"abc".toList, "PEM\n".toList, by decide, List.all_eq_true.1 (by decide)⟩

theorem fromUTF8_toUTF8 (s : String) : String.fromUTF8? s.toUTF8 = some s := by
  unfold String.fromUTF8?
  exact dif_pos s.isValidUTF8

theorem finalizeJoin_text (s : String) (files : Files) (key : NodeKey) {d' : Disk}
    (h : (finalizeJoinText s.toList false key).run ⟨files, []⟩ = .ok r d') :
    finalizeJoin s.toUTF8 files false key = (.ok r, d') := by
  simp only [finalizeJoin, finalizeJoinInner, fromUTF8_toUTF8, h]

def peaceful : String := "Name = alice\nMode = switch\nName = bob\nPort = 655\n"

theorem finalizeJoin_harmless_iff_peaceful : ∃ d',
    finalizeJoin peaceful.toUTF8 (fun _ => none) false aliceKey =
      (.ok ⟨"alice".toList, "abc".toList, ["bob".toList]⟩, d') ∧
    Harmless (fun _ => none) ⟨"alice".toList, "abc".toList, ["bob".toList]⟩ d' := by
  have hval : ((finalizeJoinText peaceful.toList false aliceKey).run ⟨fun _ => none, []⟩).value? =
      some ⟨"alice".toList, "abc".toList, ["bob".toList]⟩ := by decide +kernel
  have hblocks : peerBlocks peaceful.toUTF8 = [("bob".toList, ["Port = 655".toList])] := by
    simp only [peerBlocks, fromUTF8_toUTF8]
    decide +kernel
  have hjoin := finalizeJoin_text peaceful (fun _ => none) aliceKey (Result.eq_ok_of_value hval)
  refine ⟨_, hjoin, (finalizeJoin_harmless_iff hjoin).2 fun x body hx hhides => ?_⟩
  rw [hblocks] at hx
  obtain ⟨-, rfl⟩ := Prod.mk.inj (List.mem_singleton.1 (lastBlock_mem hx))
  obtain ⟨⟨l, rest, hbody, -⟩, -⟩ := hhides
  exact absurd (List.cons.inj (List.cons.inj hbody).1).1 (by decide)

def smuggling : String := "Name = alice\nName = bob\n\uFEFFProxy = exec /bin/sh\n"

/-- A byte-order mark carries a proxy command past the filter. -/
theorem not_harmless_smuggling : ∃ d' text,
    finalizeJoin smuggling.toUTF8 (fun _ => none) false aliceKey =
      (.ok ⟨"alice".toList, "abc".toList, ["bob".toList]⟩, d') ∧
    d'.files (.host "bob".toList) = some text ∧
    parseFile text = .ok [⟨"Proxy".toList, "exec /bin/sh".toList, 1⟩] := by
  have hval : ((finalizeJoinText smuggling.toList false aliceKey).run ⟨fun _ => none, []⟩).value? =
      some ⟨"alice".toList, "abc".toList, ["bob".toList]⟩ := by decide +kernel
  refine ⟨_, "\uFEFFProxy = exec /bin/sh\n".toList,
    finalizeJoin_text smuggling (fun _ => none) aliceKey (Result.eq_ok_of_value hval), ?_, ?_⟩
  · decide +kernel
  · decide +kernel

end Tincr.Conf

import Tincr.Conf.Edit
import Tincr.Lib.Act

/-!
`tinc join`: an invitation blob becomes a fresh configuration directory. The first chunk of the blob is
our own configuration and filtered by the table of variables; the chunks behind it are the host files of
peers and copied line by line, but for a few keys. The state is the directory, with the files this run
created; a run that fails removes those again.
-/

namespace Tincr.Conf

open Lines

inductive Path
  | tincConf
  | host (name : Text)
  | invitationData
  | ed25519Private
  | tincUp
deriving DecidableEq, Repr

inductive CmdError
  | badInput (message : String)
  | alreadyExists (path : Path)
deriving DecidableEq, Repr

abbrev Files := Path → Option Text

structure Disk where
  files : Files
  created : List Path

/-- `create_nofollow`: an old file is truncated. -/
def Disk.create (d : Disk) (p : Path) : Disk := ⟨Function.update d.files p (some []), d.created ++ [p]⟩

def Disk.writeLine (d : Disk) (p : Path) (line : Text) : Disk :=
  { d with files := Function.update d.files p ((d.files p).map fun t => t ++ (line ++ ['\n'])) }

def Disk.put (d : Disk) (p : Path) (text : Text) : Disk :=
  ⟨Function.update d.files p (some text), d.created ++ [p]⟩

abbrev Join := EStateM CmdError Disk

structure NodeKey where
  pubkeyB64 : Text
  privatePem : Text
  ne_nil : pubkeyB64 ≠ []
  alphabet : ∀ c ∈ pubkeyB64, (c.isAlphanum || c == '+' || c == '/') = true

structure JoinResult where
  name : Text
  pubkeyB64 : Text
  hostsWritten : List Text
deriving DecidableEq, Repr

def SEPARATOR : Text := '#' :: List.replicate 63 '-' ++ ['#']

def CHUNK2_DROP_KEYS : List Text :=
  ["Proxy".toList, "ScriptsInterpreter".toList, "Ed25519PublicKeyFile".toList, "Ed25519PrivateKeyFile".toList,
    "PublicKeyFile".toList, "PrivateKeyFile".toList]

/-- `str::lines`: without the newline, and without one carriage return before it. -/
def stripNewline (l : Text) : Text :=
  if l.getLast? = some '\n' then
    if l.dropLast.getLast? = some '\r' then l.dropLast.dropLast else l.dropLast
  else l

def strLines (data : Text) : List Text := (splitInclusive data).map stripNewline

def splitVar (line : Text) : Option (Text × Text) :=
  if (splitKv line).1 = [] then none else some (splitKv line)

def parseNameLine (line : Text) : Option Text :=
  match splitVar line with
  | some (k, v) => if eqIgnoreAsciiCase k "Name".toList then some v else none
  | none => none

def parseBlobHeader : List Text → Except CmdError (Text × List Text)
  | [] => .error (.badInput "No Name found in invitation!")
  | first :: lines =>
    match parseNameLine first with
    | none => .error (.badInput "No Name found in invitation!")
    | some name =>
      if checkId name then .ok (name, lines) else .error (.badInput "Invalid Name found in invitation!")

inductive OwnLine
  | skip
  | boundary (name : Text)
  | var (var : Var) (val : Text)

def ownLine (name : Text) (force : Bool) (line : Text) : OwnLine :=
  if line.head? = some '#' then .skip
  else match splitVar line with
    | none => .skip
    | some (key, val) =>
      if eqIgnoreAsciiCase key "Name".toList then if val = name then .skip else .boundary val
      else if eqIgnoreAsciiCase key "NetName".toList then .skip
      else match lookupVar key with
        | none => .skip
        | some var => if var.flags.contains .SAFE || force then .var var val else .skip

def varLine (name value : Text) : Text := name ++ [' ', '=', ' '] ++ value

/-- `write_chunk1`, with the name that ended the chunk and the lines behind it. -/
def writeChunk1 (name : Text) (force : Bool) (d : Disk) : List Text → Disk × Option (Text × List Text)
  | [] => (d, none)
  | line :: rest =>
    match ownLine name force line with
    | .skip => writeChunk1 name force d rest
    | .boundary v => (d, some (v, rest))
    | .var var val =>
      let target := if var.flags.contains .HOST then Path.host name else Path.tincConf
      writeChunk1 name force (d.writeLine target (varLine var.name val)) rest

inductive PeerLine
  | skip
  | boundary (name : Text)
  | copy

def droppedKey (key : Text) : Bool := CHUNK2_DROP_KEYS.any fun k => eqIgnoreAsciiCase key k

def peerLine (line : Text) : PeerLine :=
  if line = SEPARATOR then .skip
  else match splitVar line with
    | some (k, v) =>
      if eqIgnoreAsciiCase k "Name".toList then .boundary v
      else if droppedKey k then .skip
      else .copy
    | none => .copy

def openHost (name hostName : Text) : Join Unit :=
  if checkId hostName = false then throw (.badInput "Invalid Name found in invitation.")
  else if eqIgnoreAsciiCase hostName name then
    throw (.badInput "Secondary chunk would overwrite our own host config file.")
  else modify (Disk.create · (.host hostName))

/-- The lines of the chunk of `cur` and of those behind it; `written` are the names so far. -/
def hostLoop (name cur : Text) (written : List Text) : List Text → Join (List Text)
  | [] => pure written
  | line :: rest =>
    match peerLine line with
    | .skip => hostLoop name cur written rest
    | .boundary v => do
      openHost name v
      hostLoop name v (written ++ [v]) rest
    | .copy => do
      modify (Disk.writeLine · (.host cur) line)
      hostLoop name cur written rest

def writeHostChunks (name : Text) : Option (Text × List Text) → Join (List Text)
  | none => pure []
  | some (v, lines) => do
    openHost name v
    hostLoop name v [v] lines

def ensureFreshConfbase : Join Unit := do
  let d ← get
  if (d.files .tincConf).isSome then throw (.alreadyExists .tincConf)

def openFiles (name data : Text) (d : Disk) : Disk :=
  (((d.create .tincConf).writeLine .tincConf (varLine "Name".toList name)).create (.host name)).put .invitationData data

def generateNodeKey (name : Text) (key : NodeKey) : Join Unit := do
  let d ← get
  if (d.files .ed25519Private).isSome then throw (.alreadyExists .ed25519Private)
  else
    modify fun d =>
      (d.put .ed25519Private key.privatePem).writeLine (.host name) (varLine "Ed25519PublicKey".toList key.pubkeyB64)

def tincUpPlaceholder : Text :=
  "#!/bin/sh\n\necho 'Unconfigured tinc-up script, please edit '$0'!'\n\n#ip link set dev $INTERFACE up\n#ip addr add <your-vpn-ip>/<prefixlen> dev $INTERFACE\n".toList

def writeTincUpPlaceholder : Join Unit :=
  modify fun d => if (d.files .tincUp).isSome then d else d.put .tincUp tincUpPlaceholder

/-- `finalize_join_inner` on the text of the blob. -/
def finalizeJoinText (data : Text) (force : Bool) (key : NodeKey) : Join JoinResult :=
  match parseBlobHeader (strLines data) with
  | .error e => throw e
  | .ok (name, lines) => do
    ensureFreshConfbase
    modify (openFiles name data)
    let d ← get
    set (writeChunk1 name force d lines).1
    let hosts ← writeHostChunks name (writeChunk1 name force d lines).2
    generateNodeKey name key
    writeTincUpPlaceholder
    pure ⟨name, key.pubkeyB64, hosts⟩

def finalizeJoinInner (data : ByteArray) (force : Bool) (key : NodeKey) : Join JoinResult :=
  match String.fromUTF8? data with
  | none => throw (.badInput "Invitation data is not valid UTF-8")
  | some text => finalizeJoinText text.toList force key

/-- A run that fails removes what it created. -/
def finalizeJoin (data : ByteArray) (files : Files) (force : Bool) (key : NodeKey) : Except CmdError JoinResult × Disk :=
  match (finalizeJoinInner data force key).run ⟨files, []⟩ with
  | .ok r d => (.ok r, d)
  | .error e d => (.error e, { d with files := fun p => if p ∈ d.created then none else d.files p })

end Tincr.Conf

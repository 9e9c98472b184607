import Tincr.Cmd.Exchange
import Tincr.Cmd.Url

/-!
`tinc invite`: the invitation file and its URL. The first chunk of the file is the configuration of the new node, with
the variables it must share with us; the second is our host file, copied line by line but for the port. The key hash
and the cookie are given; the directory of invitations is not looked at.
-/

namespace Tincr.Cmd

open Conf Lines

inductive InviteError
  | badInput (message : String)
  /-- `"{path}: {e}"`. -/
  | read (path : String) (e : ReadError)
deriving DecidableEq

/-- The node that invites: `name` is what `get_my_name` found, `known` are the hosts that have a file. -/
structure Inviter where
  name : Text
  conf : Text
  host : Text
  confPath : String
  hostPath : String
  known : Text → Bool
  name_ok : checkId name = true
  known_self : known name = true

/-- What `split_whitespace` has left behind the first word. -/
def afterWord (cs : Text) : Text := (cs.dropWhile isWhitespace).dropWhile fun c => !isWhitespace c

/-- Host and port of the first `Address`; the port may stand behind it, or in `Port`. -/
def getMyAddress (hostPath : String) (entries : List Entry) : Except InviteError AddressPort :=
  match (lookup entries "Address".toList).head? with
  | none => .error (.badInput s!"No Address found in {hostPath}.\n  hint: run `tinc -n NET add Address <public-ip-or-hostname>` before creating invitations.")
  | some addr =>
    let host := firstWord addr.value
    let addrLinePort := firstWord (afterWord addr.value)
    if host = [] then .error (.badInput "Address value is empty")
    else if addrLinePort ≠ [] then .ok ⟨host, addrLinePort⟩
    else
      match (lookup entries "Port".toList).head? with
      | none => .ok ⟨host, DEFAULT_PORT⟩
      | some port =>
        if port.value = ['0'] then
          .error (.badInput "Port = 0 means dynamic port allocation, but tincd is not running. Please start tincd or set Port to a fixed value.")
        else .ok ⟨host, port.value⟩

def meshVars : List Text := ["Mode".toList, "Broadcast".toList]

def meshLines (entries : List Entry) : List Text :=
  meshVars.filterMap fun var => (lookup entries var).head?.map fun e => varLine var e.value

def isPort (key : Text) : Bool := eqIgnoreAsciiCase key "Port".toList

/-- The first token ends at a blank, not at an equals sign. -/
def isPortLine (chunk : Text) : Bool :=
  let trimmed := if chunk.getLast? = some '\n' then chunk.dropLast else chunk
  let token := (trimmed.dropWhile isBlank).takeWhile fun c => !isBlank c
  utf8Len token == 4 && isPort token

def portLine (port : Text) : Text := varLine "Port".toList port

def copyHostReplacingPort (body port : Text) : Text :=
  (splitInclusive body).flatMap fun chunk => if isPortLine chunk then portLine port ++ ['\n'] else chunk

def frontLines (netname : Option Text) (invitee myname : Text) (mesh : List Text) : List Text :=
  varLine "Name".toList invitee :: (netname.toList.map (varLine "NetName".toList) ++
    varLine "ConnectTo".toList myname :: (mesh ++ [SEPARATOR, varLine "Name".toList myname]))

def buildInvitationFile (inviter : Inviter) (netname : Option Text) (invitee : Text) (address : AddressPort) :
    Except InviteError Text :=
  match parseFile inviter.conf with
  | .error e => .error (.read inviter.confPath e)
  | .ok conf =>
    .ok (textOf (frontLines netname invitee inviter.name (meshLines conf)) ++
      copyHostReplacingPort inviter.host address.port)

structure Invitation where
  url : Text
  body : Text

def invite (inviter : Inviter) (netname : Option Text) (invitee : Text) (keyHash cookie : Cookie) :
    Except InviteError Invitation :=
  if checkId invitee = false then .error (.badInput s!"Invalid name for node: {String.ofList invitee}")
  else if inviter.known invitee then
    .error (.badInput s!"A host config file for {String.ofList invitee} already exists!")
  else
    match parseFile inviter.host with
    | .error e => .error (.read inviter.hostPath e)
    | .ok host => do
      let address ← getMyAddress inviter.hostPath host
      let body ← buildInvitationFile inviter netname invitee address
      return ⟨address.display ++ '/' :: buildSlug keyHash cookie, body⟩

end Tincr.Cmd

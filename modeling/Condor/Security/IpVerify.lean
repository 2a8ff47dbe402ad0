import Condor.Lib.CText
import Mathlib.Data.List.AList
import Mathlib.Data.List.DropRight

/-!
# Authorization — the model of `IpVerify`

A request is a permission, an address and a user. `Verify` looks for a hole that has been punched,
then into the lists of the permission, by the address and by its host names, then at the permissions
that imply it, and it keeps what it has found in a table.

The configuration, the answers of DNS and of the netgroups and the matching of one pattern are
parameters.
-/

namespace Condor.Authorization

/-! ## Permissions -/

/-- `DCpermission`, without its place holders. -/
inductive DCpermission where
  | allow | read | write | negotiator | administrator | config | daemon | soap | default | client
  | advertiseStartd | advertiseSchedd | advertiseMaster
deriving DecidableEq, Repr

namespace DCpermission

def all : List DCpermission :=
  [allow, read, write, negotiator, administrator, config, daemon, soap, default, client,
    advertiseStartd, advertiseSchedd, advertiseMaster]

def value (perm : DCpermission) : ℕ := perm.ctorIdx

def permString : DCpermission → Text
  | allow => "ALLOW".toList
  | read => "READ".toList
  | write => "WRITE".toList
  | negotiator => "NEGOTIATOR".toList
  | administrator => "ADMINISTRATOR".toList
  | config => "CONFIG".toList
  | daemon => "DAEMON".toList
  | soap => "SOAP".toList
  | default => "DEFAULT".toList
  | client => "CLIENT".toList
  | advertiseStartd => "ADVERTISE_STARTD".toList
  | advertiseSchedd => "ADVERTISE_SCHEDD".toList
  | advertiseMaster => "ADVERTISE_MASTER".toList

/-- `aImpliedNext`; no value stands for `LAST_PERM`. -/
def nextImplied : DCpermission → Option DCpermission
  | write | negotiator | config | advertiseStartd | advertiseSchedd | advertiseMaster => some read
  | administrator | daemon => some write
  | _ => none

def directlyImpliedBy (perm : DCpermission) : List DCpermission :=
  all.filter fun pm => pm.nextImplied = some perm

/-- How many permissions are implied, one by the other. -/
def height : DCpermission → ℕ
  | administrator | daemon => 2
  | write | negotiator | config | advertiseStartd | advertiseSchedd | advertiseMaster => 1
  | _ => 0

theorem height_lt {perm q : DCpermission} (h : perm.nextImplied = some q) :
    q.height < perm.height := by
  cases perm <;> cases h <;> decide

end DCpermission

/-! ## What is given -/

/-- `condor_sockaddr`. -/
inductive SockAddr where
  | v4 (addr : BitVec 32) (port : BitVec 16)
  | v6 (addr : BitVec 128) (port : BitVec 16) (scope : BitVec 32)
deriving DecidableEq, Repr

def SockAddr.toIpv6Address : SockAddr → BitVec 128
  | v4 addr _ => (0xffff#96) ++ addr
  | v6 addr _ _ => addr

/-- What the system answers. An IPv4 address and its IPv6 form have the same text and names. -/
structure Env where
  ipString : BitVec 128 → Text
  hostnameWithAlias : BitVec 128 → List Text
  resolveHostname : Text → List Text
  isNetString : Text → Bool
  matchesWithNetwork : Text → Text → Bool
  matchesAnycaseWithWildcard : Text → Text → Bool
  innetgr : Text → Text → Text → Text → Bool

/-- The settings `ALLOW_%s` and `DENY_%s`; a tool has its own lists only. -/
structure Config where
  clientOnly : Bool
  allowSetting : DCpermission → Option Text
  denySetting : DCpermission → Option Text

/-- The setting as `Init` sees it. -/
def Config.setting (cfg : Config) (settings : DCpermission → Option Text) (perm : DCpermission) :
    Option Text :=
  if perm = .client || !cfg.clientOnly then settings perm else none

variable (E : Env) (cfg : Config)

/-! ## The lists -/

abbrev UserHash := AList fun _ : Text => List Text

inductive Behavior where
  | allow | useTable | onlyDenies | deny
deriving DecidableEq, Repr

structure PermTypeEntry where
  behavior : Behavior := .useTable
  allowUsers : UserHash := ∅
  denyUsers : UserHash := ∅
  allowNetgroups : List Text := []
  denyNetgroups : List Text := []

def isDelimiter (c : Char) : Bool := c = ',' || c = ' ' || c = '\t' || c = '\r' || c = '\n'

def tokens (list : Text) : List Text :=
  ((list.splitOnP isDelimiter).map fun t => (t.dropWhile isSpace).rdropWhile isSpace).filter
    fun t => t ≠ []

def netgroupDetected : Text := "***".toList

/-- `split_entry`: the host and the user. -/
def splitEntry (entry : Text) : Text × Text :=
  if entry.head? = some '+' then (entry.tail, netgroupDetected)
  else
    let user := entry.takeWhile (· ≠ '/')
    match entry.dropWhile (· ≠ '/') with
    | [] => if '@' ∈ entry then ("*".toList, entry) else (entry, "*".toList)
    | _ :: host =>
      if '/' ∈ host then (host, user)
      else if '@' ∈ user ∨ entry.head? = some '*' then (host, user)
      else if E.isNetString entry then (entry, "*".toList)
      else (host, user)

def expandHostAddresses (host : Text) : List Text :=
  host :: if '*' ∈ host ∨ '/' ∈ host then []
    else if E.isNetString host then []
    else if '<' ∈ host ∨ '>' ∈ host ∨ '?' ∈ host ∨ ':' ∈ host then []
    else E.resolveHostname host

def addUser (users : UserHash) (user host : Text) : UserHash :=
  users.insert host ((users.lookup host).getD [] ++ [user])

def addEntry (allow : Bool) (pentry : PermTypeEntry) (entry : Text) : PermTypeEntry :=
  let (host, user) := splitEntry E entry
  if user = netgroupDetected then
    if allow then { pentry with allowNetgroups := pentry.allowNetgroups ++ [host] }
    else { pentry with denyNetgroups := pentry.denyNetgroups ++ [host] }
  else
    let hosts := expandHostAddresses E host
    if allow then
      { pentry with
        allowUsers := hosts.foldl (fun users h => addUser users user h) pentry.allowUsers }
    else
      { pentry with
        denyUsers := hosts.foldl (fun users h => addUser users user h) pentry.denyUsers }

def fillTable (pentry : PermTypeEntry) (list : Text) (allow : Bool) : PermTypeEntry :=
  (tokens list).foldl (addEntry E allow) pentry

def isEveryone (setting : Option Text) : Bool :=
  setting = some "*".toList || setting = some "*/*".toList

/-- The part of `Init` for a permission. -/
def initEntry (perm : DCpermission) : PermTypeEntry :=
  let pAllow := cfg.setting cfg.allowSetting perm
  let pDeny := cfg.setting cfg.denySetting perm
  if perm = .allow then { behavior := .allow }
  else if isEveryone pDeny || (pAllow.isNone && (perm ≠ .read && perm ≠ .write)) then
    { behavior := .deny }
  else if isEveryone pAllow then
    match pDeny with
    | none => { behavior := .allow }
    | some deny => fillTable E { behavior := .onlyDenies } deny false
  else
    let pentry : PermTypeEntry := match pAllow with
      | none => {}
      | some allow => fillTable E {} allow true
    match pDeny with
    | none => pentry
    | some deny => fillTable E pentry deny false

/-! ## The state -/

/-- `IpVerify`. The table of the results has an entry for an address and a user. -/
structure IpVerify where
  didInit : Bool := false
  permTypeArray : DCpermission → Option PermTypeEntry := fun _ => none
  punchedHoleArray : DCpermission → AList fun _ : Text => ℤ := fun _ => ∅
  permHashTable : AList fun _ : BitVec 128 × Text => BitVec 64 := ∅

def init (v : IpVerify) : IpVerify :=
  if v.didInit then v
  else { v with
    didInit := true
    permHashTable := ∅
    permTypeArray := fun perm => some (initEntry E cfg perm) }

def allowMask (perm : DCpermission) : BitVec 64 := 1#64 <<< (1 + 2 * perm.value)

def denyMask (perm : DCpermission) : BitVec 64 := 1#64 <<< (2 + 2 * perm.value)

def meets (mask bits : BitVec 64) : Bool := mask &&& bits ≠ 0

def lookupCachedVerifyResult (v : IpVerify) (perm : DCpermission) (sin6 : BitVec 128) (who : Text) :
    Option (BitVec 64) :=
  (v.permHashTable.lookup (sin6, who)).filter fun mask =>
    meets mask (allowMask perm ||| denyMask perm)

def addHashEntry (v : IpVerify) (sin6 : BitVec 128) (who : Text) (mask : BitVec 64) : IpVerify :=
  let old := (v.permHashTable.lookup (sin6, who)).getD 0
  { v with permHashTable := v.permHashTable.insert (sin6, who) (old ||| mask) }

/-! ## The decision -/

/-- What an entry of a list is compared with. -/
inductive Peer where
  | ip (text : Text)
  | hostname (text : Text)
deriving DecidableEq, Repr

def Peer.text : Peer → Text
  | ip t | hostname t => t

def hostMatches (host : Text) : Peer → Bool
  | .ip text => E.matchesWithNetwork host text
  | .hostname text => E.matchesAnycaseWithWildcard host text

/-- The netgroup has the user, at the address or the name. Without an `@` the whole user stands for
the domain, too. -/
def inNetgroup (who : Text) (peer : Peer) (group : Text) : Bool :=
  let domain := if '@' ∈ who then (who.dropWhile (· ≠ '@')).tail else who
  E.innetgr group peer.text (who.takeWhile (· ≠ '@')) domain

def lookupUser (users : UserHash) (netgroups : List Text) (who : Text) (peer : Peer) : Bool :=
  (users.entries.any fun e =>
      hostMatches E e.1 peer && e.2.any fun item => E.matchesAnycaseWithWildcard item who) ||
    netgroups.any (inNetgroup E who peer)

variable (pentry : PermTypeEntry)

/-- `lookup_user_ip_allow`, `lookup_user_host_allow`. -/
def lookupUserAllow (who : Text) (peer : Peer) : Bool :=
  lookupUser E pentry.allowUsers pentry.allowNetgroups who peer

/-- `lookup_user_ip_deny`, `lookup_user_host_deny`. -/
def lookupUserDeny (who : Text) (peer : Peer) : Bool :=
  lookupUser E pentry.denyUsers pentry.denyNetgroups who peer

/-- `allow_reason` and `deny_reason`. -/
structure Reasons where
  allow : Text := []
  deny : Text := []
deriving DecidableEq, Repr

variable (perm : DCpermission)

def reason (text : String) (subject : Text) : Text :=
  perm.permString ++ text.toList ++ subject

def Peer.kind : Peer → String
  | ip _ => "IP address "
  | hostname _ => "hostname "

def scanPeer (who : Text) (s : BitVec 64 × Reasons) (peer : Peer) : BitVec 64 × Reasons :=
  let s := if !meets s.1 (denyMask perm) && lookupUserDeny E pentry who peer then
      (s.1 ||| denyMask perm, { s.2 with
        deny := reason perm (" authorization policy denies " ++ peer.kind) peer.text })
    else s
  if !meets s.1 (allowMask perm ||| denyMask perm) && lookupUserAllow E pentry who peer then
    (s.1 ||| allowMask perm, { s.2 with
      allow := reason perm (" authorization policy allows " ++ peer.kind) peer.text })
  else s

/-- The host names that are looked up, after the address has been searched for. -/
def scanHostnames (mask : BitVec 64) (sin6 : BitVec 128) : List Text :=
  if !meets mask (allowMask perm ||| denyMask perm) || !meets mask (denyMask perm) then
    E.hostnameWithAlias sin6
  else []

/-- The lists are searched for the address and for its names. -/
def scan (who : Text) (sin6 : BitVec 128) (r : Reasons) : (BitVec 64 × Reasons) × List Text :=
  let s := scanPeer E pentry perm who (0, r) (.ip (E.ipString sin6))
  let hostnames := scanHostnames E perm s.1 sin6
  ((hostnames.map Peer.hostname).foldl (scanPeer E pentry perm who) s, hostnames)

def whoOf : Option Text → Text
  | none | some [] => "*".toList
  | some user => user

def holeIds (user : Option Text) (ip : Text) : List Text :=
  match user with
  | none | some [] => [ip]
  | some user => [user, user ++ '/' :: ip, ip]

def findHole (v : IpVerify) (perm : DCpermission) (user : Option Text) (ip : Text) : Option Text :=
  (holeIds user ip).find? fun id => ((v.punchedHoleArray perm).lookup id).isSome

variable (verifyParent : IpVerify → DCpermission → Reasons → Option (IpVerify × Bool × Reasons))

/-- The loop over the permissions that imply the one that is asked for: the one that is allowed. -/
def tryParents (verifyParent : IpVerify → DCpermission → Reasons →
    Option (IpVerify × Bool × Reasons)) :
    List DCpermission → IpVerify → Reasons → Option (IpVerify × Option DCpermission × Reasons)
  | [], v, r => some (v, none, r)
  | parent :: parents, v, r => do
    let (v, allowed, r) ← verifyParent v parent r
    if allowed then some (v, some parent, r) else tryParents verifyParent parents v r

def peerDescription (ip : Text) (hostnames : List Text) : Text :=
  hostnames.foldl (fun d h => (if d = [] then d else d ++ [',']) ++ h) ip

def allowSuffix (description : Text) : Text :=
  if description = [] then [] else "; identifiers used for this remote host: ".toList ++ description

/-- `Verify` where there is neither a hole nor a result in the table. -/
def verifyTable
    (pentry : PermTypeEntry) (v : IpVerify) (perm : DCpermission) (sin6 : BitVec 128) (who : Text)
    (r : Reasons) : Option (IpVerify × BitVec 64 × Reasons) := do
  let ip := E.ipString sin6
  let ((mask, r), hostnames) := scan E pentry perm who sin6 r
  let description := peerDescription ip hostnames
  if mask = 0 then
    if pentry.behavior = .onlyDenies then
      let mask := allowMask perm
      some (addHashEntry v sin6 who mask, mask, { r with
        allow := reason perm " authorization policy does not deny, so allowing"
          (allowSuffix description) })
    else
      match ← tryParents verifyParent perm.directlyImpliedBy v r with
      | (v, some parent, r) =>
        let mask := allowMask perm
        some (addHashEntry v sin6 who mask, mask, { r with
          allow := reason perm " is implied by " (parent.permString ++ "; ".toList ++ r.allow) })
      | (v, none, r) =>
        let mask := denyMask perm
        some (addHashEntry v sin6 who mask, mask, { r with
          deny := reason perm
            " authorization policy contains no matching ALLOW entry for this request"
            ("; identifiers used for this host: ".toList ++ description ++
              ", hostname size = ".toList ++ Nat.toDigits 10 hostnames.length ++
              ", original ip address = ".toList ++ ip) })
  else
    some (addHashEntry v sin6 who mask, mask, if meets mask (allowMask perm) then
      { r with allow := r.allow ++ allowSuffix description } else r)

/-- `Verify` where there is no hole: the result in the table, or a new one. -/
def verifyCached
    (pentry : PermTypeEntry) (v : IpVerify) (perm : DCpermission) (sin6 : BitVec 128) (who : Text)
    (r : Reasons) : Option (IpVerify × Bool × Reasons) :=
  match lookupCachedVerifyResult v perm sin6 who with
  | some mask =>
    let cached : Text := "cached result for ".toList ++ perm.permString ++
      "; see first case for the full reason".toList
    if meets mask (denyMask perm) then some (v, false, { r with deny := cached })
    else some (v, meets mask (allowMask perm), { r with allow := cached })
  | none => do
    let (v, mask, r) ← verifyTable E verifyParent pentry v perm sin6 who r
    return (v, !meets mask (denyMask perm) && meets mask (allowMask perm), r)

/-- One level of `Verify`, with the calls for the levels above. There is no result if the table of
the permission has not been made. -/
def verifyLevel
    (v : IpVerify) (perm : DCpermission) (addr : SockAddr) (user : Option Text) (r : Reasons) :
    Option (IpVerify × Bool × Reasons) := do
  let v := init E cfg v
  if perm = .allow then return (v, true, r)
  let sin6 := addr.toIpv6Address
  let pentry ← v.permTypeArray perm
  match findHole v perm user (E.ipString sin6) with
  | some id =>
    return (v, true, { r with
      allow := reason perm " authorization has been made automatic for " id })
  | none =>
    match pentry.behavior with
    | .allow =>
      return (v, true, { r with
        allow := reason perm " authorization policy allows access by anyone" [] })
    | .deny =>
      return (v, false, { r with deny := reason perm " authorization policy denies all access" [] })
    | _ => verifyCached E verifyParent pentry v perm sin6 (whoOf user) r

/-- `Verify` with so many levels. -/
def verifyLevels : ℕ → IpVerify → DCpermission → SockAddr → Option Text → Reasons →
    Option (IpVerify × Bool × Reasons)
  | 0, _, _, _, _, _ => none
  | n + 1, v, perm, addr, user, r =>
    verifyLevel E cfg (fun v parent r => verifyLevels n v parent addr user r) v perm addr user r

/-- **`Verify`**, which succeeds or not, for the reasons that are added. -/
def verify (v : IpVerify) (perm : DCpermission) (addr : SockAddr) (user : Option Text)
    (r : Reasons) :
    Option (IpVerify × Bool × Reasons) :=
  verifyLevels E cfg 3 v perm addr user r

/-! ## Holes -/

def IpVerify.setHoles (v : IpVerify) (perm : DCpermission) (holes : AList fun _ : Text => ℤ) :
    IpVerify :=
  { v with punchedHoleArray := Function.update v.punchedHoleArray perm holes }

/-- **`PunchHole`.** -/
def punchHole (v : IpVerify) (perm : DCpermission) (id : Text) : IpVerify :=
  let holes := v.punchedHoleArray perm
  let v := v.setHoles perm (holes.insert id ((holes.lookup id).getD 0 + 1))
  match _h : perm.nextImplied with
  | none => v
  | some implied => punchHole v implied id
termination_by perm.height
decreasing_by exact DCpermission.height_lt _h

/-- **`FillHole`**; it fails if there is no hole. -/
def fillHole (v : IpVerify) (perm : DCpermission) (id : Text) : IpVerify × Bool :=
  let holes := v.punchedHoleArray perm
  match holes.lookup id with
  | none => (v, false)
  | some count =>
    let count := if 0 < count then count - 1 else count
    let v := v.setHoles perm (if count ≤ 0 then holes.erase id else holes.insert id count)
    match _h : perm.nextImplied with
    | none => (v, true)
    | some implied => ((fillHole v implied id).1, true)
termination_by perm.height
decreasing_by exact DCpermission.height_lt _h

end Condor.Authorization

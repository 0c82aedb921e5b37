import QuickjsRuntime.Url.Dots

/-!
# URL records: parsing and printing

`parseUrl` and `serialize` of `node_compat_url.dart`. The body of `parseUrl` is cut where the
source has its own steps: the scheme, the authority with user info, host and port, and the
path with query and fragment.
-/

namespace Url

open Utf16 (Text units isDigit decimal digitsValue)
open Split (splitFirst splitLast)

/-- The state object of a `URLRecord`. -/
structure Record where
  scheme : Text
  username : Text
  password : Text
  host : Text
  port : Option Nat
  pathname : Text
  search : Option Text
  hash : Option Text
deriving DecidableEq, Repr

/-! ## Schemes -/

/-- The `SPECIAL` table, with the default ports. -/
def defaultPortOf (scheme : Text) : Option Nat :=
  if scheme = units "http" then some 80
  else if scheme = units "https" then some 443
  else if scheme = units "ws" then some 80
  else if scheme = units "wss" then some 443
  else if scheme = units "ftp" then some 21
  else none

def isSpecial (scheme : Text) : Bool :=
  (defaultPortOf scheme).isSome

def isFile (scheme : Text) : Bool :=
  scheme = units "file"

def isSchemeChar (c : Nat) : Bool :=
  isLetter c || isDigit c || c = 0x2B || c = dot || c = 0x2D

/-- `/^([a-zA-Z][a-zA-Z0-9+.-]*):/`: the scheme and what follows the colon. -/
def splitScheme (input : Text) : Option (Text × Text) :=
  match input with
  | [] => none
  | c :: _ =>
    if isLetter c then
      match input.dropWhile isSchemeChar with
      | x :: rest => if x = colon then some (input.takeWhile isSchemeChar, rest) else none
      | [] => none
    else none

def stripC0 (s : Text) : Text :=
  (s.rdropWhile isC0).dropWhile isC0

/-! ## Authority -/

/-- The characters that end an authority. -/
def isDelimiter (c : Nat) : Bool :=
  c = slash || c = questionMark || c = numberSign

def notDelimiter (c : Nat) : Bool :=
  !isDelimiter c

/-- What a port text stands for: no port, a port, or (`none`) an error. -/
def readPort (portStr : Text) : Option (Option Nat) :=
  if portStr = [] then some none
  else if portStr.all isDigit = false then none
  else if 65535 < digitsValue portStr then none
  else some (some (digitsValue portStr))

/-- `/^\[[^\]]*\]/`: a bracketed literal and what follows it. -/
def splitBracket (s : Text) : Option (Text × Text) :=
  match s with
  | [] => none
  | c :: rest =>
    if c = openBracket then
      (splitFirst closeBracket rest).map fun p => (openBracket :: (p.1 ++ [closeBracket]), p.2)
    else none

/-- `hostPort` -/
def splitHostPort (s : Text) : Text × Text :=
  match splitBracket s with
  | some p => p
  | none => (splitLast colon s).getD (s, [])

/-- User name, password and the rest of the authority. -/
def splitUserinfo (authority : Text) : Text × Text × Text :=
  match splitLast atSign authority with
  | none => ([], [], authority)
  | some (userinfo, rest) =>
    match splitFirst colon userinfo with
    | some (username, password) => (username, password, rest)
    | none => (userinfo, [], rest)

structure Authority where
  username : Text
  password : Text
  host : Text
  port : Option Nat
deriving DecidableEq, Repr

/-- The port that is kept: not the default port of the scheme. -/
def keptPort (scheme : Text) (port : Option Nat) : Option Nat :=
  if isSpecial scheme ∧ port = defaultPortOf scheme then none else port

def keptHost (scheme host : Text) : Text :=
  if isFile scheme ∧ host = units "localhost" then [] else host

/-- Host and port from the authority behind the user info. -/
def readHost (env : Platform) (scheme rest : Text) : Option (Text × Option Nat) :=
  let (host, portStr) := splitHostPort rest
  (readPort portStr).map fun port =>
    (keptHost scheme (env.toLowerCase host), keptPort scheme port)

/-- The part of `parseUrl` that reads an authority. -/
def readAuthority (env : Platform) (scheme authority : Text) : Option Authority :=
  let (username, password, rest) := splitUserinfo authority
  (readHost env scheme rest).map fun p =>
    { username := username, password := password, host := p.1, port := p.2 }

/-! ## Path, query and fragment -/

/-- Cut at the first `c`: what stands before it, and what stands after it if it occurs. -/
def cut (c : Nat) (s : Text) : Text × Option Text :=
  match splitFirst c s with
  | none => (s, none)
  | some (before, after) => (before, some after)

/-- The path that is stored for the text of one. -/
def storedPath (env : Platform) (scheme path : Text) : Text :=
  let pathname := if isSpecial scheme ∧ path = [] then [slash] else path
  if pathname = [] then [] else encodePath env pathname

/-- The part of `parseUrl` that reads what follows the authority. -/
def readTail (env : Platform) (scheme pathAndMore : Text) : Text × Option Text × Option Text :=
  let (pathAndQuery, fragment) := cut numberSign pathAndMore
  let (path, query) := cut questionMark pathAndQuery
  (storedPath env scheme path, query, fragment)

/-! ## `parseUrl` -/

/-- The state object of an authority and of what follows it. -/
def mkRecord (scheme : Text) (a : Authority) (tail : Text × Option Text × Option Text) :
    Record where
  scheme := scheme
  username := a.username
  password := a.password
  host := a.host
  port := a.port
  pathname := tail.1
  search := tail.2.1
  hash := tail.2.2

/-- `parseUrl` after the scheme. -/
def readRest (env : Platform) (scheme rest : Text) : Option Record :=
  let slashes := rest.take 2 = [slash, slash]
  let hasAuthority := slashes ∨ isSpecial scheme ∨ isFile scheme
  let rest := if slashes then rest.drop 2 else rest
  let authority := if hasAuthority then rest.takeWhile notDelimiter else []
  let pathAndMore := if hasAuthority then rest.dropWhile notDelimiter else rest
  match readAuthority env scheme authority with
  | none => none
  | some a => some (mkRecord scheme a (readTail env scheme pathAndMore))

/-- The directory of a path: `pathname.replace(/[^/]*$/, '')`. -/
def directory (pathname : Text) : Text :=
  pathname.rdropWhile (· ≠ slash)

/-- The branches of `parseUrl` for an input without a scheme. -/
def resolveAgainst (env : Platform) (base : Record) (input : Text) : Option Record :=
  match input with
  | [] => some base
  | c :: rest =>
    if c = slash ∧ rest.head? = some slash then readRest env base.scheme (rest.drop 1)
    else if c = numberSign then some { base with hash := some (encodeSet env rest false) }
    else if c = questionMark then
      some { base with search := some (encodeSet env rest false), hash := none }
    else if c = slash then
      some { base with pathname := encodePath env input, search := none, hash := none }
    else
      some { base with
        pathname := encodePath env (directory base.pathname ++ input)
        search := none
        hash := none }

def parseUrl (env : Platform) (input : Text) (base : Option Record) : Option Record :=
  match splitScheme (stripC0 input) with
  | some (scheme, rest) => readRest env (env.toLowerCase scheme) rest
  | none => base.bind fun b => resolveAgainst env b (stripC0 input)

/-! ## `serialize` -/

/-- Whether the text has an authority: `//` is printed. -/
def Record.showsAuthority (r : Record) : Bool :=
  isSpecial r.scheme || isFile r.scheme || r.host ≠ [] || r.username ≠ [] ||
    r.password ≠ [] || r.port ≠ none

def userinfoText (env : Platform) (username password : Text) : Text :=
  if username ≠ [] ∨ password ≠ [] then
    encodeSet env username false ++
      ((if password ≠ [] then colon :: encodeSet env password false else []) ++ [atSign])
  else []

def portText (port : Option Nat) : Text :=
  match port with
  | some n => colon :: decimal n
  | none => []

/-- The host with its port; without a host the port is not printed. -/
def hostText (host : Text) (port : Option Nat) : Text :=
  if host ≠ [] then host ++ portText port else []

def Record.authorityText (env : Platform) (r : Record) : Text :=
  userinfoText env r.username r.password ++ hostText r.host r.port

/-- An optional part that is printed only when it is not empty. -/
def optionalText (c : Nat) (s : Text) : Text :=
  if s ≠ [] then c :: s else []

def tailText (pathname search hash : Text) : Text :=
  pathname ++ (optionalText questionMark search ++ optionalText numberSign hash)

def Record.tailText (r : Record) : Text :=
  Url.tailText r.pathname (r.search.getD []) (r.hash.getD [])

/-- The text after the scheme and its colon. -/
def Record.restText (env : Platform) (r : Record) : Text :=
  (if r.showsAuthority then [slash, slash] else []) ++ (r.authorityText env ++ r.tailText)

/-- `serialize`, the getter of `href`. -/
def serialize (env : Platform) (r : Record) : Text :=
  r.scheme ++ colon :: r.restText env

end Url

import QuickjsRuntime.Url.Reread

/-!
# The pieces of an input

`parseUrl` cuts an absolute input into pieces before it interprets any of them. With the
cutting as a step of its own, conditions on an input can speak of its pieces, whatever
becomes of them afterwards.
-/

namespace Url

open Utf16 (Text units digitsValue)
open Split (splitFirst splitLast)

/-- What `parseUrl` cuts an absolute input into, with the scheme and the host lowered. -/
structure Pieces where
  scheme : Text
  username : Text
  password : Text
  host : Text
  portStr : Text
  path : Text
  query : Option Text
  fragment : Option Text
deriving DecidableEq, Repr

/-- The authority, and what follows it. -/
def splitRest (scheme rest : Text) : Text × Text :=
  let slashes := rest.take 2 = [slash, slash]
  let hasAuthority := slashes ∨ isSpecial scheme ∨ isFile scheme
  let rest := if slashes then rest.drop 2 else rest
  if hasAuthority then (rest.takeWhile notDelimiter, rest.dropWhile notDelimiter) else ([], rest)

/-- The pieces of what follows a scheme. -/
def restPieces (env : Platform) (scheme rest : Text) : Pieces :=
  let (authority, tail) := splitRest scheme rest
  let (username, password, hostPort) := splitUserinfo authority
  let (host, portStr) := splitHostPort hostPort
  let (pathAndQuery, fragment) := cut numberSign tail
  let (path, query) := cut questionMark pathAndQuery
  { scheme, username, password, host := env.toLowerCase host, portStr, path, query, fragment }

def pieces (env : Platform) (input : Text) : Option Pieces :=
  (splitScheme (stripC0 input)).map fun q => restPieces env (env.toLowerCase q.1) q.2

/-- The record that is made from the pieces. -/
def Pieces.record (env : Platform) (p : Pieces) : Option Record :=
  (readPort p.portStr).map fun port =>
    { scheme := p.scheme
      username := p.username
      password := p.password
      host := keptHost p.scheme p.host
      port := keptPort p.scheme port
      pathname := storedPath env p.scheme p.path
      search := p.query
      hash := p.fragment }

/-! ## Parsing in two steps -/

theorem readRest_eq_splitRest (env : Platform) (scheme rest : Text) :
    readRest env scheme rest =
      (readAuthority env scheme (splitRest scheme rest).1).map fun a =>
        mkRecord scheme a (readTail env scheme (splitRest scheme rest).2) := by
  unfold readRest splitRest
  dsimp only
  by_cases hfull : rest.take 2 = [slash, slash] ∨ isSpecial scheme = true ∨ isFile scheme = true
  · simp only [hfull, if_true]
    cases readAuthority env scheme _ <;> rfl
  · simp only [hfull, if_false]
    cases readAuthority env scheme _ <;> rfl

theorem readRest_eq_record (env : Platform) (scheme rest : Text) :
    readRest env scheme rest = (restPieces env scheme rest).record env := by
  simp only [readRest_eq_splitRest, readAuthority, readHost, Option.map_map, Pieces.record,
    restPieces, readTail]
  rfl

/-- Parsing is cutting and then interpreting the pieces. -/
theorem parseUrl_eq_pieces (env : Platform) (input : Text) :
    parseUrl env input none = (pieces env input).bind (Pieces.record env) := by
  unfold parseUrl pieces
  cases splitScheme (stripC0 input) with
  | none => rfl
  | some q => exact readRest_eq_record env _ _

/-! ## What is stored for host and port -/

/-- No port is stored for the port text: there is none, or it is the default one. -/
def Pieces.Portless (p : Pieces) : Prop :=
  p.portStr = [] ∨ defaultPortOf p.scheme = some (digitsValue p.portStr)

/-- No host is stored for the host text. -/
def Pieces.Hostless (p : Pieces) : Prop :=
  p.host = [] ∨ (isFile p.scheme = true ∧ p.host = units "localhost")

theorem keptHost_eq_nil_iff {scheme host : Text} :
    keptHost scheme host = [] ↔ host = [] ∨ (isFile scheme = true ∧ host = units "localhost") := by
  unfold keptHost
  split
  next hlocal => simp [hlocal]
  next hlocal => simp [hlocal]

theorem keptHost_of_ne_nil {scheme host : Text} (h : keptHost scheme host ≠ []) :
    keptHost scheme host = host := by
  unfold keptHost at h ⊢
  split
  next hlocal => exact absurd (if_pos hlocal) h
  · rfl

theorem keptPort_eq_none_iff {scheme portStr : Text} {port : Option Nat}
    (hport : readPort portStr = some port) :
    keptPort scheme port = none ↔
      portStr = [] ∨ defaultPortOf scheme = some (digitsValue portStr) := by
  cases port with
  | none => simp [keptPort_none, readPort_none_iff.mp hport]
  | some n =>
    obtain ⟨-, -, rfl⟩ := readPort_le hport
    have hne : portStr ≠ [] := by
      rintro rfl
      cases hport
    rw [keptPort]
    split
    next hdefault => simp [hne, hdefault.2]
    next hdefault =>
      have hkept : defaultPortOf scheme ≠ some (digitsValue portStr) := by
        intro heq
        exact hdefault ⟨by rw [isSpecial, heq]; rfl, heq.symm⟩
      simp [hne, hkept]

end Url

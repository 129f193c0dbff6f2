import CrashCourier.Http.Host

/-!
# Addresses of resources

A URL is a scheme, then for most schemes an authority with a host, a path, and perhaps a query and a
fragment. Reading brings each part into one form: what must not stand in it is encoded, dots in the
path are followed, and the usual port of a scheme is left out.
-/

namespace CrashCourier.Http

/-- The address of a resource, all its parts in the form in which they are kept. -/
structure Url where
  scheme : String
  /-- Whether two slashes follow the scheme. -/
  hasAuthority : Bool
  username : List Char
  password : Option (List Char)
  host : Option (List Char)
  port : Option Nat
  path : List Char
  query : Option (List Char)
  fragment : Option (List Char)

namespace Url

/-! ## Schemes -/

/-- The schemes whose addresses have a host and a path of their own form, and their usual ports. -/
def specialSchemes : List (String × Option Nat) :=
  [("http", some 80), ("https", some 443), ("ws", some 80), ("wss", some 443), ("ftp", some 21),
    ("file", none)]

def isSpecial (scheme : String) : Bool :=
  (specialSchemes.lookup scheme).isSome

def usualPort (scheme : String) : Option Nat :=
  (specialSchemes.lookup scheme).join

/-- The scheme that a text begins with, and what follows its colon. -/
def takeScheme? (cs : List Char) : Option (String × List Char) :=
  let isPart (c : Char) : Bool := c.isAlphanum || c == '+' || c == '-' || c == '.'
  let scheme := cs.takeWhile isPart
  match scheme, cs.drop scheme.length with
  | c :: _, ':' :: rest =>
    if c.isAlpha then some (String.ofList (scheme.map Char.toLower), rest) else none
  | _, _ => none

/-! ## Authorities -/

/-- Whether a character ends an authority. -/
def endsAuthority (special : Bool) (c : Char) : Bool :=
  c == '/' || c == '?' || c == '#' || special && c == '\\'

/-- Splits a list at the last place where an element stands. -/
def splitLast (x : Char) (cs : List Char) : Option (List Char × List Char) :=
  let behind := cs.reverse.takeWhile (· ≠ x)
  if behind.length < cs.length then
    some (cs.take (cs.length - behind.length - 1), behind.reverse)
  else none

/-- What may stand in a name or a password as it is. -/
def isPlainUser (c : Char) : Bool :=
  !(" \"#<>?\x7b\x7d/:;=@[\\]^|".toList.contains c || c == '\x60')

/-- The name and the password in front of a host. -/
def userinfo (cs : List Char) : List Char × Option (List Char) :=
  let name := cs.takeWhile (· ≠ ':')
  let encode := Text.percentEncode isPlainUser
  match cs.drop name.length with
  | _ :: c :: password => (encode name, some (encode (c :: password)))
  | _ => (encode name, none)

/-- The host in front of a port: up to a colon that does not stand in brackets. -/
def takeHost : (inside : Bool) → List Char → List Char
  | _, [] => []
  | inside, c :: rest =>
    if c = ':' ∧ !inside then []
    else c :: takeHost (if c = '[' then true else if c = ']' then false else inside) rest

/-- The port of a scheme that a text after a host gives: nothing, or a colon and digits. -/
def port? (scheme : String) (cs : List Char) : Option (Option Nat) :=
  match cs with
  | ':' :: digits =>
    if digits = [] then some none
    else if digits.all Char.isDigit then
      match Host.ofDigits? 10 digits with
      | some n =>
        if 65535 < n then none else some (if usualPort scheme = some n then none else some n)
      | none => none
    else none
  | _ => some none

/-- An authority: name, password, host and port. -/
structure Authority where
  username : List Char
  password : Option (List Char)
  host : Option (List Char)
  port : Option Nat

def authority? (scheme : String) (cs : List Char) : Option Authority := do
  let special := isSpecial scheme
  let (user, cs) := match splitLast '@' cs with
    | some (user, rest) => (some user, rest)
    | none => (none, cs)
  let (username, password) := (user.map userinfo).getD ([], none)
  let hostText := takeHost false cs
  let port ← port? scheme (cs.drop hostText.length)
  if hostText = [] then
    if special ∨ user.isSome ∨ port.isSome then none else return ⟨username, password, none, port⟩
  let host ← if special then Host.ofText? hostText else Host.kept? hostText
  return ⟨username, password, some host, port⟩

/-! ## Paths, queries and fragments -/

/-- What may stand in a fragment as it is. -/
def isPlainFragment (c : Char) : Bool :=
  !(" \"<>".toList.contains c || c == '\x60')

/-- What may stand in a path as it is. -/
def isPlainPath (c : Char) : Bool :=
  isPlainFragment c && !"#?\x7b\x7d".toList.contains c

/-- What may stand in a query as it is. -/
def isPlainQuery (special : Bool) (c : Char) : Bool :=
  !" \"#<>".toList.contains c && !(special && c == '\'')

/-- A segment with encoded dots put in their place, if it is dots. -/
def dots (segment : List Char) : String :=
  match (String.ofList segment).toLower with
  | "." | "%2e" => "."
  | ".." | ".%2e" | "%2e." | "%2e%2e" => ".."
  | s => s

/-- Follows the segments of a path: one dot stays, two go back. -/
def follow : (taken : List (List Char)) → List (List Char) → List (List Char)
  | taken, [] => taken
  | taken, segment :: rest =>
    let last := rest.isEmpty
    match dots segment with
    | "." => follow (if last then taken ++ [[]] else taken) rest
    | ".." => follow (if last then taken.dropLast ++ [[]] else taken.dropLast) rest
    | _ => follow (taken ++ [Text.percentEncode isPlainPath segment]) rest

/-- The path that a text gives, without the slash that it begins with. -/
def pathOf (special : Bool) (cs : List Char) : List Char :=
  let cs := if special then cs.map fun c => if c = '\\' then '/' else c else cs
  '/' :: List.intercalate ['/'] (follow [] (cs.splitOn '/'))

/-- Splits a text in front of a character. -/
def splitAt (x : Char) (cs : List Char) : List Char × Option (List Char) :=
  let before := cs.takeWhile (· ≠ x)
  match cs.drop before.length with
  | _ :: rest => (before, some rest)
  | [] => (before, none)

/-! ## Reading and writing -/

/-- The address that a text gives. Blanks and controls around it do not count, nor do ends of lines
and tabs in it. -/
def ofText? (text : String) : Option Url := do
  let isEdge (c : Char) : Bool := c ≤ ' '
  let trimmed := ((text.toList.dropWhile isEdge).reverse.dropWhile isEdge).reverse
  let (scheme, rest) ← takeScheme? (trimmed.filter fun c => !"\t\n\r".toList.contains c)
  let special := isSpecial scheme
  let (rest, fragment) := splitAt '#' rest
  let (rest, query) := splitAt '?' rest
  let query := query.map (Text.percentEncode (isPlainQuery special))
  let fragment := fragment.map (Text.percentEncode isPlainFragment)
  let isSlash (c : Char) : Bool := c == '/' || special && c == '\\'
  let slashes := (rest.takeWhile isSlash).length
  let withHost (rest : List Char) : Option Url := do
    let before := rest.takeWhile (!endsAuthority special ·)
    let behind := rest.drop before.length
    let a ← authority? scheme before
    let path := if special ∨ behind ≠ [] then pathOf special (behind.drop 1) else []
    return ⟨scheme, true, a.username, a.password, a.host, a.port, path, query, fragment⟩
  let withoutHost (hasAuthority : Bool) (path : List Char) : Url :=
    ⟨scheme, hasAuthority, [], none, none, none, path, query, fragment⟩
  if scheme = "file" then
    let host := (rest.drop 2).takeWhile (!endsAuthority true ·)
    if slashes = 2 ∧ host ≠ [] then
      let kept ← Host.ofText? host
      let path := pathOf true ((rest.drop (2 + host.length)).drop 1)
      return { withoutHost true path with
        host := if kept = "localhost".toList then none else some kept }
    else
      return withoutHost true (pathOf true (rest.drop (if 2 ≤ slashes then 3 else min slashes 1)))
  else if special then withHost (rest.drop slashes)
  else if 2 ≤ slashes then withHost (rest.drop 2)
  else if slashes = 1 then return withoutHost false (pathOf false (rest.drop 1))
  else return withoutHost false (Text.percentEncode (fun _ => true) rest)

/-- Whether a request can be sent to an address. Some characters may stand in the host of an address
and not in that of a request. -/
def isSendable (u : Url) : Bool :=
  (u.scheme == "http" || u.scheme == "https") &&
    (u.host.getD []).all fun c => !("\"\x7b\x7d".toList.contains c || c == '\x60')

/-- The part of an address that is sent with a request. -/
def target (u : Url) : String :=
  String.ofList (u.path ++ u.query.elim [] ('?' :: ·))

/-- The text of an address. -/
def text (u : Url) : String :=
  let user := u.username ++ u.password.elim [] (':' :: ·)
  String.ofList (u.scheme.toList ++ [':'] ++
    (if u.hasAuthority then ['/', '/'] else []) ++
    (if user = [] then [] else user ++ ['@']) ++
    u.host.getD [] ++
    (u.port.elim [] fun n => ':' :: (toString n).toList) ++
    u.path ++ u.query.elim [] ('?' :: ·) ++ u.fragment.elim [] ('#' :: ·))

/-- The name and the password of an address, decoded, if it has any. -/
def credentials? (u : Url) : Option (Bytes × Option Bytes) :=
  let decode (cs : List Char) : Option Bytes :=
    let octets := Text.percentDecode cs
    (Text.Utf8.decode? octets).map fun _ => octets
  match decode u.username, u.password.bind decode with
  | some name, password => if name = [] ∧ password.isNone then none else some (name, password)
  | none, _ => none

/-- The address without name and password. -/
def withoutCredentials (u : Url) : Url :=
  { u with username := [], password := none }

end Url

end CrashCourier.Http

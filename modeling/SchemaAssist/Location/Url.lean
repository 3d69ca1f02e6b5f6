/-
# URLs

A URL is read into its parts, in the one form that each part is kept in: scheme and host in small
letters, no port that the scheme implies, no dots as steps of the path.  A reference is read against
the URL that it stands in, which lends it the parts that it leaves out.
-/

import SchemaAssist.Location.Host
import SchemaAssist.Location.UrlPath
import SchemaAssist.Text.Numeral

namespace SchemaAssist

/-- A URL in its parts; an empty host is a host.  A path consists of steps, each after a slash; one
that does not start with a slash, where there is no host, is a text without structure. -/
structure Url where
  scheme : String
  username : String := ""
  password : String := ""
  host? : Option String := none
  port? : Option Nat := none
  path : String := ""
  query? : Option String := none
  fragment? : Option String := none
  deriving DecidableEq, Repr, Inhabited

namespace Url

open UrlPath (isSlash cutWhere)

/-- The ports that schemes with hosts imply; a file has none. -/
def specialSchemes : List (String × Option Nat) :=
  [("http", some 80), ("https", some 443), ("ws", some 80), ("wss", some 443), ("ftp", some 21),
    ("file", none)]

/-- A scheme that is known to name hosts or files. -/
def isSpecial (scheme : String) : Bool := (specialSchemes.lookup scheme).isSome

/-- The characters of a text that count: none of the blanks and control characters at its ends, and
no tabs and line ends. -/
def relevant (s : String) : List Char :=
  let isOuter (c : Char) : Bool := c.toNat ≤ 0x20
  let inner := ((s.toList.dropWhile isOuter).reverse.dropWhile isOuter).reverse
  inner.filter fun c => c ≠ '\t' && c ≠ '\n' && c ≠ '\r'

/-- The scheme of a text, in small letters, and what follows its colon. -/
def cutScheme (cs : List Char) : Option (String × List Char) :=
  match Text.cutList ':' cs with
  | some (c :: scheme, rest) =>
    if c.isAlpha && scheme.all (fun d => d.isAlphanum || d = '+' || d = '-' || d = '.') then
      some (String.ofList ((c :: scheme).map Char.toLower), rest)
    else none
  | _ => none

/-- A path, a query and a fragment, each without the mark before it. -/
def cutTail (cs : List Char) : List Char × Option (List Char) × Option (List Char) :=
  let (beforeFragment, fragment) := cutWhere (· = '#') cs
  let (path, query) := cutWhere (· = '?') beforeFragment
  (path, query.tail?, fragment.tail?)

/-- The form of a query. -/
def queryText (special : Bool) (cs : List Char) : String :=
  String.ofList (Percent.encode (if special then '\'' :: Percent.querySet else Percent.querySet) cs)

/-- The form of a fragment. -/
def fragmentText (cs : List Char) : String := String.ofList (Percent.encode Percent.fragmentSet cs)

/-- The URL with a query and a fragment in place of its own. -/
def withTail (u : Url) (query fragment : Option (List Char)) : Url :=
  { u with
    query? := query.map (queryText (isSpecial u.scheme)),
    fragment? := fragment.map fragmentText }

/-- Whether the path is a text without structure. -/
def isPlain (u : Url) : Bool := u.host?.isNone && u.path.toList.head? ≠ some '/'

/-- The URL without name, password, port and what follows the scheme. -/
def bare (scheme : String) : Url := { scheme }

/-- A URL with a path that has been put together. -/
def setPath (u : Url) (b : UrlPath.Built) : Url := { u with path := String.ofList b.path }

/-- The path that a written one leads to, from a path on. -/
def follow (u : Url) (start written : List Char) : UrlPath.Built :=
  UrlPath.follow (isSpecial u.scheme) (u.scheme = "file") start written

/-- The path after a host as written: it starts with a slash, which may be left out. -/
def pathStart (u : Url) : List Char → UrlPath.Built
  | [] => if isSpecial u.scheme then u.follow ['/'] [] else ⟨[], false⟩
  | c :: cs => u.follow ['/'] (if isSlash (isSpecial u.scheme) c then cs else c :: cs)

/-- A port as written, unless the scheme implies it, and the characters after it, which a backslash
may start. -/
def readPort? (scheme : String) (cs : List Char) : Option (Option Nat × List Char) := do
  let (digits, rest) := cutWhere (!·.isDigit) cs
  if rest.head?.any (· ≠ '\\') then none
  if digits.isEmpty then return (none, rest)
  let port ← (Text.digitsValue 0 digits).filter (· < 0x10000)
  return (if specialSchemes.lookup scheme = some (some port) then none else some port, rest)

/-- The URL with the name and the password before a host. -/
def withUser (u : Url) (cs : List Char) : Url :=
  let (name, password) := cutWhere (· = ':') cs
  let form (cs : List Char) : String := String.ofList (Percent.encode Percent.userinfoSet cs)
  { u with username := form name, password := form password.tail }

/-- The name and the password of a URL, with the marks around them. -/
def userText (u : Url) : String :=
  if u.username = "" && u.password = "" then ""
  else u.username ++ (if u.password = "" then "" else ":" ++ u.password) ++ "@"

/-- A host and a port cut at the colon between them, which stands outside brackets. -/
def cutPort : (inside : Bool) → List Char → List Char × Option (List Char)
  | _, [] => ([], none)
  | inside, c :: cs =>
    if c = ':' && !inside then ([], some cs)
    else
      let (host, port) := cutPort (c = '[' || (inside && c ≠ ']')) cs
      (c :: host, port)

/-- The URL with the authority and all that follows it, given what follows the two slashes.  Without
a host there is no port, no name and no password, and with known schemes there is a host. -/
def withAuthority (u : Url) (cs : List Char) : Option Url := do
  let special := isSpecial u.scheme
  let (authority, rest) := cutWhere (fun c => isSlash special c || c = '?' || c = '#') cs
  let (user?, place) :=
    match Text.cutLastList '@' authority with
    | some (user, place) => (some user, place)
    | none => (none, authority)
  let u := u.withUser (user?.getD [])
  if user? = some [] && place.isEmpty && !rest.isEmpty then none
  let (host, port) := cutPort false place
  if host.isEmpty && (special || u.userText ≠ "" || port.isSome) then none
  let host ← if special then Host.special? host else Host.opaque? host
  let (port?, more) ← readPort? u.scheme (port.getD [])
  let (path, query, fragment) := cutTail (more ++ rest)
  let u := { u with host? := some host, port? }
  return (u.setPath (u.pathStart path)).withTail query fragment

/-- A relative reference against the URL it stands in, whose scheme is not that of files. -/
def relative (base : Url) (cs : List Char) : Option Url :=
  let (path, query, fragment) := cutTail cs
  let slashes := (path.takeWhile (isSlash true)).length
  match path with
  | [] =>
    match query with
    | some _ => base.withTail query fragment
    | none => some { base with fragment? := fragment.map fragmentText }
  | c :: path =>
    if 1 < slashes then
      (bare base.scheme).withAuthority
        ((Text.dropLead ['/', '/'] cs).getD (cs.drop slashes))
    else if slashes = 1 then
      (base.setPath (base.follow ['/'] path)).withTail query fragment
    else
      let start := UrlPath.leave false base.path.toList
      (base.setPath (base.follow (if start.isEmpty then ['/'] else start) (c :: path))).withTail
        query fragment

/-- A file on the machine at hand, without a path. -/
def localFile : Url := { bare "file" with host? := some "" }

/-- The URL of a file, given what follows two slashes: its host and its path.  The local host is the
empty one, the name of a drive is no host, and a drive has none. -/
def fileAuthority (cs : List Char) : Option Url := do
  let (host, rest) := cutWhere (fun c => isSlash true c || c = '?' || c = '#') cs
  if UrlPath.isWrittenDrive host then
    let (path, query, fragment) := cutTail cs
    return (localFile.setPath (localFile.follow ['/'] path)).withTail query fragment
  let host ← if host.isEmpty then some "" else Host.special? host
  let (path, query, fragment) := cutTail rest
  let built := localFile.pathStart path
  let host := if host = "localhost" || built.drive then "" else host
  return ({ localFile with host? := some host }.setPath built).withTail query fragment

/-- A path of a file as written with a slash at its start, against the URL of a file: it stays on
the drive, or else on the host. -/
def fileFromRoot (base : Url) (path : List Char) : Url :=
  match UrlPath.steps base.path.toList with
  | first :: _ =>
    if UrlPath.startsWithDrive path.tail then localFile.setPath (localFile.follow [] path)
    else if UrlPath.isDrive first then localFile.setPath (localFile.follow ('/' :: first) path)
    else base.setPath (base.follow [] path)
  | [] => base.setPath (base.follow [] path)

/-- The URL of a file, given what follows the scheme and the URL of a file that it stands in. -/
def file (base : Option Url) (cs : List Char) : Option Url :=
  let (path, query, fragment) := cutTail cs
  let base? := base
  let base := base.getD { localFile with path := "/" }
  match path with
  | [] =>
    match base?, query with
    | some base, none => some { base with fragment? := fragment.map fragmentText }
    | _, _ => base.withTail query fragment
  | c :: rest =>
    if isSlash true c then
      if rest.head?.any (isSlash true) then fileAuthority (cs.drop 2)
      else (base.fileFromRoot path).withTail query fragment
    else if UrlPath.startsWithDrive path then
      (localFile.setPath (localFile.follow ['/'] path)).withTail query fragment
    else
      let start := UrlPath.leave true base.path.toList
      (base.setPath (base.follow start path)).withTail query fragment

/-- A URL without an authority, given what follows the scheme: steps after a slash, else a path
without structure. -/
def withoutAuthority (scheme : String) (cs : List Char) : Url :=
  let (path, query, fragment) := cutTail cs
  let u := bare scheme
  let built :=
    match path with
    | '/' :: path => u.follow ['/'] path
    | path => ⟨Percent.encode [] path, false⟩
  (u.setPath built).withTail query fragment

/-- Reads a URL with the given scheme, against the URL that it stands in. -/
def ofScheme (base : Option Url) (scheme : String) (cs : List Char) : Option Url :=
  if scheme = "file" then file (base.filter (·.scheme = "file")) cs
  else if isSpecial scheme then
    let slashes := (cs.takeWhile (isSlash true)).length
    match base.filter (·.scheme = scheme) with
    | some base =>
      if slashes < 2 then base.relative cs else (bare scheme).withAuthority (cs.drop slashes)
    | none => (bare scheme).withAuthority (cs.drop slashes)
  else match cs with
    | '/' :: '/' :: cs => (bare scheme).withAuthority cs
    | cs => some (withoutAuthority scheme cs)

/-- Reads a URL; `none` if the text is none. -/
def read? (s : String) : Option Url := do
  let (scheme, cs) ← cutScheme (relevant s)
  ofScheme none scheme cs

/-- Reads a reference against the URL that it stands in. -/
def join (base : Url) (reference : String) : Option Url :=
  let cs := relevant reference
  match cutScheme cs with
  | some (scheme, rest) => ofScheme (some base) scheme rest
  | none =>
    if base.isPlain then
      match cs with
      | '#' :: fragment => some { base with fragment? := some (fragmentText fragment) }
      | _ => none
    else if base.scheme = "file" then file (some base) cs
    else base.relative cs

/-- A URL in full.  Where there is no host, a path that starts with two slashes is set apart from
one. -/
def toString (u : Url) : String :=
  let authority := match u.host? with
    | some host => "//" ++ u.userText ++ host ++
        (match u.port? with
          | some n => ":" ++ ToString.toString n
          | none => "")
    | none => if (u.path.toList.take 2) = ['/', '/'] then "/." else ""
  let tail (mark : String) : Option String → String
    | some s => mark ++ s
    | none => ""
  u.scheme ++ ":" ++ authority ++ u.path ++ tail "?" u.query? ++ tail "#" u.fragment?

/-- The bytes of the path of the file that a URL names; there is none on another host.  A drive at
the end is followed by a slash. -/
def filePath? (u : Url) : Option (List UInt8) := do
  if u.host?.any (· ≠ "") || u.isPlain then none
  let bytes := (UrlPath.steps u.path.toList).flatMap fun s => 47 :: Percent.decode s
  let last := (bytes.drop (bytes.length - 2)).map fun b => Char.ofNat b.toNat
  return if 2 < bytes.length && UrlPath.isWrittenDrive last then bytes ++ [47] else bytes

end Url
end SchemaAssist

/-
# URIs of documents

A document is known by its URI.  Of a URI with the scheme `file` the server also knows a path: the host,
if there is one, and the path of the URI, with their percent escapes decoded.

* `splitUri`: scheme, host and path of a URI; a host in brackets must be an address, and no host may hide
  a delimiter.
* `percentDecode`: escapes decoded as UTF-8.
* `fsPath?`: the path of a URI.
-/
import LuaServer.Failure

namespace LuaServer

/-! ## 1. Addresses -/

/-- A part of an address of the older kind: a number up to 255 without leading zeros. -/
def isOctet (t : Text) : Bool :=
  t != [] && t.length ≤ 3 && t.all isDigit && (t = [code '0'] || t.head? != some (code '0'))
    && ofDigits 10 (t.filterMap decimalDigit?) ≤ 255

/-- An address of the older kind: four octets. -/
def isOlderAddress (t : Text) : Bool :=
  let parts := splitOn (code '.') t
  parts.length = 4 && parts.all isOctet

/-- A part of an address: up to four hexadecimal digits. -/
def isHextet (t : Text) : Bool := t != [] && t.length ≤ 4 && t.all isHexDigit

/-- The parts of an address, with an address of the older kind at the end as two parts. -/
def addressParts? (t : Text) : Option (List Text) :=
  let parts := splitOn (code ':') t
  if parts.length < 3 then none
  else
    match parts.getLast? with
    | some last =>
      if last.contains (code '.') then
        if isOlderAddress last then some (parts.dropLast ++ [text "0", text "0"]) else none
      else some parts
    | none => none

/-- An address without a zone: eight parts, or fewer with one run of zeros left out. -/
def isPlainAddress (t : Text) : Bool :=
  match addressParts? t with
  | none => false
  | some parts =>
    let inner := (parts.drop 1).dropLast
    match inner.findIdx? (· = []), inner.count [] with
    | none, _ => parts.length = 8 && parts.all isHextet
    | some i, 1 =>
      let before := parts.take (i + 1)
      let after := parts.drop (i + 2)
      let before := if before.head? = some [] then before.drop 1 else before
      let after := if after.getLast? = some [] then after.dropLast else after
      before.all isHextet && after.all isHextet && before.length + after.length < 8
        && (parts.head? != some [] || before = []) && (parts.getLast? != some [] || after = [])
    | some _, _ => false

/-- An address, with a zone after a percent sign allowed. -/
def isAddress (t : Text) : Bool :=
  match splitAtFirst? [code '%'] t with
  | none => isPlainAddress t
  | some (plain, zone) => zone != [] && !zone.contains (code '%') && isPlainAddress plain

/-- An address of a future kind: a version, a point and something. -/
def isFutureAddress (t : Text) : Bool :=
  let version := (t.drop 1).takeWhile isHexDigit
  let rest := (t.drop 1).drop version.length
  version != [] && rest.head? = some (code '.') && rest.drop 1 != []
    && !(rest.drop 1).contains (code '\n')

/-- What stands between the brackets of a host must be an address. -/
def checkBracketed (host : Text) : Except UriFault Unit :=
  if host.head? = some (code 'v') then
    if isFutureAddress host then .ok () else .error .futureAddress
  else if isOlderAddress host then .error .olderAddress
  else if !host.contains (code '/') && isAddress host then .ok ()
  else .error (.notAnAddress host)

/-- What stands before and after the first occurrence of a code point; all of it before, if there is
none. -/
def cutAt (c : Code) (t : Text) : Text × Text := (splitAtFirst? [c] t).getD (t, [])

/-- Checks the host and the port in a part of a URI that has brackets.  Nothing may stand before the
brackets, and after them only a port; what they hold must be an address.  Without brackets the host
itself must be one. -/
def checkHostAndPort (t : Text) : Except UriFault Unit :=
  match splitAtFirst? [code '['] t with
  | none => checkBracketed (cutAt (code ':') t).1
  | some (before, inner) =>
    let (host, port) := cutAt (code ']') inner
    if before != [] || port.head?.any (· != code ':') then .error .brackets
    else checkBracketed host

/-- The brackets of a host are balanced and hold an address.  What stands before the last at sign names
a user and is not looked at. -/
def checkHost (netloc : Text) : Except UriFault Unit :=
  match netloc.contains (code '['), netloc.contains (code ']') with
  | true, true => checkHostAndPort (((splitOn (code '@') netloc).getLast?).getD [])
  | false, false => .ok ()
  | _, _ => .error .brackets

/-- The code points beyond ASCII whose compatibility form has a slash, a question mark, a number sign, an
at sign or a colon in it. -/
def hiddenDelimiters : List Code :=
  [0x2047, 0x2048, 0x2049, 0x2100, 0x2101, 0x2105, 0x2106, 0x2A74, 0xFE13, 0xFE16, 0xFE55, 0xFE56,
    0xFE5F, 0xFE6B, 0xFF03, 0xFF0F, 0xFF1A, 0xFF1F, 0xFF20]

/-- No code point of a host stands for a delimiter. -/
def checkDelimiters (netloc : Text) : Except UriFault Unit :=
  if netloc.any hiddenDelimiters.contains then .error (.hiddenDelimiter netloc) else .ok ()

/-! ## 2. Parts of a URI -/

/-- What a scheme consists of. -/
def isSchemeChar (c : Code) : Bool :=
  isDigit c || (code 'a' ≤ c && c ≤ code 'z') || (code 'A' ≤ c && c ≤ code 'Z') || c = code '+'
    || c = code '-' || c = code '.'

/-- An ASCII letter in lower case. -/
def lowerCode (c : Code) : Code := if code 'A' ≤ c ∧ c ≤ code 'Z' then c + 32 else c

/-- An ASCII letter. -/
def isLetter (c : Code) : Bool :=
  (code 'a' ≤ c && c ≤ code 'z') || (code 'A' ≤ c && c ≤ code 'Z')

/-- The scheme of a URI in lower case, and the rest. -/
def splitScheme (t : Text) : Text × Text :=
  match splitAtFirst? [code ':'] t with
  | some (scheme, rest) =>
    if scheme.head?.any isLetter && scheme.all isSchemeChar then (scheme.map lowerCode, rest)
    else ([], t)
  | none => ([], t)

/-- The parts of a URI that the server looks at. -/
structure UriParts where
  scheme : Text
  netloc : Text
  path : Text

/-- Splits a URI.  Controls and spaces in front, and tabs and line ends anywhere, do not count; a query
and a fragment are dropped. -/
def splitUri (uri : Text) : Except UriFault UriParts :=
  let t := (uri.dropWhile (· ≤ 32)).filter fun c => !(c = 9 || c = 10 || c = 13)
  let (scheme, rest) := splitScheme t
  let hasHost := (text "//").isPrefixOf rest
  let isEnd (c : Code) : Bool := c = code '/' || c = code '?' || c = code '#'
  let netloc := if hasHost then (rest.drop 2).takeWhile (!isEnd ·) else []
  let rest := if hasHost then (rest.drop 2).dropWhile (!isEnd ·) else rest
  match checkHost netloc, checkDelimiters netloc with
  | .error e, _ | .ok (), .error e => .error e
  | .ok (), .ok () => .ok ⟨scheme, netloc, rest.takeWhile fun c => !(c = code '#' || c = code '?')⟩

/-! ## 3. Percent escapes -/

/-- The bytes of an ASCII text with its escapes decoded; a percent sign that begins no escape is
kept. -/
def percentBytes : Text → Bytes
  | [] => []
  | c :: a :: b :: cs =>
    match hexDigit? a, hexDigit? b with
    | some x, some y =>
      if c = code '%' then (x * 16 + y).toUInt8 :: percentBytes cs
      else c.toUInt8 :: percentBytes (a :: b :: cs)
    | _, _ => c.toUInt8 :: percentBytes (a :: b :: cs)
  | c :: cs => c.toUInt8 :: percentBytes cs

/-- A text with its escapes decoded as UTF-8.  The code points beyond ASCII divide it into parts that
are decoded one by one. -/
def percentDecode (t : Text) : Text :=
  match t with
  | [] => []
  | c :: cs =>
    if c < 128 then
      Utf8.decodeReplacing (percentBytes (c :: cs.takeWhile (· < 128)))
        ++ percentDecode (cs.dropWhile (· < 128))
    else c :: percentDecode cs
termination_by t.length
decreasing_by
  · have h := (List.dropWhile_suffix (· < 128) (l := cs)).length_le
    simp only [List.length_cons]
    omega
  · simp

/-! ## 4. Paths -/

/-- A drive letter in front of a path, as in `/C:`. -/
def hasDrive : Text → Bool
  | s :: l :: c :: _ => s = code '/' && isLetter l && c = code ':'
  | _ => false

/-- The path that a URI with the scheme `file` names. -/
def fsPath? (uri : Text) : Except UriFault (Option Text) :=
  match splitUri uri with
  | .error e => .error e
  | .ok parts =>
    if parts.scheme ≠ text "file" then .ok none
    else
      let netloc := percentDecode parts.netloc
      let path := percentDecode parts.path
      if netloc ≠ [] ∧ path ≠ [] then .ok (some (text "//" ++ netloc ++ path))
      else if hasDrive path then .ok (some (((path.drop 1).take 1).map lowerCode ++ path.drop 2))
      else .ok (some path)

end LuaServer

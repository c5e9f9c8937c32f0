import ApiWorkflow.Text.Digits
import ApiWorkflow.Text.Search

/-! # URI references

The grammar of RFC 3986: a scheme, an authority, a path, a query and a fragment,
of which only the path has to be there, and may be empty.
-/

namespace ApiWorkflow.UriReference

open Text

def isUnreserved (c : Char) : Bool :=
  c.isAlphanum || c == '-' || c == '.' || c == '_' || c == '~'

def isSubDelimiter (c : Char) : Bool :=
  ['!', '$', '&', '\'', '(', ')', '*', '+', ',', ';', '='].contains c

/-- A character of a name. -/
def isNameChar (c : Char) : Bool :=
  isUnreserved c || isSubDelimiter c

/-- A character of a path, a query or a fragment. -/
def isPathChar (c : Char) : Bool :=
  isNameChar c || c == ':' || c == '@' || c == '/'

def isQueryChar (c : Char) : Bool :=
  isPathChar c || c == '?'

def isUserChar (c : Char) : Bool :=
  isNameChar c || c == ':'

/-- Text of some characters and of escaped bytes. -/
def isEscapedText (allowed : Char → Bool) : List Char → Bool
  | [] => true
  | '%' :: a :: b :: cs => isHex a && isHex b && isEscapedText allowed cs
  | c :: cs => allowed c && isEscapedText allowed cs

/-- A number of at most 255 without a leading zero. -/
def isOctet (cs : List Char) : Bool :=
  (cs == ['0'] || cs.head? != some '0') && (numeral? 10 cs).any (· ≤ 255)

/-- Four octets. -/
def isIpv4 (cs : List Char) : Bool :=
  let octets := cutAt '.' cs
  octets.length == 4 && octets.all isOctet

/-- Up to four hexadecimal digits. -/
def isGroup (cs : List Char) : Bool :=
  !cs.isEmpty && cs.length ≤ 4 && cs.all isHex

/-- How many groups of an address there are, none if one is wrong. The last two may
    be written as four octets if that is allowed. -/
def groupCount? (octetsAllowed : Bool) : List (List Char) → Option Nat
  | [] => some 0
  | [group] =>
    if isGroup group then some 1
    else if octetsAllowed && isIpv4 group then some 2 else none
  | group :: groups =>
    if isGroup group then (groupCount? octetsAllowed groups).map (· + 1) else none

/-- The groups of a part of an address, which may be empty. -/
def groupsOf (cs : List Char) : List (List Char) :=
  if cs.isEmpty then [] else cutAt ':' cs

/-- Eight groups, of which a run of zeros may be left out once. -/
def isIpv6 (cs : List Char) : Bool :=
  match splitAtFirst [':', ':'] cs with
  | none => groupCount? true (groupsOf cs) == some 8
  | some (left, right) =>
    match groupCount? false (groupsOf left), groupCount? true (groupsOf right) with
    | some a, some b => a + b ≤ 7
    | _, _ => false

/-- An address of a later version. -/
def isLaterAddress : List Char → Bool
  | c :: cs =>
    (c == 'v' || c == 'V') &&
      match splitAtFirst ['.'] cs with
      | some (version, address) =>
        !version.isEmpty && version.all isHex && !address.isEmpty && address.all isUserChar
      | none => false
  | [] => false

/-- What follows a host. -/
def isPortPart : List Char → Bool
  | [] => true
  | ':' :: digits => digits.all Char.isDigit
  | _ => false

/-- A host, perhaps with a port. -/
def isHostPort : List Char → Bool
  | '[' :: cs =>
    match splitAtFirst [']'] cs with
    | some (address, rest) => (isIpv6 address || isLaterAddress address) && isPortPart rest
    | none => false
  | cs =>
    isEscapedText isNameChar (cs.takeWhile (· != ':')) && isPortPart (cs.dropWhile (· != ':'))

/-- A host, perhaps with a user and a port. -/
def isAuthority (cs : List Char) : Bool :=
  match splitAtFirst ['@'] cs with
  | some (user, rest) => isEscapedText isUserChar user && isHostPort rest
  | none => isHostPort cs

def isPath (cs : List Char) : Bool :=
  isEscapedText isPathChar cs

/-- An authority and a path, or a path alone. -/
def isHierarchy : List Char → Bool
  | '/' :: '/' :: cs =>
    isAuthority (cs.takeWhile (· != '/')) && isPath (cs.dropWhile (· != '/'))
  | cs => isPath cs

def isSchemeChar (c : Char) : Bool :=
  c.isAlphanum || c == '+' || c == '-' || c == '.'

/-- A letter, followed by letters, digits and a few marks. -/
def isScheme : List Char → Bool
  | c :: cs => c.isAlpha && cs.all isSchemeChar
  | [] => false

/-- What stands in front of the query and the fragment: a colon in the first part
    of the path ends a scheme. -/
def isFront (cs : List Char) : Bool :=
  match splitAtFirst [':'] (cs.takeWhile (· != '/')) with
  | some (scheme, _) => isScheme scheme && isHierarchy (cs.drop (scheme.length + 1))
  | none => isHierarchy cs

/-- The query, if there is one, and what stands in front of it. -/
def isWithQuery (cs : List Char) : Bool :=
  match splitAtFirst ['?'] cs with
  | some (front, query) => isFront front && isEscapedText isQueryChar query
  | none => isFront cs

/-- Whether a text is a URI reference. -/
def isReference (cs : List Char) : Bool :=
  match splitAtFirst ['#'] cs with
  | some (front, fragment) => isWithQuery front && isEscapedText isQueryChar fragment
  | none => isWithQuery cs

end ApiWorkflow.UriReference

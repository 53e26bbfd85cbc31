import Mathlib.Data.Char
import Mathlib.Data.List.Lex
import Mathlib.Data.List.Sort
import Mathlib.Data.Prod.Lex
import OmniSense.Library.Reflow
import OmniSense.Library.Percent
import OmniSense.Models.Common

/-! `canonicalize_url`, over the parts of `urllib.parse` that it uses. `ValueError` is `none`. -/

namespace OmniSense.Enrichment.Url

open Library Library.Percent

structure Unicode where
  -- `str.lower`.
  lower : List Char → List Char
  -- `host.encode("idna").decode("ascii")`; `none` where it raises.
  idna : List Char → Option (List Char)
  nfkc : List Char → List Char
  -- `urlsplit` accepts what a netloc has in its brackets.
  bracketed : List Char → Bool

/-! ## `urllib.parse` -/

structure SplitResult where
  scheme : List Char
  netloc : List Char
  path : List Char
  query : List Char
  fragment : List Char
  deriving DecidableEq

variable (c : Char)

variable (s : List Char)

/-- The first part of `s.partition(c)`. -/
def before : List Char := s.takeWhile (· ≠ c)

/-- The last part of `s.partition(c)`. -/
def after : List Char := (s.dropWhile (· ≠ c)).drop 1

/-- The last part of `s.rpartition(c)`. -/
def afterLast : List Char := (s.reverse.takeWhile (· ≠ c)).reverse

def isSchemeChar : Bool := c.isAlphanum || c = '+' || c = '-' || c = '.'

variable (url : List Char)

def splitScheme : List Char × List Char :=
  let scheme := before ':' url
  if ':' ∈ url ∧ (scheme.head?.any Char.isAlpha) ∧ scheme.all isSchemeChar then
    (scheme.map Char.toLower, after ':' url)
  else ([], url)

def isNetlocEnd : Bool := c = '/' || c = '?' || c = '#'

/-- `_splitnetloc`, after a double slash. -/
def splitNetloc (rest : List Char) : List Char × List Char :=
  match rest with
  | '/' :: '/' :: rest => (rest.takeWhile (!isNetlocEnd ·), rest.dropWhile (!isNetlocEnd ·))
  | rest => ([], rest)

def prepared : List Char :=
  (url.dropWhile fun c => c.toNat ≤ 32).filter fun c => c ≠ '\t' ∧ c ≠ '\r' ∧ c ≠ '\n'

namespace Unicode

variable (py : Unicode)

def bracketsAccepted (netloc : List Char) : Bool :=
  if '[' ∈ netloc ∧ ']' ∈ netloc then py.bracketed netloc
  else '[' ∉ netloc ∧ ']' ∉ netloc

/-- `_checknetloc`: no delimiter comes out of a compatibility character. -/
def checkNetloc (netloc : List Char) : Bool :=
  let n := netloc.filter fun c => c ≠ '@' ∧ c ≠ ':' ∧ c ≠ '#' ∧ c ≠ '?'
  netloc.all isAscii || n = py.nfkc n ||
    (py.nfkc n).all fun c => !isNetlocEnd c && c ≠ '@' && c ≠ ':'

def urlsplit (url : List Char) : Option SplitResult :=
  let (scheme, rest) := splitScheme (prepared url)
  let (netloc, rest) := splitNetloc rest
  if py.bracketsAccepted netloc ∧ py.checkNetloc netloc then
    let locator := before '#' rest
    some ⟨scheme, netloc, before '?' locator, after '?' locator, after '#' rest⟩
  else none

end Unicode

/-- `_hostinfo`: the host as it is written, and the text of the port. -/
def hostinfo (netloc : List Char) : List Char × List Char :=
  let info := afterLast '@' netloc
  if '[' ∈ info then
    let bracketed := after '[' info
    (before ']' bracketed, after ':' (after ']' bracketed))
  else (before ':' info, after ':' info)

/-- `hostname`: lower case up to the zone. -/
def Unicode.hostname (py : Unicode) (netloc : List Char) : List Char :=
  let host := (hostinfo netloc).1
  py.lower (before '%' host) ++ host.dropWhile (· ≠ '%')

/-- The digits `int` reads at most. -/
def MAX_STR_DIGITS : ℕ := 4300

/-- `port`, of a text that holds one. -/
def readPort (text : List Char) : Option ℕ :=
  let port := Nat.ofDigitChars 10 text 0
  if text.all Char.isDigit ∧ text.length ≤ MAX_STR_DIGITS ∧ port ≤ 65535 then some port else none

def unquotePlus : List Char := unquote (s.map fun c => if c = '+' then ' ' else c)

/-- `parse_qsl`, blank values kept. -/
def parseQsl (query : List Char) : List (List Char × List Char) :=
  if query = [] then []
  else ((query.splitOn '&').filter (· ≠ [])).map fun nameValue =>
    (unquotePlus (before '=' nameValue), unquotePlus (after '=' nameValue))

/-- `_ALWAYS_SAFE`, and `_UNRESERVED`. -/
def isUnreserved : Bool := c.isAlphanum || c = '-' || c = '.' || c = '_' || c = '~'

/-- `urlencode`, with `quote` and nothing safe. -/
def urlencode (pairs : List (List Char × List Char)) : List Char :=
  ['&'].intercalate (pairs.map fun pair =>
    quote isUnreserved pair.1 ++ '=' :: quote isUnreserved pair.2)

/-- `urlunsplit`, with a netloc and no fragment. -/
def urlunsplit (scheme netloc path query : List Char) : List Char :=
  let path := if path ≠ [] ∧ path.head? ≠ some '/' then '/' :: path else path
  let url := '/' :: '/' :: netloc ++ path
  let url := if scheme ≠ [] then scheme ++ ':' :: url else url
  if query ≠ [] then url ++ '?' :: query else url

/-! ## Canonical parts -/

def DEFAULT_PORTS : List (List Char × ℕ) :=
  [("http".toList, 80), ("https".toList, 443), ("ws".toList, 80), ("wss".toList, 443),
    ("ftp".toList, 21)]

def TRACKING_PARAM_PREFIXES : List (List Char) :=
  ["utm_", "pk_", "mtm_", "matomo_", "piwik_", "hsa_", "vero_"].map String.toList

def TRACKING_PARAMS : List (List Char) :=
  ["fbclid", "gclid", "gclsrc", "dclid", "wbraid", "gbraid", "msclkid", "twclid", "ttclid",
    "igshid", "igsh", "yclid", "li_fat_id", "mkt_tok", "mc_cid", "mc_eid", "_hsenc", "_hsmi",
    "hsctatracking", "s_kwcid", "ef_id", "trk", "trkcampaign", "icid", "ncid", "spm", "scm",
    "ref_src", "ref_url", "guccounter", "guce_referrer", "guce_referrer_sig", "at_medium",
    "at_campaign", "_openstat", "wt_mc", "wt_zmc", "action_object_map", "action_type_map",
    "action_ref_map", "__twitter_impression", "cmpid", "cvid"].map String.toList

/-- `_PATH_SAFE`, and what is safe always. -/
def isPathSafe : Bool := isUnreserved c || c ∈ "/-._~!$&'()*+,;=:@".toList

/-- The loop of `_remove_dot_segments`. -/
@[grind =] def resolveDots (output : List (List Char)) : List (List Char) → List (List Char)
  | [] => output
  | segment :: rest =>
    if segment = ['.'] then resolveDots (if rest = [] then output ++ [[]] else output) rest
    else if segment = ['.', '.'] then
      let output := if 1 < output.length then output.dropLast else output
      resolveDots (if rest = [] then output ++ [[]] else output) rest
    else resolveDots (output ++ [segment]) rest

def removeDotSegments (path : List Char) : List Char :=
  if '.' ∉ path then path
  else
    let resolved := ['/'].intercalate (resolveDots [] (path.splitOn '/'))
    if path.head? = some '/' ∧ resolved.head? ≠ some '/' then '/' :: resolved else resolved

def canonicalPath (path : List Char) : List Char :=
  let normalized := normalizeEscapes isPathSafe isUnreserved (removeDotSegments path)
  if normalized = [] then ['/'] else normalized

def canonicalPort (scheme : List Char) (port : Option ℕ) : Option ℕ :=
  port.filter fun port => (scheme, port) ∉ DEFAULT_PORTS

/-- The order of `pairs.sort()`. -/
def pairLe (a b : List Char × List Char) : Bool := a.1 < b.1 ∨ a.1 = b.1 ∧ a.2 ≤ b.2

def netlocOf (host : List Char) (port : Option ℕ) : List Char :=
  host ++ (port.map fun port => ':' :: Nat.toDigits 10 port).getD []

namespace Unicode

variable (py : Unicode)

def isTrackingParam (name : List Char) : Bool :=
  py.lower name ∈ TRACKING_PARAMS || TRACKING_PARAM_PREFIXES.any (·.isPrefixOf (py.lower name))

def canonicalQuery (query : List Char) : List Char :=
  let pairs := (parseQsl query).filter fun pair => !py.isTrackingParam pair.1
  urlencode (pairs.insertionSort fun a b => pairLe a b)

def canonicalHost (host : List Char) : List Char :=
  let host := py.lower ((stripEnds isSpace host).rdropWhile (· = '.'))
  if host.all isAscii then host else (py.idna host).getD (py.nfkc host)

def canonicalNetloc (scheme netloc : List Char) : Option (List Char) :=
  let host := py.canonicalHost (py.hostname netloc)
  let port := (hostinfo netloc).2
  if host = [] then some []
  else if port = [] then some host
  else (readPort port).map fun port => netlocOf host (canonicalPort scheme (some port))

end Unicode

/-! ## The canonical form -/

/-- `_strip_control_characters` of the stripped text. -/
def candidate : List Char :=
  (stripEnds isSpace url).filter fun c => 0x20 ≤ c.toNat

namespace Unicode

variable (py : Unicode)

def canonicalOf (parts : SplitResult) : Option (List Char) :=
  if parts.netloc = [] then
    if parts.scheme = [] then some []
    else some (parts.scheme ++ ':' :: parts.path ++
      if parts.query ≠ [] then '?' :: parts.query else [])
  else (py.canonicalNetloc parts.scheme parts.netloc).map fun netloc =>
    if netloc = [] then []
    else urlunsplit parts.scheme netloc (canonicalPath parts.path) (py.canonicalQuery parts.query)

/-- `canonicalize_url` without a base, which no caller gives. -/
def canonicalizeUrl (resolver : Option (List Char → Option (List Char))) (url : List Char) :
    Option (List Char) :=
  if stripEnds isSpace url = [] then some []
  else
    let given := candidate url
    let resolved := ((resolver.bind fun resolve => resolve given).filter fun text =>
      stripEnds isSpace text ≠ []).map candidate
    (py.urlsplit (resolved.getD given)).bind py.canonicalOf

end Unicode

end OmniSense.Enrichment.Url

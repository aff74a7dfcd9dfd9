import PacketGuard.Core.Ip

/-! Indicators of compromise: their normal forms, the type inference and the
line parser of `ioc/ioc.cpp`. -/
namespace PacketGuard.Ioc
open PacketGuard.Core

inductive IocType
  | ip
  | cidr
  | domain
  | url
  | hash
  | unknown
  deriving DecidableEq, Repr

inductive ListRole
  | indicator
  | allow
  | block
  deriving DecidableEq, Repr

/-- The number `confidence` is left out: it is computed in floating point, and no
decision depends on it. -/
structure Indicator where
  type : IocType := .unknown
  role : ListRole := .indicator
  raw : Str := []
  normalized : Str := []
  source : Str := []
  severity : Str := "medium".toList
  ip : Option IPv4Address := none
  cidr : Option CIDRRange := none
  attributes : StrMap Str := ∅

def typeName : IocType → Str
  | .ip => "ip".toList
  | .cidr => "cidr".toList
  | .domain => "domain".toList
  | .url => "url".toList
  | .hash => "hash".toList
  | .unknown => "unknown".toList

def roleName : ListRole → Str
  | .allow => "allow".toList
  | .block => "block".toList
  | .indicator => "indicator".toList

def indicatorKey (ind : Indicator) : Str :=
  typeName ind.type ++ [':'] ++ roleName ind.role ++ [':'] ++ ind.normalized

def parseRole (value : Str) : Option ListRole :=
  let v := toLower (trim value)
  if v = "allow".toList ∨ v = "allowlist".toList ∨ v = "whitelist".toList then some .allow
  else if v = "block".toList ∨ v = "blocklist".toList ∨ v = "deny".toList ∨
      v = "denylist".toList then some .block
  else if v = "indicator".toList ∨ v = "ioc".toList ∨ v = "detect".toList then some .indicator
  else none

/-! ## Normal forms -/

def stripTrailingDot (v : Str) : Str := v.rdropWhile (· == '.')

/-- The leading `*.` and `.` that `normalize_domain` removes. -/
def stripWildcard (v : Str) : Str :=
  let v := if startsWith v "*.".toList then substr 2 v else v
  if startsWith v ".".toList then substr 1 v else v

def normalizeDomain (domain : Str) : Str :=
  stripWildcard (toLower (stripTrailingDot (trim domain)))

/-- The tests of `is_valid_domain` on one label. -/
def validLabel (label : Str) : Bool :=
  !(label.isEmpty || 63 < label.length || label.head? == some '-' || label.getLast? == some '-') &&
    label.all fun c => isAlnum c || c == '-'

def isValidDomain (domain : Str) : Bool :=
  let d := normalizeDomain domain
  if d.isEmpty || 253 < d.length || (find '.' d).isNone then false
  else (split d '.' true).all validLabel

/-- One pass of `regex_replace(path, "//+", "/")`; `after` says that the last
character was a slash. -/
def replaceSlashes (after : Bool) : Str → Str
  | [] => []
  | c :: rest =>
    if c = '/' then
      if after then replaceSlashes true rest else '/' :: replaceSlashes true rest
    else c :: replaceSlashes false rest

theorem length_replaceSlashes_le (after : Bool) (path : Str) :
    (replaceSlashes after path).length ≤ path.length := by
  induction path generalizing after with
  | nil => exact Nat.le_refl 0
  | cons c rest ih =>
    have htrue := ih true
    have hfalse := ih false
    unfold replaceSlashes
    split
    · split
      · exact Nat.le_succ_of_le htrue
      · exact Nat.succ_le_succ htrue
    · exact Nat.succ_le_succ hfalse

/-- A pass shortens a path that holds a double slash. -/
theorem length_replaceSlashes_lt {path : Str} (h : (findStr "//".toList path).isSome) :
    (replaceSlashes false path).length < path.length := by
  induction path with
  | nil => simp [findStr] at h
  | cons c rest ih =>
    have hle := length_replaceSlashes_le true rest
    by_cases hc : c = '/'
    · subst hc
      rw [replaceSlashes, if_pos rfl, if_neg (by simp), List.length_cons, List.length_cons]
      cases rest with
      | nil => simp [findStr] at h
      | cons d rest =>
        by_cases hd : d = '/'
        · subst hd
          have hle := length_replaceSlashes_le true rest
          rw [replaceSlashes, if_pos rfl, if_pos rfl, List.length_cons]
          omega
        · have hrest : (findStr "//".toList (d :: rest)).isSome := by
            simpa [findStr, Ne.symm hd] using h
          have hlt := ih hrest
          rw [replaceSlashes, if_neg hd] at hlt ⊢
          omega
    · have hrest : (findStr "//".toList rest).isSome := by
        simpa [findStr, Ne.symm hc] using h
      have hlt := ih hrest
      rw [replaceSlashes, if_neg hc, List.length_cons, List.length_cons]
      omega

/-- `while (path.find("//") != npos) path = regex_replace(path, "//+", "/")`. -/
def collapseSlashes (path : Str) : Str :=
  if _h : (findStr "//".toList path).isSome then collapseSlashes (replaceSlashes false path)
  else path
termination_by path.length
decreasing_by exact length_replaceSlashes_lt _h

def normalizeUrl (url : Str) : Str :=
  let v := trim url
  let (scheme, v) :=
    match findStr "://".toList v with
    | some pos => (toLower (v.take pos), substr (pos + 3) v)
    | none => ("http".toList, v)
  let (host, path) :=
    match find '/' v with
    | some slash => (v.take slash, substr slash v)
    | none => (v, "/".toList)
  let host :=
    match rfind '@' host with
    | some pos => substr (pos + 1) host
    | none => host
  let (host, port) :=
    match rfind ':' host with
    | some colon =>
      if (find ']' host).isNone then (host.take colon, substr (colon + 1) host) else (host, [])
    | none => (host, [])
  let host := normalizeDomain host
  let port :=
    if (scheme = "http".toList ∧ port = "80".toList) ∨
        (scheme = "https".toList ∧ port = "443".toList) then [] else port
  let path := collapseSlashes path
  scheme ++ "://".toList ++ host ++ (if port.isEmpty then [] else ':' :: port) ++ path

def normalizeHash (value : Str) : Str :=
  let v := toLower (trim value)
  let v :=
    match find ':' v with
    | some colon => substr (colon + 1) v
    | none => v
  toLower (v.filter isXDigit)

def hashLengthIsKnown (hash : Str) : Bool :=
  let len := (normalizeHash hash).length
  len == 32 || len == 40 || len == 56 || len == 64 || len == 96 || len == 128

def domainMatches (indicatorDomain observedDomain : Str) : Bool :=
  let ind := normalizeDomain indicatorDomain
  let obs := normalizeDomain observedDomain
  if ind.isEmpty || obs.isEmpty then false else obs == ind || endsWith obs ('.' :: ind)

/-- The host part of a normalized URL, as the matchers cut it out. -/
def urlHost (normalized : Str) : Str :=
  let rest :=
    match findStr "://".toList normalized with
    | some scheme => substr (scheme + 3) normalized
    | none => normalized
  match find '/' rest with
  | some slash => rest.take slash
  | none => rest

/-! ## Lines -/

def inferIocType (value : Str) : Option IocType :=
  let v := trim value
  if v.isEmpty then none
  else if (parseCidr v).isSome then
    if (find '/' v).isNone then some .ip else some .cidr
  else
    let h := normalizeHash v
    if 32 ≤ h.length ∧ isHexString h ∧ hashLengthIsKnown h then some .hash
    else
      let low := toLower v
      if startsWith low "http://".toList || startsWith low "https://".toList then some .url
      else if isValidDomain v || (startsWith v "*.".toList && isValidDomain (substr 2 v)) then
        some .domain
      else none

/-- `parse_attributes`, from the fields that are left. -/
def parseAttributes (fields : List Str) : StrMap Str :=
  fields.foldl
    (fun attrs field =>
      let f := trim field
      match find '=' f with
      | none => attrs
      | some eq =>
        attrs.insert (toLower (trim (f.take eq))) (stripQuotes (trim (substr (eq + 1) f))))
    ∅

/-- The type that the first field names when it is not itself an indicator. -/
def typeOfToken (token : Str) : Option IocType :=
  if token = "ip".toList then some .ip
  else if token = "cidr".toList then some .cidr
  else if token = "domain".toList ∨ token = "host".toList then some .domain
  else if token = "url".toList then some .url
  else if token = "hash".toList ∨ token = "md5".toList ∨ token = "sha1".toList ∨
      token = "sha256".toList then some .hash
  else none

/-- The fields of a line without its comment. -/
def indicatorFields (clean : Str) : List Str :=
  if ',' ∈ clean then split clean ','
  else if '|' ∈ clean then split clean '|'
  else splitWs clean

/-- The `switch` of `parse_indicator_line`: check the value and normalize it. -/
def completeIndicator (ind : Indicator) (value : Str) : Result Indicator :=
  match ind.type with
  | .ip =>
    match parseIpv4 value with
    | none => failure "invalid IPv4 indicator"
    | some ip => .ok { ind with ip := some ip, normalized := ipv4ToString ip }
  | .cidr =>
    match parseCidr value with
    | none => failure "invalid CIDR indicator"
    | some cidr => .ok { ind with cidr := some cidr, normalized := cidr.toString }
  | .domain =>
    if !isValidDomain value &&
        !(startsWith value "*.".toList && isValidDomain (substr 2 value)) then
      failure "invalid domain indicator"
    else .ok { ind with normalized := normalizeDomain value }
  | .url => .ok { ind with normalized := normalizeUrl value }
  | .hash =>
    let normalized := normalizeHash value
    if !hashLengthIsKnown normalized then failure "hash length is not recognized"
    else .ok { ind with normalized := normalized }
  | .unknown => failure "unknown indicator type"

def parseIndicatorLine (line : Str) (lineNumber : Nat := 0) : Result Indicator :=
  let clean := trim (removeComment line)
  if clean.isEmpty then failure "empty indicator line"
  else
    match indicatorFields clean with
    | [] => failure "no indicator fields"
    | first :: rest =>
      let named :=
        if (inferIocType first).isNone ∧ rest ≠ [] then typeOfToken (toLower (trim first)) else none
      -- the value is the second field exactly when the first one names the type
      let (type, field, rest) :=
        match named, rest with
        | some type, field :: rest => (some type, field, rest)
        | _, _ => (inferIocType first, first, rest)
      match type with
      | none =>
        .error (Status.failure ("unrecognized indicator on line ".toList ++ natToString lineNumber))
      | some type =>
        let value := stripQuotes (trim field)
        let role := (rest.head?.bind parseRole).getD .indicator
        let attributes := parseAttributes rest
        completeIndicator
          { type := type
            role := role
            raw := clean
            attributes := attributes
            severity := (attributes["severity".toList]?.map toLower).getD "medium".toList }
          value

end PacketGuard.Ioc

import PacketGuard.Core.Comments

/-! Key/value settings: the INI, CSV and JSON-like readers of
`policy/policy.cpp`.  Each returns the settings it finds and the diagnostics it
adds to the object it is given. -/
namespace PacketGuard.Policy
open PacketGuard.Core

/-- `section_` is the field `section`. -/
structure PolicyKV where
  section_ : Str
  key : Str
  value : Str
  line : Nat := 0
  deriving DecidableEq, Repr

/-! ## INI -/

/-- The loop of `parse_ini_policy`, in the section `section_` after `n` lines. -/
def parseIniLines (section_ : Str) (n : Nat) : List Str → List PolicyKV × Diagnostics
  | [] => ([], [])
  | line :: lines =>
    let clean := trim (removeComment line)
    if clean.isEmpty then parseIniLines section_ (n + 1) lines
    else if clean.head? = some '[' ∧ clean.getLast? = some ']' then
      parseIniLines (trim ((substr 1 clean).take (clean.length - 2))) (n + 1) lines
    else
      let later := parseIniLines section_ (n + 1) lines
      match find '=' clean with
      | none =>
        (later.1,
          Diagnostics.warn "policy.ini".toList "line lacks key/value separator".toList (n + 1) ++
            later.2)
      | some eq =>
        (⟨section_, toLower (trim (clean.take eq)), stripQuotes (trim (substr (eq + 1) clean)),
          n + 1⟩ ::
          later.1, later.2)

def parseIniPolicy (text : Str) : List PolicyKV × Diagnostics :=
  parseIniLines [] 0 (getlines '\n' text)

/-! ## CSV -/

/-- The loop of `csv_split_line`: `cur` is the field read so far, `quote` says
that a quote is open. -/
def csvSplitFrom (cur : Str) (quote : Bool) : Str → List Str
  | [] => [trim cur]
  | c :: rest =>
    if c = '"' then
      -- a doubled quote inside quotes stands for one quote
      match rest with
      | d :: rest' =>
        if quote ∧ d = '"' then csvSplitFrom (cur ++ ['"']) quote rest'
        else csvSplitFrom cur (!quote) (d :: rest')
      | [] => csvSplitFrom cur (!quote) []
    else if c = ',' ∧ quote = false then trim cur :: csvSplitFrom [] quote rest
    else csvSplitFrom (cur ++ [c]) quote rest

def csvSplitLine (line : Str) : List Str := csvSplitFrom [] false line

/-- The settings of the row in line `n`. -/
def csvRow (headers cols : List Str) (n : Nat) : List PolicyKV :=
  (cols.zip headers).map fun col => ⟨"row".toList ++ natToString n, col.2, stripQuotes col.1, n⟩

/-- The loop of `parse_csv_policy`, after `n` lines. -/
def parseCsvLines (headers : List Str) (n : Nat) : List Str → List PolicyKV × Diagnostics
  | [] => ([], [])
  | line :: lines =>
    let clean := trim line
    if clean.isEmpty then parseCsvLines headers (n + 1) lines
    else
      let cols := csvSplitLine clean
      if headers.isEmpty then
        parseCsvLines (cols.map fun c => toLower (stripQuotes c)) (n + 1) lines
      else
        let later := parseCsvLines headers (n + 1) lines
        (csvRow headers cols (n + 1) ++ later.1,
          (if cols.length ≠ headers.length then
            Diagnostics.warn "policy.csv".toList "row column count differs from header".toList
              (n + 1)
          else []) ++ later.2)

def parseCsvPolicy (text : Str) : List PolicyKV × Diagnostics :=
  parseCsvLines [] 0 (getlines '\n' text)

/-! ## JSON -/

/-- A string up to the next quote, and what follows the quote. -/
def untilQuote (text : Str) : Option (Str × Str) :=
  let value := text.takeWhile (· ≠ '"')
  match text.drop value.length with
  | [] => none
  | _ :: rest => some (value, rest)

/-- `-?[0-9]+` at the start of the text, and what follows it. -/
def jsonNumber (text : Str) : Option (Str × Str) :=
  let sign : Str := if text.head? = some '-' then ['-'] else []
  let digits := (text.drop sign.length).takeWhile isDigit
  if digits.isEmpty then none else some (sign ++ digits, text.drop (sign ++ digits).length)

/-- The value of a pair, and what follows it: the second group of the regular
expression, without the quotes of a string. -/
def jsonValue (text : Str) : Option (Str × Str) :=
  if text.head? = some '"' then untilQuote (text.drop 1)
  else
    match ["true", "false", "null"].find? fun word => startsWith text word.toList with
    | some word => some (word.toList, text.drop word.toList.length)
    | none => jsonNumber text

/-- The regular expression `"([^"]+)"\s*:\s*("([^"]*)"|true|false|null|-?[0-9]+)`
at the start of the text: the key, the value and what follows the match. -/
def jsonPair (text : Str) : Option (Str × Str × Str) :=
  if text.head? ≠ some '"' then none
  else
    match untilQuote (text.drop 1) with
    | none => none
    | some (key, rest) =>
      let rest := rest.dropWhile isSpace
      if key.isEmpty ∨ rest.head? ≠ some ':' then none
      else
        match jsonValue ((rest.drop 1).dropWhile isSpace) with
        | none => none
        | some (value, after) => some (key, value, after)

/-- `std::sregex_iterator`: all matches, from left to right and without overlap;
`taken` characters still belong to the previous match. -/
def jsonPairsFrom (taken : Nat) : Str → List (Str × Str)
  | [] => []
  | c :: rest =>
    match taken with
    | taken + 1 => jsonPairsFrom taken rest
    | 0 =>
      match jsonPair (c :: rest) with
      | none => jsonPairsFrom 0 rest
      | some (key, value, after) => (key, value) :: jsonPairsFrom (rest.length - after.length) rest

/-- The line of a JSON setting is its number among the settings. -/
def parseJsonLikePolicy (text : Str) : List PolicyKV × Diagnostics :=
  let out : List PolicyKV := ((jsonPairsFrom 0 text).zipIdx 1).map fun pair =>
    ⟨"json".toList, toLower pair.1.1, pair.1.2, pair.2⟩
  (out,
    if out.isEmpty then
      Diagnostics.warn "policy.json".toList "no simple JSON properties were extracted".toList
    else [])

end PacketGuard.Policy

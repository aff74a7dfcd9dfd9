import PacketGuard.Ioc.Indicator

/-! # URLs in indicator lines

A URL indicator written without quotes never arrives: `remove_comment` takes the
`//` behind its scheme for a comment, and what is left of the line, `http:` or
`https:`, has no indicator type.
-/
namespace PacketGuard.Ioc
open PacketGuard.Core

/-- A URL as indicator lists write it: scheme, valid host, optional port and a
path without white space, delimiters, quotes or another `//`. -/
structure UnquotedUrl where
  secure : Bool
  host : Str
  port : Option Str
  path : Str
  host_valid : isValidDomain host = true
  port_decimal : port.all isDecimal = true
  path_start : path = [] ∨ path.head? = some '/'
  path_plain : path.all (fun c => !isSpace c && !([',', '|', '#', '"', '\''].contains c)) = true
  path_single : findStr "//".toList path = none

def schemeText (secure : Bool) : Str := if secure then "https".toList else "http".toList

def UnquotedUrl.text (u : UnquotedUrl) : Str :=
  schemeText u.secure ++ ("://".toList ++ (u.host ++ (u.port.elim [] (':' :: ·) ++ u.path)))

/-- The line with the URL and a role is read as that URL with that role. -/
def UnquotedUrl.Ingested (u : UnquotedUrl) (role : Str) (lineNumber : Nat) : Prop :=
  ∃ ind, parseIndicatorLine (u.text ++ ' ' :: role) lineNumber = .ok ind ∧ ind.type = .url ∧
    ind.normalized = normalizeUrl u.text ∧ some ind.role = parseRole role

/-- The comment starts behind the scheme. -/
theorem removeComment_url (secure : Bool) (rest : Str) :
    removeComment (schemeText secure ++ ("://".toList ++ rest)) = schemeText secure ++ [':'] := by
  cases secure <;> rfl

/-- What is left has no type. -/
theorem parseIndicatorLine_url (secure : Bool) (rest : Str) (lineNumber : Nat) :
    parseIndicatorLine (schemeText secure ++ ("://".toList ++ rest)) lineNumber =
      .error (Status.failure
        ("unrecognized indicator on line ".toList ++ natToString lineNumber)) := by
  unfold parseIndicatorLine
  rw [removeComment_url]
  cases secure <;> rfl

/-- **No unquoted URL is ingested**, whatever role follows it. -/
theorem UnquotedUrl.not_ingested (u : UnquotedUrl) (role : Str) (lineNumber : Nat) :
    ¬ u.Ingested role lineNumber := by
  rintro ⟨ind, hline, -⟩
  unfold UnquotedUrl.text at hline
  rw [List.append_assoc, List.append_assoc, parseIndicatorLine_url] at hline
  cases hline

/-- `http://malware.test/payload.exe` -/
def malwareUrl : UnquotedUrl where
  secure := false
  host := "malware.test".toList
  port := none
  path := "/payload.exe".toList
  host_valid := rfl
  port_decimal := rfl
  path_start := Or.inr rfl
  path_plain := rfl
  path_single := rfl

/-- The line `http://malware.test/payload.exe block` is lost. -/
theorem not_ingested_malwareUrl :
    malwareUrl.text = "http://malware.test/payload.exe".toList ∧
      (parseRole "block".toList).isSome = true ∧ ¬ malwareUrl.Ingested "block".toList 2 := by
  refine ⟨rfl, rfl, ?_⟩
  rintro ⟨ind, hline, -⟩
  have hlost : parseIndicatorLine (malwareUrl.text ++ ' ' :: "block".toList) 2 =
      .error (Status.failure "unrecognized indicator on line 2".toList) := rfl
  rw [hlost] at hline
  cases hline

end PacketGuard.Ioc

import Mathlib

/-! Status values, results and diagnostics (`core/result.hpp`,
`core/diagnostics.cpp`).  A C++ `std::string` is a list of characters, one
character per byte; the functions of the model look at ASCII characters only
and leave every other one alone, as the C locale does. -/
namespace PacketGuard.Core

/-- A `std::string`. -/
abbrev Str := List Char

/-- `std::map<std::string, V>`, iterated in increasing key order. -/
abbrev StrMap (V : Type) := Std.ExtTreeMap Str V compare

inductive Severity
  | info
  | warning
  | error
  deriving DecidableEq, Repr

structure Status where
  ok : Bool := true
  message : Str := []
  severity : Severity := .info
  deriving DecidableEq, Repr

/-- `Status::failure`. -/
def Status.failure (msg : Str) : Status := ⟨false, msg, .error⟩

/-- `Result<T>`: a value, or the status that explains its absence. -/
abbrev Result (α : Type) := Except Status α

/-- `Status::failure` with a fixed text, as the result of a parser. -/
def failure {α : Type} (msg : String) : Result α := .error (Status.failure msg.toList)

@[simp] theorem failure_ne_ok {α : Type} (msg : String) (a : α) : failure msg ≠ .ok a := by
  simp [failure]

structure Diagnostic where
  severity : Severity := .info
  code : Str
  message : Str
  offset : Nat := 0
  deriving DecidableEq, Repr

/-- The entries of a `Diagnostics` object, oldest first. -/
abbrev Diagnostics := List Diagnostic

/-- `Diagnostics::info`, as the one entry it appends. -/
def Diagnostics.info (code message : Str) (offset : Nat := 0) : Diagnostics :=
  [⟨.info, code, message, offset⟩]

/-- `Diagnostics::warn`, as the one entry it appends. -/
def Diagnostics.warn (code message : Str) (offset : Nat := 0) : Diagnostics :=
  [⟨.warning, code, message, offset⟩]

/-- `Diagnostics::error`, as the one entry it appends. -/
def Diagnostics.error (code message : Str) (offset : Nat := 0) : Diagnostics :=
  [⟨.error, code, message, offset⟩]

end PacketGuard.Core

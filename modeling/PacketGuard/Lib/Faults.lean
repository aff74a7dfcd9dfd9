import Mathlib

/-! Machine operations that are right on part of their arguments only: unsigned
subtraction, conversion to a fixed width, access to a sequence.  A checked
operation returns what the machine computes where that is what is meant, and a
fault elsewhere, so that a program of checked operations that returns has met no
fault on its way.
-/
namespace PacketGuard.Lib

inductive Fault
  /-- An unsigned subtraction below zero. -/
  | underflow
  /-- A number that the type it is stored in cannot hold. -/
  | overflow
  /-- An access outside the sequence. -/
  | outOfRange
  deriving DecidableEq

abbrev Checked (α : Type) := Except Fault α

namespace Checked
variable {α β : Type}

/-- `a - b` of unsigned numbers. -/
def sub (a b : Nat) : Checked Nat := if b ≤ a then .ok (a - b) else .error .underflow

/-- `n`, stored in `width` bits. -/
def fit (width n : Nat) : Checked Nat := if n < 2 ^ width then .ok n else .error .overflow

/-- The low `width` bits of `n`, where losing the others is what is meant. -/
def truncate (width n : Nat) : Checked Nat := .ok (n % 2 ^ width)

/-- The first element. -/
def front : List α → Checked α
  | [] => .error .outOfRange
  | a :: _ => .ok a

/-- The last element. -/
def back (s : List α) : Checked α :=
  match s.getLast? with
  | none => .error .outOfRange
  | some a => .ok a

/-- The elements from a position on, which may be the end. -/
def dropFrom (pos : Nat) (s : List α) : Checked (List α) :=
  if pos ≤ s.length then .ok (s.drop pos) else .error .outOfRange

theorem ok_bind (a : α) (f : α → Checked β) : (Except.ok a : Checked α) >>= f = f a := rfl

theorem sub_eq_ok {a b : Nat} (h : b ≤ a) : sub a b = .ok (a - b) := if_pos h

theorem front_eq_ok {s : List α} {a : α} (h : s.head? = some a) : front s = .ok a := by
  cases s with
  | nil => cases h
  | cons b s =>
    cases h
    rfl

theorem back_eq_ok {s : List α} {a : α} (h : s.getLast? = some a) : back s = .ok a := by
  rw [back, h]

theorem dropFrom_eq_ok {pos : Nat} {s : List α} (h : pos ≤ s.length) :
    dropFrom pos s = .ok (s.drop pos) :=
  if_pos h

theorem fit_eq_ok {width n : Nat} (h : n < 2 ^ width) : fit width n = .ok n := if_pos h

theorem fit_eq_error {width n : Nat} (h : 2 ^ width ≤ n) : fit width n = .error .overflow :=
  if_neg h.not_gt

theorem error_bind (e : Fault) (f : α → Checked β) :
    (Except.error e : Checked α) >>= f = .error e := rfl

end Checked

end PacketGuard.Lib

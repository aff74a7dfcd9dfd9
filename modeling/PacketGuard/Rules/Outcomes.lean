import PacketGuard.Lib.Outcome
import PacketGuard.Rules.Expr

/-! What the parsers of port and address expressions return: ranges in bounds, or
one of a few failures. -/
namespace PacketGuard.Rules
open PacketGuard.Core PacketGuard.Lib

/-- The statuses with which the port and address parsers fail. -/
inductive ExprFailure : Status → Prop
  | emptyPorts : ExprFailure (Status.failure "empty port expression".toList)
  | port : ExprFailure (Status.failure "invalid port".toList)
  | portBound : ExprFailure (Status.failure "port outside range".toList)
  | portRange : ExprFailure (Status.failure "invalid port range".toList)
  | emptyAddress : ExprFailure (Status.failure "empty address expression".toList)
  | address (part : Str) :
      ExprFailure (Status.failure ("invalid address expression: ".toList ++ part))

/-! ## Ports -/

/-- A parsed port expression: `any` has no ranges, and the ranges are in order and
in bounds. -/
structure PortExpr.Valid (e : PortExpr) : Prop where
  ofAny : e.any = true → e.ranges = []
  range : ∀ r ∈ e.ranges, r.1 ≤ r.2 ∧ r.2 ≤ 65535

theorem parsePortNumber_outcome (value : Str) :
    Outcome (· ≤ 65535) ExprFailure (parsePortNumber value) := by
  refine .ite (fun _ => .port) fun _ => ?_
  rcases hvalue : boundedDecimal 32 65535 0 value with _ | port
  · exact .portBound
  · exact boundedDecimal_le (Nat.zero_le _) hvalue

/-- A missing bound of a port range is replaced by a number. -/
theorem portBound_outcome (text : Str) {bound : Nat} (h : bound ≤ 65535) :
    Outcome (· ≤ 65535) ExprFailure (if text.isEmpty then .ok bound else parsePortNumber text) :=
  .ite (fun _ => h) fun _ => parsePortNumber_outcome text

theorem parsePortRange_outcome (token : Str) :
    Outcome (fun r => r.1 ≤ r.2 ∧ r.2 ≤ 65535) ExprFailure (parsePortRange token) := by
  unfold parsePortRange
  dsimp only
  rcases find ':' (trim token) with _ | colon
  · exact (parsePortNumber_outcome _).map fun port hport => ⟨Nat.le_refl _, hport⟩
  · have hlo := portBound_outcome ((trim token).take colon) (Nat.zero_le _)
    have hhi := portBound_outcome (substr (colon + 1) (trim token)) (Nat.le_refl _)
    dsimp only
    -- the lower bound is reported before the upper one
    split
    · rename_i e hresult
      exact hlo.of_eq_error hresult
    · rename_i hresult _
      exact hhi.of_eq_error hresult
    · rename_i lo hi _ hresult
      exact .ite (fun _ => .portRange) fun hle => ⟨Nat.le_of_not_lt hle, hhi.of_eq_ok hresult⟩

theorem parsePortExpr_outcome (token : Str) :
    Outcome PortExpr.Valid ExprFailure (parsePortExpr token) := by
  refine .ite (fun _ => .emptyPorts) fun _ => ?_
  refine .ite (fun _ => ⟨fun _ => rfl, nofun⟩) fun _ => ?_
  exact (Outcome.mapM parsePortRange_outcome _).bind fun ranges hranges => ⟨nofun, hranges⟩

/-! ## Addresses -/

/-- A parsed address expression: `any` has neither ranges nor variables, and the
ranges are masked networks. -/
structure AddressExpr.Valid (e : AddressExpr) : Prop where
  ofAny : e.any = true → e.ranges = [] ∧ e.vars = []
  range : ∀ r ∈ e.ranges, r.prefixLength ≤ 32 ∧ r.masked = r

theorem parseAddressParts_outcome (parts : List Str) {expr : AddressExpr} (hany : expr.any = false)
    (hexpr : ∀ r ∈ expr.ranges, r.prefixLength ≤ 32 ∧ r.masked = r) :
    Outcome AddressExpr.Valid ExprFailure (parseAddressParts expr parts) := by
  induction parts generalizing expr with
  | nil =>
    refine ⟨fun htrue => ?_, hexpr⟩
    rw [hany] at htrue
    cases htrue
  | cons part parts ih =>
    rw [parseAddressParts]
    refine .ite (fun _ => ih hany hexpr) fun _ => ?_
    refine .ite (fun _ => ih hany hexpr) fun _ => ?_
    rcases hrange : parseCidr (trim part) with _ | range
    · exact .address _
    · refine ih hany fun r hr => ?_
      rcases List.mem_append.mp hr with hr | hr
      · exact hexpr r hr
      · rw [List.mem_singleton.mp hr]
        exact parseCidr_valid hrange

theorem parseAddressExpr_outcome (token : Str) :
    Outcome AddressExpr.Valid ExprFailure (parseAddressExpr token) := by
  refine .ite (fun _ => .emptyAddress) fun _ => ?_
  refine .ite (fun _ => ⟨fun _ => ⟨rfl, rfl⟩, nofun⟩) fun _ => ?_
  exact parseAddressParts_outcome _ rfl nofun

end PacketGuard.Rules

import PacketGuard.Ioc.Linear
import PacketGuard.Lib.FirstOccurrences
import PacketGuard.Lib.Machine

/-! Indicator texts: `parse_indicator_text` and `merge_indicator_sets` of
`ioc/ioc.cpp`.  Both keep the first indicator of every key. -/
namespace PacketGuard.Ioc
open PacketGuard.Core PacketGuard.Lib

/-! ## Texts -/

/-- The variables of the loop over the lines. -/
structure IndicatorScan where
  set : IndicatorSet := {}
  seen : Std.ExtTreeSet Str := ∅
  lineNo : Nat := 0

/-- The end of a turn of the loop, for a line that was parsed. -/
def IndicatorScan.keep (s : IndicatorScan) (ind : Indicator) (lineNo : Nat) : IndicatorScan :=
  if indicatorKey ind ∈ s.seen then
    { s with
      lineNo
      set := { s.set with
        duplicates := s.set.duplicates ++ [ind]
        diagnostics := s.set.diagnostics ++
          Diagnostics.info "ioc.duplicate".toList ("duplicate indicator ".toList ++ ind.normalized)
            lineNo } }
  else
    { lineNo
      seen := s.seen.insert (indicatorKey ind)
      set := { s.set with indicators := s.set.indicators ++ [ind] } }

/-- One turn of the loop of `parse_indicator_text`. -/
def IndicatorScan.step (source : Str) (s : IndicatorScan) (line : Str) : IndicatorScan :=
  let lineNo := s.lineNo + 1
  if (trim (removeComment line)).isEmpty then { s with lineNo }
  else
    match parseIndicatorLine line lineNo with
    | .error status =>
      { s with
        lineNo
        set := { s.set with
          diagnostics := s.set.diagnostics ++ Diagnostics.warn "ioc.parse".toList
            status.message lineNo } }
    | .ok parsed => s.keep { parsed with source } lineNo

/-- The loop as a machine that reads lines. -/
def indicatorScanMachine (source : Str) : Machine IndicatorScan Str where
  init := {}
  step := IndicatorScan.step source

def parseIndicatorText (text source : Str) : IndicatorSet :=
  ((indicatorScanMachine source).run (getlines '\n' text)).set

/-! ## Sets -/

/-- The variables of the loops of `merge_indicator_sets`. -/
structure MergeScan where
  merged : IndicatorSet := {}
  seen : Std.ExtTreeSet Str := ∅

/-- One turn of the inner loop over indicators. -/
def MergeScan.keep (s : MergeScan) (ind : Indicator) : MergeScan :=
  if indicatorKey ind ∈ s.seen then
    { s with merged := { s.merged with duplicates := s.merged.duplicates ++ [ind] } }
  else
    { seen := s.seen.insert (indicatorKey ind)
      merged := { s.merged with indicators := s.merged.indicators ++ [ind] } }

/-- One turn of the outer loop. -/
def MergeScan.addSet (s : MergeScan) (set : IndicatorSet) : MergeScan :=
  set.indicators.foldl MergeScan.keep
    { s with merged := { s.merged with diagnostics := s.merged.diagnostics ++ set.diagnostics } }

def mergeIndicatorSets (sets : List IndicatorSet) : IndicatorSet :=
  (sets.foldl MergeScan.addSet {}).merged

end PacketGuard.Ioc

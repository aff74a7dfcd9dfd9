import PacketGuard.Ioc.Loading
import PacketGuard.Ioc.Stats
import PacketGuard.Ioc.UrlHosts
import PacketGuard.Packet.CaptureFrames

/-! # Sessions that refresh their indicators

A session replaces its indicators as a whole, snapshot by snapshot
(`IndicatorRefreshSession` of `ioc/ioc.cpp`).  Whatever was ingested before, it
answers as a scan of the last snapshot does, for every type of indicator.

After an operation the session holds what the snapshot's text parses to, and its
index has the records of that snapshot and is in step with them (`Holds`); of the
earlier snapshots only their number is left.  The answers are then those of the
index, and `Refinement` compares them with the scan.  It asks for indicators that are
`Ranged` and `Filed`: an indicator has an address or a range only if its type says
so, and a name only in normal form.  Records from elsewhere need not be, but the
parser makes no others (`completeIndicator_of_line`).

An index that needs more nodes than an `int` can count has no defined answers, and
the session is no better off; that a snapshot fits is a hypothesis.
-/
namespace PacketGuard.Ioc
open PacketGuard.Core PacketGuard.Packet PacketGuard.Lib
open IndicatorIndex

structure IndicatorRefreshSession where
  currentSet : IndicatorSet := {}
  index : IndicatorIndex := {}
  refreshGeneration : Nat := 0

namespace IndicatorRefreshSession

def matchPacket (s : IndicatorRefreshSession) (md : PacketMetadata) : List MatchResult :=
  IndicatorIndex.matchPacket s.index md

def stats (s : IndicatorRefreshSession) : IocIndexStats :=
  { s.index.stats with generation := s.refreshGeneration }

end IndicatorRefreshSession

inductive RefreshOp
  | ingest (text source : Str)
  | replace (text source : Str)

namespace RefreshOp

def text : RefreshOp → Str
  | ingest text _ => text
  | replace text _ => text

def source : RefreshOp → Str
  | ingest _ source => source
  | replace _ source => source

/-- The indicators of the snapshot. -/
def indicators (op : RefreshOp) : List Indicator :=
  (parseIndicatorText op.text op.source).indicators

end RefreshOp

/-- What a session holds of the last snapshot. -/
structure Holds (text source : Str) (s : IndicatorRefreshSession) : Prop where
  currentSet : s.currentSet = parseIndicatorText text source
  synced : Synced s.index
  active : activeIndicators s.index.records = s.currentSet.indicators
  length : s.index.records.length = s.currentSet.indicators.length

end PacketGuard.Ioc

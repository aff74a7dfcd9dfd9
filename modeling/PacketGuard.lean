import PacketGuard.Lib.Machine
import PacketGuard.Lib.Multimap
import PacketGuard.Lib.Positions
import PacketGuard.Lib.Latest
import PacketGuard.Lib.FirstOccurrences
import PacketGuard.Lib.Earlier
import PacketGuard.Lib.NodeTrie
import PacketGuard.Lib.Trail
import PacketGuard.Lib.Outcome
import PacketGuard.Lib.Faults
import PacketGuard.Lib.TokenScan
import PacketGuard.Lib.Uncovered
import PacketGuard.Lib.EndAround
import PacketGuard.Lib.FirstMatch
import PacketGuard.Lib.Tally
import PacketGuard.Lib.Calendar
import PacketGuard.Lib.Clock
import PacketGuard.Lib.NodeCount
import PacketGuard.Lib.IntTrie
import PacketGuard.Lib.ShiftRegister
import PacketGuard.Lib.Veto
import PacketGuard.Lib.WireBytes
import PacketGuard.Core.Result
import PacketGuard.Core.Strings
import PacketGuard.Core.Ip
import PacketGuard.Core.Merge
import PacketGuard.Core.ByteView
import PacketGuard.Core.Checksum
import PacketGuard.Core.ChecksumWords
import PacketGuard.Core.Time
import PacketGuard.Core.UnixTime
import PacketGuard.Core.Comments
import PacketGuard.Core.CommentSpans
import PacketGuard.Core.TextFile
import PacketGuard.Core.IsoTime
import PacketGuard.Core.Report
import PacketGuard.Core.ByteReader
import PacketGuard.Core.Crc32
import PacketGuard.Core.TransportChecksum
import PacketGuard.Core.Hex
import PacketGuard.Packet.Types
import PacketGuard.Packet.Decode
import PacketGuard.Packet.Dns
import PacketGuard.Packet.NameFormat
import PacketGuard.Packet.DnsWire
import PacketGuard.Packet.MessageLayout
import PacketGuard.Packet.NameBounds
import PacketGuard.Packet.Pcap
import PacketGuard.Packet.Frames
import PacketGuard.Packet.HeaderChecksum
import PacketGuard.Packet.CaptureFile
import PacketGuard.Packet.Checked
import PacketGuard.Packet.Nesting
import PacketGuard.Packet.FrameWire
import PacketGuard.Packet.CaptureFrames
import PacketGuard.Packet.Report
import PacketGuard.Rules.Expr
import PacketGuard.Rules.Outcomes
import PacketGuard.Rules.Checked
import PacketGuard.Rules.Meaning
import PacketGuard.Rules.Rule
import PacketGuard.Rules.RoundTrip
import PacketGuard.Rules.Text
import PacketGuard.Rules.Quoting
import PacketGuard.Rules.Matching
import PacketGuard.Rules.Directions
import PacketGuard.Rules.Keys
import PacketGuard.Rules.PortGrammar
import PacketGuard.Rules.AddressGrammar
import PacketGuard.Rules.RuleSet
import PacketGuard.Rules.RuleSetIndex
import PacketGuard.Rules.Generation
import PacketGuard.Rules.BulkLoad
import PacketGuard.Rules.Saved
import PacketGuard.Rules.Report
import PacketGuard.Ioc.Indicator
import PacketGuard.Ioc.Linear
import PacketGuard.Ioc.Names
import PacketGuard.Ioc.UrlLines
import PacketGuard.Ioc.UrlForm
import PacketGuard.Ioc.UrlTwice
import PacketGuard.Ioc.Inference
import PacketGuard.Ioc.Texts
import PacketGuard.Ioc.Loading
import PacketGuard.Ioc.DomainKeys
import PacketGuard.Ioc.Feed
import PacketGuard.Ioc.Index
import PacketGuard.Ioc.Step
import PacketGuard.Ioc.Sync
import PacketGuard.Ioc.Identifiers
import PacketGuard.Ioc.Nodes
import PacketGuard.Ioc.Subnets
import PacketGuard.Ioc.Representation
import PacketGuard.Ioc.Lookup
import PacketGuard.Ioc.Refinement
import PacketGuard.Ioc.TrieLookup
import PacketGuard.Ioc.Maintenance
import PacketGuard.Ioc.UrlHosts
import PacketGuard.Ioc.Sights
import PacketGuard.Ioc.Stats
import PacketGuard.Ioc.Refresh
import PacketGuard.Ioc.Report
import PacketGuard.Policy.Firewall
import PacketGuard.Policy.Settings
import PacketGuard.Policy.CsvFields
import PacketGuard.Policy.Policy
import PacketGuard.Policy.Parsed
import PacketGuard.Policy.Lines
import PacketGuard.Policy.Shadow
import PacketGuard.Policy.Duplicates
import PacketGuard.Policy.Ordering
import PacketGuard.Policy.ExprCalls
import PacketGuard.Policy.OptionGroups
import PacketGuard.Policy.NamedChain
import PacketGuard.Policy.NegatedMatch
import PacketGuard.Policy.Written
import PacketGuard.Policy.WrittenSettings
import PacketGuard.Policy.Verdict
import PacketGuard.Policy.Dialects
import PacketGuard.Policy.Report
import PacketGuard.Detection
import PacketGuard.Screening

import Stallwatch.Base.Outcome
import Stallwatch.Base.Forest
import Stallwatch.Base.Utf8
import Stallwatch.Base.Text
import Stallwatch.Base.Float
import Stallwatch.Base.Decimal
import Stallwatch.Base.HashMap
import Stallwatch.Base.Path
import Stallwatch.Base.Counter
import Stallwatch.Base.Ranking
import Stallwatch.Psi
import Stallwatch.Cgroup
import Stallwatch.Responsibility
import Stallwatch.Report
import Stallwatch.Iostat
import Stallwatch.Base.Words
import Stallwatch.Iostat.Sums
import Stallwatch.Attribution
import Stallwatch.Attribution.Provenance
import Stallwatch.Attribution.Visibility
import Stallwatch.Base.Recent
import Stallwatch.Base.Run
import Stallwatch.Sampler
import Stallwatch.Base.Nearest
import Stallwatch.Base.Seconds
import Stallwatch.Sampler.Pacing
import Stallwatch.Base.Telescope
import Stallwatch.Sampler.Once
import Stallwatch.Filter.Syntax
import Stallwatch.Filter.Lexer
import Stallwatch.Filter.Scan
import Stallwatch.Filter.Parser
import Stallwatch.Filter.Grammar
import Stallwatch.Filter.Reserved
import Stallwatch.Filter.Items
import Stallwatch.Filter.Torn
import Stallwatch.Filter.Print
import Stallwatch.Filter.Eval
import Stallwatch.Json
import Stallwatch.Json.Write
import Stallwatch.Json.Grammar
import Stallwatch.Json.Strings
import Stallwatch.Json.Reads
import Stallwatch.Json.Accepts
import Stallwatch.Json.Sound
import Stallwatch.Json.Total
import Stallwatch.Json.Refuses
import Stallwatch.Json.OneLine
import Stallwatch.Json.Cursor
import Stallwatch.Json.Walks
import Stallwatch.Json.Nesting
import Stallwatch.Incident
import Stallwatch.Incident.Jsonl
import Stallwatch.Incident.RoundTrip
import Stallwatch.Base.Generations
import Stallwatch.Logfile
import Stallwatch.Why
import Stallwatch.Base.Duration
import Stallwatch.Base.History
import Stallwatch.Base.Window
import Stallwatch.Notify
import Stallwatch.Notify.Policy
import Stallwatch.Notify.Clock
import Stallwatch.Notify.Tally
import Stallwatch.Ring
import Stallwatch.Ring.Average
import Stallwatch.Logfile.Rotation
import Stallwatch.Report.Pretty
import Stallwatch.Report.Finite
import Stallwatch.Varlink
import Stallwatch.Json.Written
import Stallwatch.Json.Strict
import Stallwatch.Varlink.Serve
import Stallwatch.Varlink.Interface
import Stallwatch.Varlink.Conform
import Stallwatch.Cgroup.Names
import Stallwatch.Cgroup.Unescape
import Stallwatch.Responsibility.Handover
import Stallwatch.Base.PathText
import Stallwatch.Attribution.Causes
import Stallwatch.Attribution.Specification
import Stallwatch.Report.Text
import Stallwatch.Report.Headline
import Stallwatch.Base.Turns
import Stallwatch.Incident.Verdict
import Stallwatch.Pathology
import Stallwatch.Pathology.Exported
import Stallwatch.Pathology.Thermal
import Stallwatch.Pathology.Unheard
import Stallwatch.Process
import Stallwatch.Process.Fair
import Stallwatch.Base.Latest
import Stallwatch.Base.Lines
import Stallwatch.Config.Toml
import Stallwatch.Config
import Stallwatch.Config.Document
import Stallwatch.Config.Settings
import Stallwatch.Config.Layers
import Stallwatch.Config.Schema
import Stallwatch.Base.Trim
import Stallwatch.Config.Scan
import Stallwatch.Config.Strings
import Stallwatch.Config.Grammar
import Stallwatch.Config.Lines
import Stallwatch.Base.Slots
import Stallwatch.Config.Expand
import Stallwatch.Rules
import Stallwatch.Metrics
import Stallwatch.Metrics.Cap
import Stallwatch.Base.Batches
import Stallwatch.Capture
import Stallwatch.Capture.Wakes
import Stallwatch.Process.Stat
import Stallwatch.Base.Ties
import Stallwatch.Ring.Ties
import Stallwatch.Trigger
import Stallwatch.Base.Exposition
import Stallwatch.Metrics.Exposition
import Stallwatch.Base.Http
import Stallwatch.Base.Join
import Stallwatch.Appname
import Stallwatch.Appname.Contained
import Stallwatch.Cli
import Stallwatch.Cli.Honoured
import Stallwatch.Ipc
import Stallwatch.Ipc.Answers
import Stallwatch.Daemon
import Stallwatch.Daemon.Pipeline
import Stallwatch.Daemon.Atomic
import Stallwatch.Daemon.Polling
import Stallwatch.Daemon.Progress
import Stallwatch.Logfile.Shared
import Stallwatch.Rules.Logs
import Stallwatch.Metrics.Serve
import Stallwatch.Metrics.Textfile
import Stallwatch.Daemon.Startup
import Stallwatch.Cgroup.Tree
import Stallwatch.Process.Drill
import Stallwatch.Process.Evidence
import Stallwatch.Doctor
import Stallwatch.Doctor.Honest
import Stallwatch.Doctor.Working
import Stallwatch.Base.Extension
import Stallwatch.Ipc.Paths
import Stallwatch.Config.Explain
import Stallwatch.Process.Top
import Stallwatch.Process.Accused

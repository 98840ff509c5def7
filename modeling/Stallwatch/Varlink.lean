import Stallwatch.Incident.Jsonl

/-! The Varlink service: the calls a client can make, and the text of every reply. -/
namespace Stallwatch.Varlink

open Json Text

def interface : String := "dev.stallwatch.Monitor"

def serviceInterface : String := "org.varlink.service"

/-- Served verbatim. -/
def interfaceDescription : String := "interface dev.stallwatch.Monitor

# One unit's stall over one observation window.
type Stall (
  unit: string,
  cgroup: string,
  resource: string,
  type: string,
  delta_usec: int,
  pressure_pct: float,
  # Worst single sampling tick in the window. On aggregated history this is
  # the signal that survives averaging; a 2s freeze inside 60s averages away.
  peak_pct: float
)

# A system condition explaining stalls the pressure numbers alone cannot.
type Warning (
  source: string,
  severity: string,
  # True when the condition clears without intervention.
  transient: bool,
  message: string
)

# Sample the system live over a window. Blocks for the duration.
method GetStalls(window_ms: ?int) -> (
  window_usec: int,
  stalls: []Stall,
  warnings: []Warning
)

# What happened over the last N seconds, from recorded history.
method GetHistory(seconds: int) -> (
  window_usec: int,
  stalls: []Stall,
  warnings: []Warning
)

# No history covering the requested window.
error NoHistory(seconds: int)

# The kernel exposes no PSI (needs CONFIG_PSI=y, possibly psi=1).
error NoPressureStallInformation()
"

inductive Call where
  | getInfo
  | getInterfaceDescription (interface : String)
  | getStalls (windowMs : UInt64)
  | getHistory (seconds : UInt64)
  deriving DecidableEq

inductive CallError where
  | malformed (why : String)
  | unknownMethod (method : String)
  | unknownInterface (interface : String)
  deriving DecidableEq

/-- A field of the parameters, where there are any. -/
def param (params : Option Json) (k : String) : Option Json := params.bind (Json.get k.toList)

/-- The method is of no known name: is its interface known? -/
def unknown (other : String) : CallError :=
  match rsplitOnce '.' other.toList with
  | some (iface, _) =>
    if String.ofList iface = interface ∨ String.ofList iface = serviceInterface then
      .unknownMethod other
    else .unknownInterface (String.ofList iface)
  | none => .unknownInterface other

def call (params : Option Json) (method : String) : Outcome CallError Call :=
  match method with
  | "org.varlink.service.GetInfo" => .ok .getInfo
  | "org.varlink.service.GetInterfaceDescription" =>
    match (param params "interface").bind asStr with
    | none => .err (.malformed "missing \"interface\"")
    | some iface => .ok (.getInterfaceDescription (String.ofList iface))
  | "dev.stallwatch.Monitor.GetStalls" =>
    .ok (.getStalls (Counter.clamp 100 60000 (((param params "window_ms").bind asU64).getD 1000)))
  | "dev.stallwatch.Monitor.GetHistory" =>
    match (param params "seconds").bind asU64 with
    | none => .err (.malformed "missing \"seconds\"")
    | some seconds => .ok (.getHistory (Counter.clamp 1 86400 seconds))
  | other => .err (unknown other)

/-- One request, without its NUL. -/
def parseCall (f : Rounding) (frame : List Char) : Outcome CallError Call :=
  match Json.parse f frame with
  | .panic => .panic
  | .err why => .err (.malformed why)
  | .ok v =>
    match (v.get "method".toList).bind asStr with
    | none => .err (.malformed "missing \"method\"")
    | some method => call (v.get "parameters".toList) (String.ofList method)

/-- The escapes of a reply. -/
def esc : List Char → List Char :=
  quoteWith [('"', ['\\', '"']), ('\\', ['\\', '\\']), ('\n', ['\\', 'n']), ('\r', ['\\', 'r']),
    ('\t', ['\\', 't'])]

/-- `env!("CARGO_PKG_VERSION")`. -/
def version : String := "0.2.2"

def replyInfo : List Char :=
  record [("parameters", record [("vendor", bare "stallwatch"), ("product", bare "stallwatch"),
    ("version", esc version.toList), ("url", bare "https://github.com/varbees/stallwatch"),
    ("interfaces", list [bare serviceInterface, bare interface])])]

def replyInterfaceDescription : List Char :=
  record [("parameters", record [("description", esc interfaceDescription.toList)])]

def replyReport (r : Report) : List Char := record [("parameters", r.toJsonCompact)]

def replyError (name : String) (params : List Char) : List Char :=
  record [("error", esc name.toList), ("parameters", params)]

def errorFor : CallError → List Char
  | .malformed why =>
    replyError "org.varlink.service.InvalidParameter" (record [("parameter", esc why.toList)])
  | .unknownMethod m =>
    replyError "org.varlink.service.MethodNotFound" (record [("method", esc m.toList)])
  | .unknownInterface i =>
    replyError "org.varlink.service.InterfaceNotFound" (record [("interface", esc i.toList)])

end Stallwatch.Varlink

import Stallwatch.Filter.Parser
import Stallwatch.Why

/-! The command line. One scan decides whether it is accepted, and skips what follows a flag
that takes a value. A value is looked for later, behind the first argument that reads like its
flag. -/
namespace Stallwatch.Cli

open Text

/-- Flags that consume the following argument. -/
def valued : List String := ["--window", "--since", "--filter", "-n"]

def flags : List String :=
  ["--window", "--watch", "--since", "--processes", "--json", "--filter", "--fields", "-n", "-h",
    "--help", "-V", "--version"]

def commands : List String := ["why", "doctor", "config"]

/-- An exit before anything is printed. -/
structure Refusal where
  code : ℕ
  message : String
  deriving DecidableEq, Repr

/-- What an accepted command line goes on to print. -/
inductive Action where
  | help | version | fields | config
  | doctor (json : Bool)
  | why (count : ℕ) (filter : Option Filter)
  | history (reply : String)
  | live (windowMs : ℕ) (json watch processes : Bool) (filter : Option Filter)
  deriving DecidableEq

/-- What the daemon answers when it is asked for some seconds, as JSON or not, and whether the
kernel has pressure files. -/
structure Machine where
  queryDaemon : ℕ → Bool → Except String String
  psiAvailable : Bool

def unknownOption (a : String) : Refusal :=
  ⟨2, "stallwatch: unknown option: " ++ a ++
    "\nRun `stallwatch --help` for the options that exist.\n"⟩

def unexpectedArgument (a : String) : Refusal :=
  ⟨2, "stallwatch: unexpected argument: " ++ a ++ "\nRun `stallwatch --help` for usage.\n"⟩

def badFilter (expr : String) (e : Filter.ParseError) : Refusal :=
  ⟨2, "stallwatch: bad filter: " ++ e.msg ++ " (at character " ++ (e.at_ + 1).repr ++ ")\n  " ++ expr ++
    "\n  " ++ String.ofList (List.replicate e.at_ ' ') ++
    "^\n\nRun `stallwatch --fields` to see what you can filter on.\n"⟩

def needsExpression : Refusal := ⟨2, "stallwatch: --filter needs an expression\n"⟩

def unreachableDaemon (e : String) : Refusal :=
  ⟨1, "stallwatch: cannot reach stallwatchd (" ++ e ++ ").\n\n" ++
    "History needs the daemon running — a freeze is over by the time\n" ++
    "you can open a terminal, so it has to already be recording.\n\n" ++
    "  stallwatchd &                       # try it now\n" ++
    "  systemctl --user enable --now stallwatchd   # keep it running\n"⟩

def missingPsi : Refusal :=
  ⟨1, "stallwatch: this kernel exposes no PSI (/proc/pressure is missing).\n" ++
    "Needs CONFIG_PSI=y. If the kernel was built with " ++
    "CONFIG_PSI_DEFAULT_DISABLED=y, add psi=1 to the kernel command line.\n"⟩

/-- The scan, at argument `i`, after a flag that takes a value or not. -/
def rejectUnknown : Bool → ℕ → List String → Outcome Refusal Unit
  | _, _, [] => .ok ()
  | true, i, _ :: rest => rejectUnknown false (i + 1) rest
  | false, i, a :: rest =>
    if a ∈ valued then rejectUnknown true (i + 1) rest
    else if a.toList.head? = some '-' then
      if a ∈ flags then rejectUnknown false (i + 1) rest else .err (unknownOption a)
    else if i = 0 ∧ a ∈ commands then rejectUnknown false (i + 1) rest
    else .err (unexpectedArgument a)

/-- The filter behind the first `--filter`. -/
def filterOf (f : Rounding) (args : List String) : Outcome Refusal (Option Filter) :=
  match args.findIdx? (· = "--filter") with
  | none => .ok none
  | some i =>
    match args[i + 1]? with
    | none => .err needsExpression
    | some expr =>
      match Filter.parse f expr.toList with
      | .ok filter => .ok (some filter)
      | .err e => .err (badFilter expr e)
      | .panic => .panic

/-- The number behind the first argument that reads `name`. -/
def num (args : List String) (name : String) : Option ℕ :=
  (args.findIdx? (· = name)).bind fun i => (args[i + 1]?).bind fun v => parseUnsigned 64 v.toList

/-- The report without a subcommand. -/
def report (m : Machine) (args : List String) (filter : Option Filter) : Outcome Refusal Action :=
  let json := decide ("--json" ∈ args)
  match num args "--since" with
  | some secs =>
    match m.queryDaemon secs json with
    | .ok reply => .ok (.history reply)
    | .error e => .err (unreachableDaemon e)
  | none =>
    if m.psiAvailable then
      .ok (.live ((num args "--window").getD 1000) json (decide ("--watch" ∈ args))
        (decide ("--processes" ∈ args)) filter)
    else .err missingPsi

def main (f : Rounding) (m : Machine) (args : List String) : Outcome Refusal Action :=
  if "-h" ∈ args ∨ "--help" ∈ args then .ok .help
  else if "-V" ∈ args ∨ "--version" ∈ args then .ok .version
  else do
    rejectUnknown false 0 args
    if args.head? = some "doctor" then return .doctor (decide ("--json" ∈ args))
    else if "--fields" ∈ args then return .fields
    else
      let filter ← filterOf f args
      if args.head? = some "config" then return .config
      else if args.head? = some "why" then return .why (whyCount (args.map String.toList)) filter
      else report m args filter

end Stallwatch.Cli

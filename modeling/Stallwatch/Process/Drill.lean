import Stallwatch.Base.Counter
import Stallwatch.Cgroup.Tree
import Stallwatch.Process
import Stallwatch.Process.Stat

/-! A drill into a cgroup. Its processes are looked at again and again, and any of them may end
between two looks. -/
namespace Stallwatch.Process

open Text

/-- What there is to read of a process at one moment: its `io` and `stat` files. -/
structure Look where
  io : Option (List Char)
  stat : Option (List Char)

/-- All that a drill reads: before the rounds, in each of them, and afterwards. -/
structure Session where
  before : UInt32 → Option (List Char)
  rounds : List (UInt32 → Look)
  closing : UInt32 → Option (List Char)
  comm : UInt32 → Option (List Char)
  delayacct : Option (List Char)

/-- `read_bytes` and `write_bytes`. -/
def ioLine (io : UInt64 × UInt64) (line : List Char) : UInt64 × UInt64 :=
  match stripPrefix "read_bytes:".toList line, stripPrefix "write_bytes:".toList line with
  | some v, _ => (.ofNat ((parseUnsigned 64 (trim v)).getD 0), io.2)
  | none, some v => (io.1, .ofNat ((parseUnsigned 64 (trim v)).getD 0))
  | none, none => io

def ioBytes (body : List Char) : UInt64 × UInt64 := (lines body).foldl ioLine (0, 0)

def commOf (body : Option (List Char)) : String := body.elim "<gone>" fun s => .ofList (trim s)

def delayacctEnabled (body : Option (List Char)) : Bool := body.elim false fun s => trim s = ['1']

/-- What the rounds have found out about a process so far. -/
structure Watch where
  lastIo : Option (UInt64 × UInt64)
  seen : UInt32
  blocked : UInt32
  ticksBefore : UInt64
  ticksAfter : UInt64

/-- One look in round `round`. A process that has ended is passed over. -/
def Watch.observe (round : ℕ) (w : Watch) (look : Look) : Watch :=
  let w := { w with lastIo := (look.io.map ioBytes).or w.lastIo }
  match look.stat.bind parseStat with
  | none => w
  | some (state, ticks) =>
    { w with
      seen := w.seen + 1
      blocked := if state = 'D' then w.blocked + 1 else w.blocked
      ticksBefore := if round = 0 then ticks else w.ticksBefore
      ticksAfter := ticks }

/-- One round over all processes. -/
def sampleRound (ws : List (UInt32 × Watch)) (round : (UInt32 → Look) × ℕ) : List (UInt32 × Watch) :=
  ws.map fun w => (w.1, w.2.observe round.2 (round.1 w.1))

section Session

variable (s : Session)

def watch (pids : List UInt32) : List (UInt32 × Watch) :=
  s.rounds.zipIdx.foldl sampleRound (pids.map fun pid => (pid, ⟨(s.before pid).map ioBytes, 0, 0, 0, 0⟩))

/-- A process with its evidence, and how long it was delayed if that is accounted for. -/
structure Drilled where
  proc : ProcCulprit
  blkioDelayMs : Option UInt64
  deriving DecidableEq

/-- The bytes moved between two readings; a process that could not be read at first has none. -/
def transferred (before last : Option (UInt64 × UInt64)) : UInt64 × UInt64 :=
  match before, last with
  | some (r, w), some (r', w') => (Counter.saturatingSub r' r, Counter.saturatingSub w' w)
  | _, _ => (0, 0)

/-- Nobody is reported for whom nothing was observed. -/
def found (w : UInt32 × Watch) : Option Drilled :=
  let last := ((s.closing w.1).map ioBytes).or w.2.lastIo
  let moved := transferred ((s.before w.1).map ioBytes) last
  if w.2.blocked = 0 ∧ moved.1 = 0 ∧ moved.2 = 0 then none
  else
    some
      { proc := ⟨w.1, commOf (s.comm w.1), w.2.blocked, w.2.seen, moved.1, moved.2⟩
        blkioDelayMs :=
          if delayacctEnabled s.delayacct then
            some (Counter.saturatingSub w.2.ticksAfter w.2.ticksBefore * 10)
          else none }

/-- `rank`, with the delays. -/
def rankDrilled (out : List Drilled) : List Drilled :=
  ((keep (out.map Drilled.proc)).map fun i => out[i]).insertionSort fun a b => moved b.proc ≤ moved a.proc

def drill (pids : List UInt32) : List Drilled :=
  if pids = [] ∨ s.rounds = [] then [] else rankDrilled ((watch s pids).filterMap (found s))

end Session

/-- A cgroup that is drilled in so many rounds. -/
structure Probe (samples : ℕ) where
  tree : Cgroup.Tree
  session : Session
  rounds : session.rounds.length = samples

def Probe.drill {samples : ℕ} (p : Probe samples) : List Drilled :=
  Process.drill p.session (Cgroup.pidsIn p.tree)

end Stallwatch.Process

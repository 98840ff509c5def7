import Stallwatch.Base.Text

/-! Pressure files of the kernel: cumulative stall times by resource and kind. -/
namespace Stallwatch

open Text

inductive Resource where
  | cpu | memory | io
  deriving DecidableEq, Repr

inductive PsiKind where
  | some | full
  deriving DecidableEq, Repr

namespace Resource

def file : Resource → String
  | .cpu => "cpu.pressure"
  | .memory => "memory.pressure"
  | .io => "io.pressure"

def all : List Resource := [.cpu, .memory, .io]

/-- The line that carries the signal. There is no `full` line for the processor. -/
def primaryKind : Resource → PsiKind
  | .cpu => .some
  | _ => .full

/-- The place in `all`. -/
def index : Resource → ℕ
  | .cpu => 0
  | .memory => 1
  | .io => 2

def display : Resource → String
  | .cpu => "cpu"
  | .memory => "memory"
  | .io => "io"

theorem mem_all (res : Resource) : res ∈ all := by cases res <;> decide

theorem all_sorted : all.Pairwise fun a b => a.index < b.index := by decide

end Resource

def PsiKind.display : PsiKind → String
  | .some => "some"
  | .full => "full"

/-- Cumulative microseconds in one pressure file. -/
structure Psi where
  someTotalUs : UInt64
  fullTotalUs : UInt64
  deriving DecidableEq, Repr

def Psi.default : Psi := ⟨0, 0⟩

def Psi.totalFor (psi : Psi) : PsiKind → UInt64
  | .some => psi.someTotalUs
  | .full => psi.fullTotalUs

structure Snapshot where
  cpu : Psi
  memory : Psi
  io : Psi
  deriving DecidableEq, Repr

namespace Snapshot

def default : Snapshot := ⟨.default, .default, .default⟩

def get (snap : Snapshot) : Resource → Psi
  | .cpu => snap.cpu
  | .memory => snap.memory
  | .io => snap.io

def set (snap : Snapshot) (psi : Psi) : Resource → Snapshot
  | .cpu => { snap with cpu := psi }
  | .memory => { snap with memory := psi }
  | .io => { snap with io := psi }

end Snapshot

namespace Psi

/-- The value of a field `total=<u64>`. -/
def totalField (field : List Char) : Option UInt64 :=
  (stripPrefix "total=".toList field).bind fun n => (parseUnsigned 64 n).map UInt64.ofNat

def parseLine (psi : Psi) (line : List Char) : Psi :=
  match splitWhitespace line with
  | [] => psi
  | kind :: parts =>
    let total := (parts.findSome? totalField).getD 0
    if kind = "some".toList then { psi with someTotalUs := total }
    else if kind = "full".toList then { psi with fullTotalUs := total }
    else psi

def parse (body : String) : Psi := (lines body.toList).foldl parseLine .default

example : parse "some avg10=0.86 total=447\nfull avg10=0.00 total=12\n" = ⟨447, 12⟩ := by decide

end Psi

end Stallwatch

import Stallwatch.Base.Counter
import Stallwatch.Base.Text

/-! Block-layer bytes of a cgroup, summed over its devices. -/
namespace Stallwatch

open Text

@[ext] structure IoBytes where
  read : UInt64
  write : UInt64
  discard : UInt64
  deriving DecidableEq, Repr

namespace IoBytes

/-- Discarded bytes are not counted. -/
def total (b : IoBytes) : UInt64 := Counter.saturatingAdd b.read b.write

def delta (after before : IoBytes) : IoBytes where
  read := Counter.saturatingSub after.read before.read
  write := Counter.saturatingSub after.write before.write
  discard := Counter.saturatingSub after.discard before.discard

def default : IoBytes := ⟨0, 0, 0⟩

end IoBytes

namespace Iostat

/-- One field of a line; keys that are not known and values that are no numbers are passed over. -/
def parseField (out : IoBytes) (field : List Char) : IoBytes :=
  match splitOnce '=' field with
  | none => out
  | some (key, value) =>
    match parseUnsigned 64 value with
    | none => out
    | some n =>
      if key = "rbytes".toList then { out with read := Counter.saturatingAdd out.read (.ofNat n) }
      else if key = "wbytes".toList then { out with write := Counter.saturatingAdd out.write (.ofNat n) }
      else if key = "dbytes".toList then { out with discard := Counter.saturatingAdd out.discard (.ofNat n) }
      else out

def parse (body : List Char) : IoBytes :=
  (lines body).foldl (fun out line => (splitWhitespace line).foldl parseField out) .default

end Iostat

end Stallwatch

import Stallwatch.Base.Counter
import Stallwatch.Base.Outcome
import Stallwatch.Base.Seconds
import Stallwatch.Psi

/-! A pressure trigger. What is asked for is turned into numbers that the kernel takes from
an unprivileged caller, and written to a pressure file. -/
namespace Stallwatch

open Text

structure Trigger where
  resource : Resource
  threshold : Duration
  window : Duration

namespace Trigger

def windowGranularity : Duration := .fromSecs 2

def windowMin : Duration := .fromMillis 500

def windowMax : Duration := .fromSecs 10

def roundWindow (requested : Duration) : Duration :=
  let clamped := requested.clamp windowMin windowMax
  let g := windowGranularity.asMicros
  let us := clamped.asMicros
  let rounded := Counter.divCeil us g * g
  .fromMicros (if windowMax.asMicros < rounded then windowMax.asMicros else rounded)

/-- The line that registers, in microseconds. -/
def spec (kind : PsiKind) (threshold window : Duration) : List Char :=
  kind.display.toList ++ ' ' :: decimal threshold.asMicros.toNat ++
    ' ' :: decimal window.asMicros.toNat ++ ['\n']

def rejected (path : String) (line : List Char) (e : String) : String :=
  "kernel rejected PSI trigger \"" ++ String.ofList (trim line) ++ "\" on " ++ path ++ ": " ++ e ++
    ". Unprivileged windows must be a 2s multiple between 500ms and 10s."

end Trigger

/-- `openFile` and `writeAll` are what the file system and the kernel answer. -/
def Trigger.at (openFile : String → Outcome String Unit) (writeAll : String → List Char → Outcome String Unit)
    (path : String) (resource : Resource) (kind : PsiKind) (threshold window : Duration) :
    Outcome String Trigger := do
  let window := roundWindow window
  let threshold := (threshold.min window.half).max (.fromMillis 1)
  openFile path
  let line := spec kind threshold window
  match writeAll path line with
  | .err e => .err (rejected path line e)
  | .panic => .panic
  | .ok _ => return ⟨resource, threshold, window⟩

namespace Trigger

theorem asNanos_windowMin : windowMin.asNanos = 500000000 := by decide

theorem asNanos_windowMax : windowMax.asNanos = 10000000000 := by decide

theorem toNat_windowMax : windowMax.asMicros.toNat = 10000000 := by decide

theorem toNat_granularity : windowGranularity.asMicros.toNat = 2000000 := by decide

/- The window in whole granules, of which the microseconds are rounded up. -/
theorem asNanos_roundWindow (requested : Duration) :
    (roundWindow requested).asNanos =
      2000000000 * (((500000000 ⊔ requested.asNanos ⊓ 10000000000) / 1000 + 1999999) / 2000000) := by
  have clamped : (requested.clamp windowMin windowMax).asNanos =
      500000000 ⊔ requested.asNanos ⊓ 10000000000 := by
    have order : windowMin.asNanos ≤ windowMax.asNanos := by decide
    rw [Duration.asNanos_clamp _ order, asNanos_windowMin, asNanos_windowMax]
  have micros : (requested.clamp windowMin windowMax).asMicros.toNat =
      (500000000 ⊔ requested.asNanos ⊓ 10000000000) / 1000 := by
    rw [Duration.toNat_asMicros (by omega), clamped]
  have rounded : (Counter.divCeil (requested.clamp windowMin windowMax).asMicros
      windowGranularity.asMicros * windowGranularity.asMicros).toNat =
        2000000 * (((500000000 ⊔ requested.asNanos ⊓ 10000000000) / 1000 + 1999999) / 2000000) := by
    rw [UInt64.toNat_mul, Counter.toNat_divCeil (by decide) (by rw [micros, toNat_granularity]; omega),
      micros, toNat_granularity]
    omega
  rw [roundWindow, if_neg (by rw [UInt64.lt_iff_toNat_lt, rounded, toNat_windowMax]; omega),
    Duration.asNanos_fromMicros, rounded]
  omega

/-- What a registered trigger owes to the window that was asked for: the kernel takes its
window, which is as long as was asked or the longest there is, and its threshold can be
reached, also by the numbers that are written. -/
structure Sound (requested : Duration) (t : Trigger) : Prop where
  granular : 2000000000 ∣ t.window.asNanos
  atLeast : 2000000000 ≤ t.window.asNanos
  atMost : t.window.asNanos ≤ 10000000000
  long : requested.asNanos ⊓ 10000000000 ≤ t.window.asNanos
  counts : 1000000 ≤ t.threshold.asNanos
  fires : t.threshold.asNanos < t.window.asNanos
  written : 1000 ≤ t.threshold.asMicros.toNat ∧ t.threshold.asMicros.toNat < t.window.asMicros.toNat

/-- Less than a microsecond after a multiple of two seconds the rounding goes down. -/
def Shortened (requested : Duration) : Prop :=
  2000000000 ≤ requested.asNanos ∧ requested.asNanos < 10000000000 ∧
    0 < requested.asNanos % 2000000000 ∧ requested.asNanos % 2000000000 < 1000

section Registered

variable (requested : Duration)

theorem roundWindow_bounds : 2000000000 ∣ (roundWindow requested).asNanos ∧
    2000000000 ≤ (roundWindow requested).asNanos ∧ (roundWindow requested).asNanos ≤ 10000000000 := by
  rw [asNanos_roundWindow]
  exact ⟨Dvd.intro _ rfl, by omega, by omega⟩

theorem long_iff : requested.asNanos ⊓ 10000000000 ≤ (roundWindow requested).asNanos ↔
    ¬Shortened requested := by
  rw [asNanos_roundWindow, Shortened]
  omega

theorem asNanos_threshold (threshold window : Duration) :
    ((threshold.min window.half).max (.fromMillis 1)).asNanos =
      threshold.asNanos ⊓ window.asNanos / 2 ⊔ 1000000 := by
  rw [Duration.asNanos_max, Duration.asNanos_min, Duration.asNanos_half, Duration.asNanos_fromMillis]
  rfl

end Registered

section At

variable {openFile : String → Outcome String Unit} {writeAll : String → List Char → Outcome String Unit}
  {path : String} {resource : Resource} {kind : PsiKind} {threshold window : Duration} {t : Trigger}

/- A trigger is registered by the line that holds its own numbers. -/
theorem at_ok (registered : Trigger.at openFile writeAll path resource kind threshold window = .ok t) :
    writeAll path (spec kind t.threshold t.window) = .ok () ∧ t.window = roundWindow window ∧
      t.threshold = (threshold.min (roundWindow window).half).max (.fromMillis 1) := by
  obtain ⟨_, _, registered⟩ := Outcome.bind_eq_ok.mp registered
  dsimp only at registered
  split at registered
  · cases registered
  · cases registered
  · rename_i written
    cases registered
    exact ⟨written, rfl, rfl⟩

/-- Every part of what a registration owes holds always, but for the length of the window. -/
theorem registered_iff
    (registered : Trigger.at openFile writeAll path resource kind threshold window = .ok t) :
    Sound window t ↔ ¬Shortened window := by
  obtain ⟨_, rounded, reduced⟩ := at_ok registered
  obtain ⟨granular, low, high⟩ := roundWindow_bounds window
  have level := asNanos_threshold threshold (roundWindow window)
  rw [← reduced] at level
  rw [← rounded] at granular low high level
  constructor
  · intro sound
    have long := sound.long
    rwa [rounded, long_iff] at long
  · intro whole
    have long := (long_iff window).mpr whole
    rw [← rounded] at long
    refine ⟨granular, low, high, long, by omega, by omega, ?_⟩
    rw [Duration.toNat_asMicros (by omega), Duration.toNat_asMicros (by omega)]
    omega

end At

/-- Asked for 2.1 s, a trigger for 4 s is registered. -/
theorem registered_longer : ∃ t, Trigger.at (fun _ => .ok ()) (fun _ _ => .ok ()) "/proc/pressure/io" .io
    .some (.fromMillis 50) (.fromMillis 2100) = .ok t ∧ t.window = .fromSecs 4 ∧
      (Sound (.fromMillis 2100) t ↔ ¬Shortened (.fromMillis 2100)) :=
  ⟨_, rfl, by decide, @registered_iff (fun _ => .ok ()) (fun _ _ => .ok ()) "/proc/pressure/io" .io .some
    (.fromMillis 50) _ _ rfl⟩

/-- Asked for a nanosecond more than 2 s, a trigger for 2 s is registered. -/
theorem not_registered : ∃ t, Trigger.at (fun _ => .ok ()) (fun _ _ => .ok ()) "/proc/pressure/io" .io
    .some (.fromMillis 50) ⟨2, 1, by decide⟩ = .ok t ∧ t.window = .fromSecs 2 ∧
      ¬Sound ⟨2, 1, by decide⟩ t := by
  refine ⟨_, rfl, by decide, fun sound => ?_⟩
  have long := sound.long
  revert long
  decide

end Trigger

end Stallwatch

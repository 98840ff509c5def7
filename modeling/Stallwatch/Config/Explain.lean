import Stallwatch.Base.Words
import Stallwatch.Config.Layers
import Stallwatch.Ipc.Paths
import Stallwatch.Report.Text

/-! The `config` command: the files of the search path are loaded, and what came of each setting is
printed with where it came from. -/
namespace Stallwatch

open Text Toml Utf8 PathBuf

/-- Lowest precedence first. -/
def searchPath (vars : List Char → Option (List Char)) : List OsString :=
  let user := ((Ipc.filled vars "XDG_CONFIG_HOME").map bytes).or
    ((vars "HOME".toList).map fun h => join (bytes h) (Appname.text ".config"))
  Appname.text "/etc/xdg/stallwatch/config.toml" ::
    (user.map fun dir => join (join dir (Appname.text "stallwatch")) (Appname.text "config.toml")).toList

def Origin.display : Origin → List Char
  | .default => "built-in default".toList
  | .file path => fromUtf8Lossy path
  | .env name => '$' :: name
  | .flag name => "command line ".toList ++ name

namespace Config

/-- The files that are looked for, and whether each was read. -/
def searched (vars : List Char → Option (List Char)) (read : OsString → Bool) : List Char :=
  "Searched, lowest precedence first:\n".toList ++
    (searchPath vars).flatMap (fun p => "  ".toList ++
      padRight 8 (if read p then "read".toList else "absent".toList) ++ ' ' :: fromUtf8Lossy p ++
        ['\n']) ++
    "\nEnvironment then command-line flags override those.\n\n".toList

def settingLine (name value origin : List Char) : List Char :=
  padRight 16 name ++ ' ' :: padRight 28 value ++ ' ' :: origin ++ ['\n']

def boolText (b : Bool) : List Char := if b then "true".toList else "false".toList

def rulesText : List Rule → List Char
  | [] => "\nNo rules defined.\n".toList
  | rules =>
    '\n' :: decimal rules.length ++ " rule(s):\n".toList ++
      rules.flatMap fun r => "  ".toList ++ padRight 28 r.name ++ " when ".toList ++ r.when.source ++
        ['\n']

/-- The settings in the order of their lines. -/
def rows (c : Config) : List (List Char × List Char × Origin) :=
  [("threshold_ms".toList, decimal c.thresholdMs.value.toNat, c.thresholdMs.origin),
    ("capture_ms".toList, decimal c.captureMs.value.toNat, c.captureMs.origin),
    ("history_secs".toList, decimal c.historySecs.value.toNat, c.historySecs.origin),
    ("resources".toList, [','].intercalate c.resources.value, c.resources.origin),
    ("notify.enabled".toList, boolText c.notifyEnabled.value, c.notifyEnabled.origin),
    ("notify.min_peak".toList, decimal c.notifyMinPeak.value.toNat, c.notifyMinPeak.origin),
    ("notify.cooldown".toList, decimal c.notifyCooldownSecs.value.toNat, c.notifyCooldownSecs.origin)]

def settingsText (rows : List (List Char × List Char × Origin)) : List Char :=
  settingLine "SETTING".toList "VALUE".toList "FROM".toList ++
    rows.flatMap fun row => settingLine row.1 row.2.1 row.2.2.display

/-- Every setting, its value, and which layer won. Paths are compared by their components. -/
def explain (vars : List Char → Option (List Char)) (c : Config) : List Char :=
  searched vars (fun p => c.loaded.any fun q => ofText q = ofText p) ++ settingsText c.rows ++
    rulesText c.rules

section Files

variable {f : Rounding}

/-- The files that can be read. -/
def present (files : List (OsString × Option (List Char))) : List (OsString × List Char) :=
  files.filterMap fun file => file.2.map fun body => (file.1, body)

end Files

section Command

variable {f : Rounding} (vars : List Char → Option (List Char)) (body : PathBuf → Option (List Char))

/-- The files that the command reads, in order. -/
def read : List (OsString × List Char) :=
  present ((searchPath vars).map fun p => (p, body (ofText p)))

def shown : Setting → List Char
  | .thresholdMs => "threshold_ms".toList
  | .captureMs => "capture_ms".toList
  | .historySecs => "history_secs".toList
  | .resources => "resources".toList
  | .notifyEnabled => "notify.enabled".toList
  | .notifyMinPeak => "notify.min_peak".toList
  | .notifyCooldownSecs => "notify.cooldown".toList

def valueText : Setting.Value → List Char
  | .number n => decimal n.toNat
  | .flag b => boolText b
  | .names xs => [','].intercalate xs

/-- A line for each setting. -/
def table (x : Setting → Sourced Setting.Value) : List (List Char × List Char × Origin) :=
  Setting.all.map fun s => (shown s, valueText (x s).value, (x s).origin)

end Command

end Config

end Stallwatch

import Stallwatch.Base.Join
import Stallwatch.Base.Text
import Stallwatch.Cgroup

/-! Unit names as people know them, from the desktop entries of the installed applications. -/
namespace Stallwatch.Appname

open Text Utf8 PathBuf

def text (s : String) : OsString := bytes s.toList

/-- Where desktop entries live, most specific first. `HOME` need not be set. -/
def searchDirs (home : Option OsString) : List OsString :=
  (match home with
    | some home => [join home (text ".local/share/applications"),
        join home (text ".local/share/flatpak/exports/share/applications")]
    | none => []) ++
  [text "/var/lib/flatpak/exports/share/applications", text "/usr/local/share/applications",
    text "/usr/share/applications"]

/-- The first name inside the section of the entry itself. -/
def desktopFrom : Bool → List (List Char) → Option (List Char)
  | _, [] => none
  | inEntry, line :: rest =>
    let line := trim line
    if line.head? = some '[' then desktopFrom (line = "[Desktop Entry]".toList) rest
    else if inEntry then
      match stripPrefix "Name=".toList line with
      | some v =>
        let v := trim v
        if v ≠ [] then some v else desktopFrom inEntry rest
      | none => desktopFrom inEntry rest
    else desktopFrom inEntry rest

def desktopName (body : List Char) : Option (List Char) := desktopFrom false (lines body)

/-- The tables of Unicode that a name is spelt with. -/
structure Tables where
  isAlphabetic : Char → Bool
  toUppercase : Char → List Char

/-- The last component of an identifier that has no entry, or the unit itself. -/
def fallback (tables : Tables) (unit base : List Char) : List Char :=
  if base.contains '.' && !base.contains ' ' then
    match Cgroup.afterLast '.' base with
    | first :: rest =>
      if 1 < (bytes (first :: rest)).length ∧ tables.isAlphabetic first = true then
        tables.toUppercase first ++ rest
      else unit
    | [] => unit
  else unit

/-- Goes through the directories, and notes each file it tries to read. -/
def lookup (read : OsString → Option (List Char)) (entry : OsString) :
    List OsString → List OsString × Option (List Char)
  | [] => ([], none)
  | dir :: dirs =>
    let candidate := join dir entry
    match (read candidate).bind desktopName with
    | some name => ([candidate], some name)
    | none =>
      let rest := lookup read entry dirs
      (candidate :: rest.1, rest.2)

/-- The bare identifier of a unit. -/
def base (unit : List Char) : List Char := trim ((stripSuffix " (flatpak)".toList unit).getD unit)

def entry (unit : List Char) : OsString := bytes (base unit) ++ text ".desktop"

/-- The files tried, and the name that is shown. -/
def humanName (tables : Tables) (home : Option OsString) (read : OsString → Option (List Char))
    (unit : List Char) : List OsString × List Char :=
  if base unit = [] then ([], unit)
  else
    let found := lookup read (entry unit) (searchDirs home)
    (found.1, found.2.getD (fallback tables unit (base unit)))

example : desktopName "[Desktop Entry]\nName= Ghostty \n[Desktop Action x]\nName=New\n".toList =
    some "Ghostty".toList := by decide +kernel

end Stallwatch.Appname

import GaussJordan.Json.Coercion
import GaussJordan.Json.Writer
import GaussJordan.System.Reading

/-!
# GaussJordan.Settings

The settings and the JSON file that keeps them. The file holds an object whose entry `settings` is
merged over the defaults. Invalid settings, and a file that is not JSON, give the defaults with a
warning; a file that is not an object counts as empty.

Saving validates first, merges over the defaults and not over the stored values, and keeps the
other entries of the file in their places.
-/

namespace GaussJordan

structure Settings where
  tolerance : Double
  verifySolution : Bool
  verifyTolerance : Double
  logLevel : Level

inductive SettingsFault where
  | undecodable
  /-- The file holds an integer of too many digits. -/
  | longInteger
  /-- The stored entry cannot be merged: it is no collection of keys and values. -/
  | notMergeable
  /-- An item of the stored list is not a pair. -/
  | notPair
  | invalid (misfits : List Misfit)

namespace Settings

def path : String := "data/linsolve.json"

def default : Settings where
  tolerance := defaultTolerance
  verifySolution := true
  verifyTolerance := defaultVerifyTolerance
  logLevel := .info

def fields (s : Settings) : List (String × Json) := [
  ("tolerance", .real s.tolerance),
  ("verify_solution", .bool s.verifySolution),
  ("verify_tolerance", .real s.verifyTolerance),
  ("log_level", .string s.logLevel.name)]

/-! ## Validation -/

/-- The upper-case form of the letters that have an ASCII one. -/
def upperChar (c : Char) : Char :=
  if c = 'ı' then 'I' else if c = 'ſ' then 'S' else c.toUpper

def readLevel : Json → Except Mismatch Level
  | .string s =>
    match Level.ofName? (String.ofList (s.toList.map upperChar)) with
    | some level => .ok level
    | none => .error .valueError
  | _ => .error .stringType

def readField {β : Type} (fields : List (String × Json)) (key : String) (default : β)
    (read : Json → Except Mismatch β) : Except Mismatch β :=
  match Json.find? key fields with
  | some value => read value
  | none => .ok default

def misfit {β : Type} (location : String) : Except Mismatch β → List Misfit
  | .ok _ => []
  | .error mismatch => [⟨location, mismatch⟩]

/-- The settings with the given fields; all that does not fit is reported together. -/
def validate (fields : List (String × Json)) : Except (List Misfit) Settings :=
  let tolerance := readField fields "tolerance" default.tolerance Json.toPositive
  let verify := readField fields "verify_solution" default.verifySolution Json.toBool
  let verifyTolerance :=
    readField fields "verify_tolerance" default.verifyTolerance Json.toPositive
  let level := readField fields "log_level" default.logLevel readLevel
  match tolerance, verify, verifyTolerance, level with
  | .ok tolerance, .ok verify, .ok verifyTolerance, .ok level =>
    .ok ⟨tolerance, verify, verifyTolerance, level⟩
  | tolerance, verify, verifyTolerance, level =>
    .error (Misfit.sort (misfit "tolerance" tolerance ++ misfit "verify_solution" verify ++
      misfit "verify_tolerance" verifyTolerance ++ misfit "log_level" level))

/-! ## The file -/

def unreadableRecord : Record :=
  ⟨.warning, .settings, s!"Ignoring unreadable settings file {path}:"⟩

def invalidRecord : Record :=
  ⟨.warning, .settings, s!"Invalid settings in {path}, using defaults:"⟩

def loadEntries : Option ByteArray →
    Except SettingsFault (List (String × Json) × List Record)
  | none => .ok ([], [])
  | some bytes =>
    match Text.ofBytes bytes with
    | .error _ => .error .undecodable
    | .ok text =>
      match Json.read text with
      | .ok (.object entries) => .ok (entries, [])
      | .ok _ => .ok ([], [])
      | .error .malformed => .ok ([], [unreadableRecord])
      | .error .longInteger => .error .longInteger

/-- The pair of key and value that an item of a list stands for. An array or an object cannot be a
key. -/
def pairOf (item : Json) : Except SettingsFault (Json × Json) :=
  match item.elements? with
  | none => .error .notMergeable
  | some [.array _, _] | some [.object _, _] => .error .notMergeable
  | some [key, value] => .ok (key, value)
  | some _ => .error .notPair

/-- A key of a field is a string. -/
def stringKey : Json × Json → Except SettingsFault (String × Json)
  | (.string key, value) => .ok (key, value)
  | _ => .error .notMergeable

/-- The fields that a stored entry sets: those of an object, or pairs of keys and values. -/
def storedFields : Json → Except SettingsFault (List (String × Json))
  | .object fields => .ok fields
  | stored =>
    match stored.elements? with
    | none => .error .notMergeable
    | some items => do
      let pairs ← items.mapM pairOf
      pairs.mapM stringKey

def get (file : Option ByteArray) : Except SettingsFault (Settings × List Record) := do
  let (entries, log) ← loadEntries file
  let stored ← match Json.find? "settings" entries with
    | some stored => storedFields stored
    | none => pure []
  match validate (Json.merge default.fields stored) with
  | .ok settings => return (settings, log)
  | .error _ => return (default, log ++ [invalidRecord])

/-- Saves settings into the file: the new content of the file and the settings as stored. -/
def save (file : Option ByteArray) (fields : List (String × Json)) :
    Except SettingsFault (Settings × ByteArray × List Record) := do
  let settings ← (validate (Json.merge default.fields fields)).mapError .invalid
  let (entries, log) ← loadEntries file
  let entries := Json.put "settings" (.object settings.fields) entries
  return (settings, (Json.write 0 (.object entries)).toUTF8, log)

end Settings

end GaussJordan

import GaussJordan.Json.Basic

/-!
# GaussJordan.Files

A tree of named files, as far as a program sees it that reads one file and writes another: paths
are looked up from the working directory, and what can go wrong has a number and a text.
-/

namespace GaussJordan

inductive FileFault where
  | notFound
  | notDirectory
  | isDirectory

namespace FileFault

def number : FileFault → Nat
  | .notFound => 2
  | .notDirectory => 20
  | .isDirectory => 21

def text : FileFault → String
  | .notFound => "No such file or directory"
  | .notDirectory => "Not a directory"
  | .isDirectory => "Is a directory"

def message (fault : FileFault) (path : String) : String :=
  let number := fault.number
  let text := fault.text
  let shown := Json.displayString path
  s!"[Errno {number}] {text}: {shown}"

end FileFault

inductive Node where
  | file (bytes : ByteArray)
  | directory

/-- Every file and directory below the working directory, by the names on the way to it. -/
structure Files where
  nodes : List (List String × Node)

namespace Files

def empty : Files := ⟨[]⟩

/-- The names on a path. -/
def names (path : String) : List String := (path.toList.splitOn '/').map String.ofList

/-- The working directory is there without being listed. -/
def node? (files : Files) (names : List String) : Option Node :=
  if names.isEmpty then some .directory
  else (files.nodes.find? fun (at_, _) => at_ == names).map (·.2)

def put (files : Files) (names : List String) (node : Node) : Files :=
  ⟨(names, node) :: files.nodes.filter fun (at_, _) => at_ != names⟩

/-- Follows the names of a path through directories to the names of the place it leads to. Only the
last place may be missing or a file. -/
def follow (files : Files) (at_ : List String) : List String → Except FileFault (List String)
  | [] => .ok at_
  | name :: rest =>
    match files.node? at_ with
    | none => .error .notFound
    | some (.file _) => .error .notDirectory
    | some .directory =>
      if name = "" || name = "." then files.follow at_ rest
      else if name = ".." then files.follow at_.dropLast rest
      else files.follow (at_ ++ [name]) rest

/-- The place that the names of a path lead to. No name at all names nothing, and a path from the
root leads outside the tree. -/
def resolve (files : Files) (names : List String) : Except FileFault (List String) :=
  match names with
  | [""] => .error .notFound
  | "" :: rest => if rest.all (· == "") then .ok [] else .error .notFound
  | names => files.follow [] names

def read (files : Files) (path : String) : Except FileFault ByteArray := do
  match files.node? (← files.resolve (names path)) with
  | some (.file bytes) => return bytes
  | some .directory => throw .isDirectory
  | none => throw .notFound

/-- Whether a path ends in a slash, and its names without those that slashes at the end add. -/
def splitForWriting (path : String) : Bool × List String :=
  let all := names path
  let kept := (all.reverse.dropWhile (· == "")).reverse
  if kept.isEmpty then (false, all) else (kept.length < all.length, kept)

/-- Writes a file, which is made if its directory is there. A slash at the end asks for a
directory. -/
def write (files : Files) (path : String) (bytes : ByteArray) : Except FileFault Files := do
  let (slash, names) := splitForWriting path
  let names ← files.resolve names
  if slash then throw .isDirectory
  match files.node? names with
  | some .directory => throw .isDirectory
  | _ =>
    match files.node? names.dropLast with
    | some .directory => return files.put names (.file bytes)
    | some (.file _) => throw .notDirectory
    | none => throw .notFound

def content? (files : Files) (names : List String) : Option ByteArray :=
  match files.node? names with
  | some (.file bytes) => some bytes
  | _ => none

end Files

end GaussJordan

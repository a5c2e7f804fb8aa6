import GrammarText.Compile

/-!
Grammars in files. Files lie at locations around a start directory; a path is followed from there
name by name, to write a file, which makes the folders on its way, or to read one, and what is read
is UTF-8.
-/

namespace GrammarText

/-- A place among the files: so many levels above the start directory, and from there down by
names. The names stand with the last one first. -/
structure Location where
  levels : Nat
  names : List String
  deriving DecidableEq, Repr

namespace Location

def start : Location := ⟨0, []⟩

def child (l : Location) (name : String) : Location := ⟨l.levels, name :: l.names⟩

def parent : Location → Location
  | ⟨levels, []⟩ => ⟨levels + 1, []⟩
  | ⟨levels, _ :: names⟩ => ⟨levels, names⟩

end Location

/-- The folders made and the files written so far, the last one first. Nothing is known of what
else stands above the start directory. -/
structure Directory where
  folders : List Location
  files : List (Location × ByteArray)

def pathNames (path : String) : List String :=
  (path.toList.splitOn '/').map String.ofList

/-- Whether a name in a path is that of a file or a folder; the others lead to the folder that they
are looked up in, or to its parent. -/
def isProperName (name : String) : Bool := name ≠ "" && name ≠ "." && name ≠ ".."

namespace Directory

def empty : Directory := ⟨[], []⟩

/-- The bytes of the file at a location. Of two files in one place the later one counts. -/
def file? (d : Directory) (l : Location) : Option ByteArray := d.files.lookup l

/-- Whether a folder is at a location. The start directory and all those above it are there. -/
def hasFolder (d : Directory) (l : Location) : Bool := l.names.isEmpty || d.folders.contains l

def step (d : Directory) (l : Location) (name : String) : Except ReadFailure Location :=
  -- Even `.` and `..` are looked up in a folder.
  if !d.hasFolder l then .error .notDirectory
  else if name = ".." then .ok l.parent
  else if !isProperName name then .ok l
  else if (d.file? (l.child name)).isSome || d.hasFolder (l.child name) then .ok (l.child name)
  else .error .notFound

/-- Where a path leads to. The empty path leads nowhere. -/
def locate (d : Directory) (path : String) : Except ReadFailure Location :=
  if path = "" then .error .notFound else (pathNames path).foldlM d.step .start

def read (d : Directory) (path : String) : Except ReadFailure String := do
  match d.file? (← d.locate path) with
  | none => throw .isDirectory
  | some bytes =>
    match String.fromUTF8? bytes with
    | some text => return text
    | none => throw .invalidData

/-- Follows one name of the path to a new file. A folder that is missing is made, even one that
the path leaves again by `..`. -/
def enter? : Directory × Location → String → Option (Directory × Location)
  | (d, l), name =>
    match d.step l name with
    | .ok next => some (d, next)
    | .error .notFound => some ({ d with folders := l.child name :: d.folders }, l.child name)
    | .error _ => none

/-- Writes a file and makes the folders on the way to it. It fails if a file stands where a folder
is needed or a folder where the file is to be. -/
def write? (d : Directory) (path : String) (bytes : ByteArray) : Option Directory := do
  let names := pathNames path
  let name ← names.getLast?
  let (d, folder) ← names.dropLast.foldlM enter? (d, .start)
  if d.hasFolder folder && isProperName name && !d.hasFolder (folder.child name) then
    some { d with files := (folder.child name, bytes) :: d.files }
  else
    none

def ofFiles? (files : List (String × ByteArray)) : Option Directory :=
  files.foldlM (fun d (path, bytes) => d.write? path bytes) empty

/-- The grammar of the file that a path leads to. The path is what the text is called in
diagnostics. -/
def compileFile (d : Directory) (path : String) (goals : Names) : Except Diagnostic Grammar :=
  match d.read path with
  | .error reason => .error (.unreadable path reason)
  | .ok text => compile text ⟨some path, goals⟩

end Directory
end GrammarText

/-!
# Paths

A path is kept as it was written and shown as it was written. What it denotes is its list of
components: repeated and trailing slashes do not count, and a `.` counts only at the start. Two
paths are the same place, and come in order, by their components.
-/

namespace ExtractionBench

/-- A file path in its written form. -/
structure Path where
  /-- The path as written. -/
  text : String
  deriving DecidableEq, Repr, Inhabited

/-- One step of a path. -/
inductive Component where
  /-- The slash that an absolute path starts with. -/
  | root
  /-- A `.` at the start of a path. -/
  | here
  /-- The step out of a directory, `..`. -/
  | up
  /-- The name of a file or directory. -/
  | named (name : String)
  deriving DecidableEq, Repr

/-- The order of components: the root, `.`, `..`, then names by their characters. -/
def Component.before : Component → Component → Bool
  | .named a, .named b => decide (a < b)
  | .named _, _ => false
  | _, .named _ => true
  | .up, _ => false
  | _, .up => true
  | .here, _ => false
  | .root, .here => true
  | .root, .root => false

namespace Path

/-- The texts between the slashes. -/
def segments (p : Path) : List (List Char) := p.text.toList.splitOn '/'

/-- A segment that stands for no component, unless it is the first one. -/
def isIdle (segment : List Char) : Bool := segment == [] || segment == ['.']

/-- The component that a segment after the first one stands for. -/
def component? (segment : List Char) : Option Component :=
  if isIdle segment then none
  else if segment == ['.', '.'] then some .up
  else some (.named (String.ofList segment))

/-- What stands before the ordinary segments of a path. -/
inductive Start where
  /-- Nothing: the path starts with a name or is empty. -/
  | plain
  /-- A slash. -/
  | root
  /-- A single `.`. -/
  | here
  deriving DecidableEq, Repr

/-- The written form of a start. -/
def Start.text : Start → List Char
  | .plain => []
  | .root => ['/']
  | .here => ['.']

/-- The component of a start. -/
def Start.components : Start → List Component
  | .plain => []
  | .root => [.root]
  | .here => [.here]

/-- A path as its start and its ordinary segments. -/
def split (p : Path) : Start × List (List Char) :=
  match p.segments with
  | [] :: first :: rest => (.root, first :: rest)
  | ['.'] :: rest => (.here, rest)
  | segments => (.plain, segments)

/-- The written form of a start and ordinary segments. -/
def unsplit (start : Start) (segments : List (List Char)) : Path :=
  let body := ['/'].intercalate segments
  ⟨String.ofList (start.text ++ (if start = .here && segments ≠ [] then ['/'] else []) ++ body)⟩

/-- The components of a path, in order. -/
def components (p : Path) : List Component :=
  p.split.1.components ++ p.split.2.filterMap component?

/-- Two paths have the same components. -/
def same (p q : Path) : Bool := p.components == q.components

/-- `p` comes before `q`, by components. -/
def before (p q : Path) : Bool := p.components.lex q.components Component.before

/-- The segments without those at the end that stand for no component. -/
def dropIdle (segments : List (List Char)) : List (List Char) :=
  (segments.reverse.dropWhile isIdle).reverse

/-- The path without its last component and the slashes before it. The root and the empty path have
no parent. -/
def parent? (p : Path) : Option Path :=
  match p.split.1, dropIdle p.split.2 with
  | .here, [] => some ⟨""⟩
  | _, [] => none
  | start, kept => some (unsplit start (dropIdle kept.dropLast))

/-- The directory that a path lies in; empty if it has none. -/
def parent (p : Path) : Path := p.parent?.getD ⟨""⟩

/-- The last component, if it is a name. -/
def fileName? (p : Path) : Option String :=
  match p.components.getLast? with
  | some (.named name) => some name
  | _ => none

/-- The text after the last point of a file name, unless the name starts with its only point or has
none. -/
def extension? (p : Path) : Option String :=
  p.fileName?.bind fun name =>
    let backwards := name.toList.reverse
    match backwards.dropWhile (· ≠ '.') with
    | _ :: _ :: _ => some (String.ofList (backwards.takeWhile (· ≠ '.')).reverse)
    | _ => none

/-- A path starts at the root. -/
def isAbsolute (p : Path) : Bool := p.text.toList.head? == some '/'

/-- A path ends in a slash. -/
def endsInSlash (p : Path) : Bool := p.text.toList.getLast? == some '/'

/-- The path of a file inside a directory. An absolute path stays as it is. -/
def join (directory file : Path) : Path :=
  if file.isAbsolute || directory.text.isEmpty then file
  else if directory.endsInSlash then ⟨directory.text ++ file.text⟩
  else ⟨directory.text ++ "/" ++ file.text⟩

end Path

end ExtractionBench

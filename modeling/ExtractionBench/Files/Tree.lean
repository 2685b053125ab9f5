import ExtractionBench.Chart.Drawing
import ExtractionBench.Files.Path
import ExtractionBench.Files.Problem
/-!
# File trees

The files and directories that a program works on, as a value. A place in the tree is the list of
names that lead to it from the root. A path is followed step by step from the working directory, and
every step but the last must end in a directory; so must the last one if more than a name follows
it, were it only a slash.
-/

namespace ExtractionBench

/-- What a file holds. -/
inductive Content where
  /-- Bytes. -/
  | bytes (data : List UInt8)
  /-- A chart, which a renderer turns into text. -/
  | drawing (d : Drawing)
  deriving DecidableEq, Repr

/-- What the text of every chart starts with. The rest is up to the renderer. -/
def chartStart : List UInt8 := "<svg".toUTF8.toList

/-- The bytes of a file; of a chart, those that do not depend on the renderer. -/
def Content.data : Content → List UInt8
  | .bytes data => data
  | .drawing _ => chartStart

/-- The text of a file, if it is UTF-8. -/
def Content.text? (c : Content) : Option String := String.fromUTF8? ⟨c.data.toArray⟩

/-- A file that holds a text. -/
def Content.ofText (s : String) : Content := .bytes s.toUTF8.toList

/-- What is at a place. -/
inductive Entry where
  /-- A directory. -/
  | directory
  /-- A file. -/
  | file (content : Content)
  deriving DecidableEq, Repr

/-- A place: the names that lead to it from the root. -/
abbrev Place := List String

/-- Files and directories, and the directory that paths start from. -/
structure FileTree where
  /-- The working directory. -/
  workplace : Place
  /-- What is at each place but the root, in the order in which the places were first used. -/
  entries : List (Place × Entry)
  deriving DecidableEq, Repr

namespace FileTree

/-- What is at a place. The root is a directory. -/
def at? (t : FileTree) (place : Place) : Option Entry :=
  if place = [] then some .directory
  else (t.entries.find? fun e => e.1 == place).map (·.2)

/-- Puts an entry at a place among others, instead of the one that is there. -/
def putEntry (place : Place) (entry : Entry) : List (Place × Entry) → List (Place × Entry)
  | [] => [(place, entry)]
  | (p, e) :: rest => if p = place then (p, entry) :: rest else (p, e) :: putEntry place entry rest

/-- The tree with an entry at a place. -/
def put (t : FileTree) (place : Place) (entry : Entry) : FileTree :=
  { t with entries := putEntry place entry t.entries }

/-- The tree without what is at a place. -/
def erase (t : FileTree) (place : Place) : FileTree :=
  { t with entries := t.entries.filter fun e => !(e.1 == place) }

/-- The tree with a directory at every place on the way to `place`. -/
def makeDirectories (t : FileTree) (place : Place) : FileTree :=
  (List.range (place.length + 1)).foldl (fun t n =>
    match t.at? (place.take n) with
    | some _ => t
    | none => t.put (place.take n) .directory) t

/-- A tree that holds nothing but the working directory. -/
def empty (workplace : Place) : FileTree := makeDirectories ⟨workplace, []⟩ workplace

/-- At the place of a put there is the new entry. -/
theorem find?_putEntry_self (place : Place) (entry : Entry) (entries : List (Place × Entry)) :
    ((putEntry place entry entries).find? fun e => e.1 == place) = some (place, entry) := by
  induction entries with
  | nil => simp [putEntry]
  | cons e rest ih =>
    obtain ⟨p, old⟩ := e
    by_cases h : p = place <;> simp [putEntry, h, ih]

/-- At any other place a put changes nothing. -/
theorem find?_putEntry_of_ne {place other : Place} (entry : Entry) (entries : List (Place × Entry))
    (h : other ≠ place) :
    ((putEntry place entry entries).find? fun e => e.1 == other) =
      entries.find? fun e => e.1 == other := by
  induction entries with
  | nil => simp [putEntry, Ne.symm h]
  | cons e rest ih =>
    obtain ⟨p, old⟩ := e
    by_cases hp : p = place
    · subst hp
      simp [putEntry, Ne.symm h]
    · simp only [putEntry, hp, if_false, List.find?_cons, ih]

/-- What was put is there. The root stays a directory. -/
theorem at?_put_self (t : FileTree) {place : Place} (entry : Entry) (h : place ≠ []) :
    (t.put place entry).at? place = some entry := by
  simp [at?, put, h, find?_putEntry_self]

/-- Every other place has what it had. -/
theorem at?_put_of_ne (t : FileTree) {place other : Place} (entry : Entry) (h : other ≠ place) :
    (t.put place entry).at? other = t.at? other := by
  simp [at?, put, find?_putEntry_of_ne entry t.entries h]

/-! ## Following a path -/

/-- Names have at most this many bytes. -/
def nameLimit : Nat := 255

/-- Whole paths have at most this many bytes. -/
def pathLimit : Nat := 4095

/-- One step from a directory. -/
def step (place : Place) (segment : List Char) : Place :=
  if Path.isIdle segment then place
  else if segment == ['.', '.'] then place.dropLast
  else place ++ [String.ofList segment]

/-- Follows segments from a place; each starts from a directory. -/
def follow (t : FileTree) : Place → List (List Char) → Except FileProblem Place
  | place, [] => .ok place
  | place, segment :: rest =>
    match t.at? place with
    | none => .error .missing
    | some (.file _) => .error .notDirectory
    | some .directory =>
      if nameLimit < (String.ofList segment).utf8ByteSize then .error .nameTooLong
      else follow t (step place segment) rest

/-- The place that a path leads to. There need not be anything. -/
def resolve (t : FileTree) (path : Path) : Except FileProblem Place :=
  if path.text.isEmpty then .error .missing
  else if path.text.toList.contains '\x00' then .error .nulInName
  else if pathLimit < path.text.utf8ByteSize then .error .nameTooLong
  else
    match path.segments with
    | [] :: rest => t.follow [] rest
    | segments => t.follow t.workplace segments

/-- What a path leads to. -/
def open? (t : FileTree) (path : Path) : Except FileProblem Entry := do
  let place ← t.resolve path
  match t.at? place with
  | some entry => .ok entry
  | none => .error .missing

/-- The content of the file that a path leads to. -/
def read (t : FileTree) (path : Path) : Except FileProblem Content := do
  match ← t.open? path with
  | .file content => .ok content
  | .directory => .error .isDirectory

/-- The text of the file that a path leads to. -/
def readText (t : FileTree) (path : Path) : Except FileProblem String := do
  match (← t.read path).text? with
  | some s => .ok s
  | none => .error .notText

/-- The path without the slashes it ends with. -/
def withoutSlash (path : Path) : Path :=
  ⟨String.ofList (path.text.toList.reverse.dropWhile (· == '/')).reverse⟩

/-- The place of the file that a path names, to be written: there is a file or nothing. A path that
ends in a slash names a directory, even where there is nothing yet. -/
def target (t : FileTree) (path : Path) : Except FileProblem Place :=
  match t.resolve path with
  | .ok place => if t.at? place = some .directory then .error .isDirectory else .ok place
  | .error .missing =>
    if path.endsInSlash && (t.resolve (withoutSlash path)).isOk then .error .isDirectory
      else .error .missing
  | .error problem => .error problem

/-- The tree after a file was written. Nothing else changes, and nothing at all if it cannot be
written. -/
def write (t : FileTree) (path : Path) (content : Content) : Except FileProblem FileTree := do
  let place ← t.target path
  return t.put place (.file content)

/-! ## Listing -/

/-- The places below the working directory that have a property, as paths from there. -/
def listBelow (t : FileTree) (keep : Place → Entry → Bool) : List String :=
  t.entries.filterMap fun (place, entry) =>
    let below := place.drop t.workplace.length
    if t.workplace.isPrefixOf place && below ≠ [] && keep below entry then
      some ("/".intercalate below) else none

/-- The files below the working directory, in order of their paths' texts. -/
def files (t : FileTree) : List String :=
  (t.listBelow fun _ entry => match entry with
    | .file _ => true
    | .directory => false).mergeSort fun a b => decide (a ≤ b)

/-- The directory that the runner writes its results to. -/
def resultsDirectory : String := "output"

/-- The end of the names of the runner's results. -/
def resultsEnding : String := ".json"

/-- Everything at any depth below the results directory whose name ends as those of results do, in
path order. -/
def defaultInputs (t : FileTree) : List Path :=
  let places := t.listBelow fun place _ =>
    place.head? == some resultsDirectory && 1 < place.length
      && (place.getLast?.any fun name => resultsEnding.toList.isSuffixOf name.toList)
  (places.map Path.mk).mergeSort fun p q => !q.before p

end FileTree

end ExtractionBench

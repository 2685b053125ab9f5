/-!
# Command lines

A command line is a list of words. A word `--name` is a flag, or an option that takes the next word
for its value; `--name=value` gives the value in the same word. Any other word that does not start
with a dash is a file, a single dash too, and so is every word after `--`. The words are first taken
apart from left to right, then each option is checked, in the order in which the options were first
used.
-/

namespace ExtractionBench.CommandLine

/-- Why a command line is refused. -/
inductive UsageProblem where
  /-- An option that there is not, or a file where none is taken. -/
  | unknownArgument
  /-- A value that is not one of those an option can have. -/
  | invalidValue
  /-- An option without its value. -/
  | emptyValue
  /-- An option or flag that is given more than once. -/
  | repeatedOption
  /-- A flag with a value. -/
  | tooManyValues
  /-- No file where one is needed. -/
  | missingFile
  /-- Help was asked for. -/
  | helpAsked
  deriving DecidableEq, Repr

/-- What an option takes. -/
inductive OptionKind where
  /-- Nothing. -/
  | flag
  /-- One value of a list. -/
  | choice (values : List String)
  /-- Any value, once. -/
  | text
  /-- Any value, each time it is given. -/
  | texts
  deriving DecidableEq, Repr

/-- Whether an option takes a value. -/
def OptionKind.takesValue : OptionKind → Bool
  | .flag => false
  | _ => true

/-- An option. -/
structure Opt where
  /-- Its name, without the dashes. -/
  name : String
  /-- What it takes. -/
  kind : OptionKind
  deriving DecidableEq, Repr

/-- An option as it was given. -/
structure Use where
  /-- The option. -/
  option : Opt
  /-- Its value, if there was one. -/
  value : Option String
  deriving DecidableEq, Repr

/-- What a program takes. -/
structure Grammar where
  /-- Its options. -/
  options : List Opt
  /-- Whether it takes files. -/
  takesFiles : Bool

/-- A command line taken apart. -/
structure Words where
  /-- The options in the order in which they were given. -/
  uses : List Use
  /-- The files. -/
  files : List String
  /-- The option at the end that still waits for its value. -/
  waiting : Option Opt

/-- No words. -/
def Words.none : Words := ⟨[], [], .none⟩

/-- An option given before other words. -/
def Words.addUse (use : Use) (ws : Words) : Words := { ws with uses := use :: ws.uses }

/-- A file given before other words. -/
def Words.addFile (file : String) (ws : Words) : Words := { ws with files := file :: ws.files }

/-- The words that ask for help. -/
def helpName : String := "help"

/-- What a word looks like. -/
inductive Look where
  /-- Two dashes and nothing else. -/
  | separator
  /-- An option, `--name` or `--name=value`. -/
  | long (name : String) (value : Option String)
  /-- A dash and letters. -/
  | short (letters : List Char)
  /-- Anything else. -/
  | plain
  deriving DecidableEq, Repr

/-- The look of a word. -/
def lookOf (word : String) : Look :=
  match word.toList with
  | ['-', '-'] => .separator
  | '-' :: '-' :: rest =>
    match rest.dropWhile (· ≠ '=') with
    | _ :: value => .long (String.ofList (rest.takeWhile (· ≠ '='))) (some (String.ofList value))
    | [] => .long (String.ofList rest) none
  | '-' :: c :: rest => .short (c :: rest)
  | _ => .plain

/-- The option with a name. -/
def Grammar.find? (g : Grammar) (name : String) : Option Opt := g.options.find? (·.name == name)

/-- Takes words apart; `waiting` is the option before them that has no value yet. -/
def Grammar.split (g : Grammar) : (waiting : Option Opt) → List String → Except UsageProblem Words
  | none, [] => .ok .none
  | some o, [] => .ok { Words.none with uses := [⟨o, none⟩], waiting := some o }
  | waiting, word :: rest =>
    let unanswered (ws : Words) : Words :=
      match waiting with
      | some o => ws.addUse ⟨o, none⟩
      | none => ws
    match lookOf word with
    | .separator =>
      if rest.isEmpty then .ok (unanswered { Words.none with waiting := waiting })
      else if g.takesFiles then .ok (unanswered { Words.none with files := rest })
      else .error .unknownArgument
    | .long name value =>
      if name = helpName then
        .error (if value.isSome then .tooManyValues else .helpAsked)
      else
        match g.find? name with
        | none => .error .unknownArgument
        | some o =>
          match o.kind.takesValue, value with
          | true, some v => (g.split none rest).map fun ws => unanswered (ws.addUse ⟨o, some v⟩)
          | true, none => (g.split (some o) rest).map unanswered
          | false, some _ => .error .tooManyValues
          | false, none => (g.split none rest).map fun ws => unanswered (ws.addUse ⟨o, none⟩)
    | .short letters => .error (if letters.head? = some 'h' then .helpAsked else .unknownArgument)
    | .plain =>
      match waiting with
      | some o => (g.split none rest).map (·.addUse ⟨o, some word⟩)
      | none =>
        if g.takesFiles then (g.split none rest).map (·.addFile word) else .error .unknownArgument

/-- The values that an option was given, in order. -/
def valuesOf (name : String) (uses : List Use) : List String :=
  (uses.filter (·.option.name == name)).filterMap (·.value)

/-- Whether an option was given. -/
def given (name : String) (uses : List Use) : Bool := uses.any (·.option.name == name)

/-- Whether an option was given without any value. -/
def isUnanswered (o : Opt) (uses : List Use) : Bool :=
  o.kind.takesValue && (valuesOf o.name uses).isEmpty

/-- Whether an option may have a value. -/
def allows (o : Opt) (value : String) : Bool :=
  match o.kind with
  | .choice values => values.contains value
  | _ => true

/-- Checks an option that was given. -/
def checkOption (uses : List Use) (o : Opt) : Except UsageProblem Unit :=
  if isUnanswered o uses then .error .emptyValue
  else if (valuesOf o.name uses).any fun v => !allows o v then .error .invalidValue
  else if o.kind ≠ .texts && 1 < (uses.filter (·.option.name == o.name)).length then
    .error .repeatedOption
  else .ok ()

/-- The options that were given, in the order of their first uses. -/
def usedOptions (uses : List Use) : List Opt := (uses.map (·.option)).eraseDups

/-- Checks everything that was given. An option that waits for its value at the end is told
first. -/
def Words.check (ws : Words) : Except UsageProblem Unit :=
  if ws.waiting.any fun o => isUnanswered o ws.uses then .error .emptyValue
  else (usedOptions ws.uses).forM (checkOption ws.uses)

/-- The options and files of a command line. -/
def Grammar.read (g : Grammar) (words : List String) : Except UsageProblem Words := do
  let ws ← g.split none words
  ws.check
  return ws

end ExtractionBench.CommandLine

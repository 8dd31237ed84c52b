import Twinfold.CommandLine.Invocation

/-!
# Reading a command line

Arguments are read one after another.  An option is long (`--name`, `--name=value`)
or short (`-n`, `-nvalue`, `-n=value`, `-n value`), short switches may stand together,
and `--` ends the options.  A value that stands on its own must not begin with a
hyphen, unless it is a hyphen.

An argument that waits for its value, or whose value stands on its own, stays
**pending** and is settled when the next option or file comes: a misspelled option
behind it is therefore reported first.  Every option may be given once.

When all arguments are read, `Given.invocation` looks for options that exclude each
other and then for what is missing.
-/

namespace Twinfold

/-- The options that take no value. -/
inductive Switch
  | analyze
  | showFullNames
  | keepWhitespace
  | ignoreParamNames
  | emscripten
  | compact
  | stats
  | verbose
  | quiet
  | help
  | version
deriving DecidableEq, Repr

/-- The options that take a value. -/
inductive Setting
  | output
  | format
  | symbols
  | minLines
  | regionStart
  | regionEnd
  | jobs
deriving DecidableEq, Repr

/-- An option. -/
inductive OptionName
  | switch (s : Switch)
  | setting (s : Setting)
deriving DecidableEq, Repr

namespace OptionName

/-- The long names of the options. -/
def longNames : List (String × OptionName) :=
  [("analyze", .switch .analyze),
   ("output", .setting .output),
   ("format", .setting .format),
   ("show-original-names", .switch .showFullNames),
   ("symbols", .setting .symbols),
   ("no-normalize-whitespace", .switch .keepWhitespace),
   ("ignore-param-names", .switch .ignoreParamNames),
   ("min-lines", .setting .minLines),
   ("emscripten", .switch .emscripten),
   ("region-start", .setting .regionStart),
   ("region-end", .setting .regionEnd),
   ("compact", .switch .compact),
   ("stats", .switch .stats),
   ("jobs", .setting .jobs),
   ("verbose", .switch .verbose),
   ("quiet", .switch .quiet),
   ("help", .switch .help),
   ("version", .switch .version)]

/-- The short names of the options. -/
def shortNames : List (Char × OptionName) :=
  [('a', .switch .analyze),
   ('o', .setting .output),
   ('s', .switch .showFullNames),
   ('j', .setting .jobs),
   ('v', .switch .verbose),
   ('q', .switch .quiet),
   ('h', .switch .help),
   ('V', .switch .version)]

/-- The option with a long name. -/
def ofLong? (name : Text) : Option OptionName :=
  (longNames.find? fun entry => entry.1.toList = name).map Prod.snd

/-- The option with a short name. -/
def ofShort? (c : Char) : Option OptionName := shortNames.lookup c

end OptionName

/-! ### Values -/

/-- Reads decimal digits behind the number `n`. -/
def readDigits (n : Nat) : Text → Option Nat
  | [] => some n
  | c :: t => if c.isDigit then readDigits (10 * n + (c.toNat - '0'.toNat)) t else none

/-- The largest number an option takes. -/
def largestCount : Nat := 18446744073709551615

/-- Reads a number: digits, perhaps behind a plus sign. -/
def readCount? (t : Text) : Option Nat :=
  let digits := match t with
    | '+' :: digits => digits
    | digits => digits
  if digits.isEmpty then none else (readDigits 0 digits).filter fun n => n ≤ largestCount

/-- Reads the name of a format. -/
def readFormat? (t : Text) : Option Format :=
  if t = "groups".toList then some .groups
  else if t = "text".toList then some .text
  else if t = "json".toList then some .json
  else none

/-- What is wrong with the value of an option, if anything. -/
def Setting.valueError? (s : Setting) (value : Text) : Option UsageError :=
  match s with
  | .output | .symbols => if value.isEmpty then some .invalidValue else none
  | .format => if (readFormat? value).isNone then some .invalidValue else none
  | .minLines | .jobs => if (readCount? value).isNone then some .valueValidation else none
  | .regionStart | .regionEnd => none

/-! ### Arguments -/

/-- What the arguments read so far give. -/
structure Given where
  switches : List Switch := []
  settings : List (Setting × Text) := []
  file : Option Text := none
deriving DecidableEq, Repr

namespace Given

/-- Whether a switch is given. -/
def has (g : Given) (s : Switch) : Bool := g.switches.contains s

/-- The value an option is given. -/
def value? (g : Given) (s : Setting) : Option Text := g.settings.lookup s

end Given

/-- An argument that is not settled yet. -/
inductive Pending
  /-- An option that waits for its value. -/
  | waiting (s : Setting)
  /-- An option with a value that stands on its own. -/
  | setting (s : Setting) (value : Text)
  /-- The file. -/
  | file (name : Text)
deriving DecidableEq, Repr

/-- A command line while it is read. -/
structure ArgReader where
  given : Given := {}
  pending : Option Pending := none
deriving DecidableEq, Repr

namespace ArgReader

/-- Gives an option its value. -/
def give (g : Given) (s : Setting) (value : Text) : Except UsageError Given :=
  if (g.value? s).isSome then .error .argumentConflict
  else
    match s.valueError? value with
    | some error => .error error
    | none => .ok { g with settings := g.settings ++ [(s, value)] }

/-- Settles the pending argument. -/
def settle (r : ArgReader) : Except UsageError Given :=
  match r.pending with
  | none => .ok r.given
  | some (.waiting _) => .error .invalidValue
  | some (.setting s value) => give r.given s value
  | some (.file name) =>
    if name.isEmpty then .error .invalidValue else .ok { r.given with file := some name }

/-- Reads a switch. -/
def readSwitch (r : ArgReader) (s : Switch) : Except UsageError ArgReader := do
  let g ← r.settle
  match s with
  | .help => .error .displayHelp
  | .version => .error .displayVersion
  | s =>
    if g.has s then .error .argumentConflict
    else .ok ⟨{ g with switches := g.switches ++ [s] }, none⟩

/-- Reads an option together with its value. -/
def readSetting (r : ArgReader) (s : Setting) (value : Text) : Except UsageError ArgReader := do
  let g ← r.settle
  return ⟨← give g s value, none⟩

/-- Reads an option whose value is the next argument. -/
def awaitValue (r : ArgReader) (s : Setting) : Except UsageError ArgReader := do
  return ⟨← r.settle, some (.waiting s)⟩

/-- Whether the file is given, settled or not. -/
def hasFile (r : ArgReader) : Bool :=
  r.given.file.isSome ||
    match r.pending with
    | some (.file _) => true
    | _ => false

/-- Reads the name of the file, of which there is one. -/
def readFile (r : ArgReader) (name : Text) : Except UsageError ArgReader :=
  if r.hasFile then .error .unknownArgument
  else r.settle.map fun g => ⟨g, some (.file name)⟩

/-- Reads what stands behind two hyphens. -/
def readLong (r : ArgReader) (arg : Text) : Except UsageError ArgReader :=
  let (name, value?) := match Text.splitOnce '=' arg with
    | some (name, value) => (name, some value)
    | none => (arg, none)
  match OptionName.ofLong? name, value? with
  | none, _ => .error .unknownArgument
  | some (.switch _), some _ => .error .tooManyValues
  | some (.switch s), none => r.readSwitch s
  | some (.setting s), some value => r.readSetting s value
  | some (.setting s), none => r.awaitValue s

/-- Reads what stands behind one hyphen: switches, and perhaps an option that takes
the rest for its value. -/
def readShort (r : ArgReader) : Text → Except UsageError ArgReader
  | [] => .ok r
  | c :: rest =>
    match OptionName.ofShort? c with
    | none => .error .unknownArgument
    | some (.switch s) => do (← r.readSwitch s).readShort rest
    | some (.setting s) =>
      match rest with
      | [] => r.awaitValue s
      | '=' :: value => r.readSetting s value
      | value => r.readSetting s value

/-- Reads an argument that is no option: a value that is waited for, or the file. -/
def readPlain (r : ArgReader) (arg : Text) : Except UsageError ArgReader :=
  match r.pending with
  | some (.waiting s) => .ok { r with pending := some (.setting s arg) }
  | _ => r.readFile arg

/-- Reads one argument in front of `--`. -/
def readArg (r : ArgReader) (arg : Text) : Except UsageError ArgReader :=
  match arg with
  | '-' :: '-' :: long => r.readLong long
  | '-' :: c :: short => r.readShort (c :: short)
  | _ => r.readPlain arg

/-- Reads all arguments; `ended` behind `--`, where no options are left. -/
def readAll (r : ArgReader) (ended : Bool) : List Text → Except UsageError ArgReader
  | [] => .ok r
  | arg :: args =>
    if ended then do (← r.readFile arg).readAll true args
    else if arg = ['-', '-'] then r.readAll true args
    else do (← r.readArg arg).readAll false args

end ArgReader

/-! ### The whole command line -/

namespace Given

/-- Whether options are given that exclude each other. -/
def conflicts (g : Given) : Bool :=
  (g.has .emscripten && ((g.value? .regionStart).isSome || (g.value? .regionEnd).isSome)) ||
    (g.has .verbose && g.has .quiet)

/-- The region asked for. -/
def region (g : Given) : Option Region :=
  if g.has .emscripten then some .emscripten
  else
    match g.value? .regionStart, g.value? .regionEnd with
    | some start, some stop => some ⟨start, stop⟩
    | _, _ => none

/-- What the arguments ask for, or what is wrong with them. -/
def invocation (g : Given) : Except UsageError Invocation :=
  if g.conflicts then .error .argumentConflict
  else if (g.value? .regionStart).isSome != (g.value? .regionEnd).isSome then
    .error .missingRequiredArgument
  else
    match g.file with
    | none => .error .missingRequiredArgument
    | some file => .ok
      { file
        analyze := g.has .analyze
        output := g.value? .output
        format := ((g.value? .format).bind readFormat?).getD .groups
        showFullNames := g.has .showFullNames
        symbols := g.value? .symbols
        keepWhitespace := g.has .keepWhitespace
        ignoreParamNames := g.has .ignoreParamNames
        minLines := ((g.value? .minLines).bind readCount?).getD 1
        region := g.region
        compact := g.has .compact
        stats := g.has .stats
        jobs := (g.value? .jobs).bind readCount?
        verbose := g.has .verbose
        quiet := g.has .quiet }

end Given

/-- Reads a command line. -/
def parseArgs (args : List Text) : Except UsageError Invocation := do
  let reader ← ArgReader.readAll {} false args
  (← reader.settle).invocation

/-- Reads a command line, or says how it is answered. -/
def parseOrRefuse (args : List Text) : Except Refusal Invocation :=
  (parseArgs args).mapError UsageError.refusal

end Twinfold

import Twinfold.Coalesce.Generated

/-!
# What a command line asks for

A `Request` holds the file to read and everything the options say, whatever paths are.
Without `analyze` the file is coalesced; with it the groups are reported.  An `Invocation`
is a request in which paths are texts.

A command line that asks for help or for the version, or that cannot be understood, comes
to a `Refusal`: it is answered without a look at any file.
-/

namespace Twinfold

/-- The formats of a report. -/
inductive Format
  /-- Nested lists of names. -/
  | groups
  /-- A listing to be read. -/
  | text
  /-- A document with all details. -/
  | json
deriving DecidableEq, Repr

/-- What a command line asks for, where `P` is the type of paths. -/
structure Request (P : Type) where
  /-- The source file. -/
  file : P
  /-- Report the groups and leave the source as it is. -/
  analyze : Bool
  /-- The file to write to, and not standard output. -/
  output : Option P
  format : Format
  /-- Look up function names in a symbol map. -/
  showFullNames : Bool
  /-- The symbol map to use. -/
  symbols : Option P
  /-- White space counts when lines are compared. -/
  keepWhitespace : Bool
  ignoreParamNames : Bool
  minLines : Nat
  region : Option Region
  compact : Bool
  /-- Print the numbers of the detection. -/
  stats : Bool
  /-- How many threads to use at most. -/
  jobs : Option Nat
  verbose : Bool
  quiet : Bool
deriving DecidableEq, Repr

/-- What a command line asks for, with paths as texts. -/
abbrev Invocation := Request Text

namespace Request

variable {P : Type}

/-- The options of the detection. -/
def options (i : Request P) : Options where
  rules := ⟨!i.keepWhitespace, i.ignoreParamNames⟩
  minLines := i.minLines
  region := i.region

/-- The layout of generated functions. -/
def layout (i : Request P) : Layout := ⟨i.compact⟩

/-- Whether a symbol map is asked for. -/
def needsSymbolMap (i : Request P) : Bool := i.showFullNames || i.symbols.isSome

/-- The least important level of the records that are shown, if it is asked for. -/
def logLevel (i : Request P) : Option LogLevel :=
  if i.quiet then some .warn else if i.verbose then some .debug else none

end Request

/-! ### Command lines that are not carried out -/

/-- Why a command line is not carried out. -/
inductive UsageError
  | displayHelp
  | displayVersion
  /-- No file is given, or one region marker without the other. -/
  | missingRequiredArgument
  | unknownArgument
  /-- Options exclude each other, or one is given twice. -/
  | argumentConflict
  /-- A value is missing, empty where it must not be, or none of those possible. -/
  | invalidValue
  /-- A value is not a number, or too large. -/
  | valueValidation
  /-- A value is given to an option that takes none. -/
  | tooManyValues
deriving DecidableEq, Repr

/-- The exit code: asking for help or the version is no failure. -/
def UsageError.exitCode : UsageError → Nat
  | .displayHelp | .displayVersion => 0
  | _ => 2

/-- What is printed on request, and behind a usage error. -/
def usageText : String :=
  "Usage: twinfold [OPTIONS] <FILE>

Finds functions whose bodies differ in at most one line and, unless --analyze is
given, lets the functions of every group share one body.

Arguments:
  <FILE>                       Source file to analyze

Options:
  -a, --analyze                Report the groups of similar functions
  -o, --output <FILE>          Write to a file and not to standard output
      --format <FORMAT>        Format of the report: groups, text or json [default: groups]
  -s, --show-original-names    Look up function names in the symbol map (<FILE>.symbols)
      --symbols <FILE>         Symbol map to use instead of <FILE>.symbols
      --no-normalize-whitespace
                               Treat differences in spacing as differences of lines
      --ignore-param-names     Compare parameters by position instead of by name
      --min-lines <N>          Minimum number of body lines to be compared [default: 1]
      --emscripten             Only consider functions between the Emscripten markers
      --region-start <MARKER>  Only consider functions after this marker
      --region-end <MARKER>    Only consider functions before this marker
      --compact                Leave out optional spaces in generated functions
      --stats                  Print detection statistics to stderr
  -j, --jobs <N>               Maximum number of threads
  -v, --verbose                Log progress details
  -q, --quiet                  Only log warnings
  -h, --help                   Print help
  -V, --version                Print version
"

/-- The version that is printed on request. -/
def versionText : String := "twinfold 0.1.0\n"

/-- What a usage error is about. -/
def UsageError.message : UsageError → String
  | .displayHelp | .displayVersion => ""
  | .missingRequiredArgument => "a required argument is missing"
  | .unknownArgument => "an argument is not known"
  | .argumentConflict => "arguments exclude each other"
  | .invalidValue => "a value is missing or not possible"
  | .valueValidation => "a value is not a number in range"
  | .tooManyValues => "a value is given to an option that takes none"

/-- What a command line that is not carried out comes to. -/
structure Refusal where
  exitCode : Nat
  stdout : Text
  stderr : Text
deriving DecidableEq, Repr

/-- Help and the version are printed to standard output, everything else is an error. -/
def UsageError.refusal (e : UsageError) : Refusal :=
  match e with
  | .displayHelp => ⟨e.exitCode, usageText.toList, []⟩
  | .displayVersion => ⟨e.exitCode, versionText.toList, []⟩
  | e => ⟨e.exitCode, [], s!"error: {e.message}\n\n{usageText}".toList⟩

end Twinfold

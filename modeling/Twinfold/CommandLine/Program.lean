import Twinfold.Coalesce.Plan
import Twinfold.CommandLine.Invocation
import Twinfold.Files.Path
import Twinfold.Report

/-!
# Carrying out a command line

A run is written over whatever machine it runs on.  It asks a `Host` for everything that is not
computed: the current directory, the content of a file, a new file beside another one, standard
output.  Every answer comes from a monad `m`, and each of them may be a failure with a cause.
Paths have a type `P` of their own, and `Paths` is what a run does with them; new files are known
by handles of a type `T`.  The same run is carried out by the machine itself, with `IO` for `m`,
and in memory.

A run reads a source file and produces one text: the source with shared bodies, or a report.  Only
when that text is complete is it delivered, to standard output or to a file.  A file is not
written over: the text goes to a new file beside it, which takes its place when all of it is there.

`produce` makes the text, `deliver` brings it to where it goes, and `runArgs` is a whole command
line with its exit code.
-/

namespace Twinfold

/-! ### The host of a run -/

/-- How paths are taken apart and shown. -/
structure Paths (P : Type) where
  /-- Whether a path starts at the root. -/
  isAbsolute : P → Bool
  /-- The normal form of a path, seen from a directory if one is given. -/
  normalFrom : Option P → P → P
  /-- The symbol map that belongs to a file. -/
  symbolsOf : P → P
  /-- The directory in which a file is written. -/
  directory : P → P
  /-- The path as it is printed. -/
  shown : P → String

/-- What a run asks of the machine it runs on. -/
structure Host (m : Type → Type) (P T : Type) where
  paths : Paths P
  /-- Sets the level from which log records are shown; without one, the default. -/
  setLogLevel : Option LogLevel → m Unit
  /-- Logs a record. -/
  log : LogRecord → m Unit
  /-- Logs how long the run has taken. -/
  logFinished : m Unit
  /-- Starts so many threads to work with. -/
  startThreads : Nat → m (Except String Unit)
  /-- The current directory. -/
  currentDir : m (Except String P)
  /-- The path without links, for what is there. -/
  canonicalize : P → m (Except String P)
  /-- The text of a file. -/
  readText : P → m (Except String Text)
  /-- Creates a new file in a directory, under a name that is not in use there. -/
  createTemp : P → m (Except String T)
  /-- Writes a text to a new file, all of it or only a part if that fails. -/
  writeTemp : T → Text → m (Except String Unit)
  /-- Hands over what is still held back of what was written to a new file. -/
  flushTemp : T → m (Except String Unit)
  /-- Moves a new file to a path, in the place of what is there. -/
  persist : T → P → m (Except String Unit)
  /-- Removes a new file. -/
  dropTemp : T → m Unit
  /-- Writes a text to standard output, all of it or only a part if that fails. -/
  print : Text → m (Except String Unit)
  /-- Writes a text to standard error. -/
  printError : Text → m (Except String Unit)

/-- Paths as texts. -/
def Path.paths : Paths Path where
  isAbsolute := Path.isAbsolute
  normalFrom dir p :=
    match dir with
    | some dir => Path.resolve dir p
    | none => p.normalize
  symbolsOf := Path.symbolsOf
  directory := Path.directory
  shown := String.ofList

/-! ### Failures -/

/-- Why a symbol map cannot be used. -/
inductive SymbolsError (P : Type)
  | read (cause : String) (path : P)
  | parse (error : SymbolMapError)
deriving DecidableEq, Repr

/-- Why a run fails. -/
inductive RunError (P : Type)
  /-- The threads to work with cannot be started. -/
  | threads (cause : String)
  /-- The source file cannot be looked for. -/
  | resolve (cause : String) (path : P)
  /-- The source file cannot be read. -/
  | read (cause : String) (path : P)
  /-- The source cannot be parsed. -/
  | parse (error : ParseError) (path : P)
  /-- The source cannot be coalesced. -/
  | coalesce (error : CoalesceError) (path : P)
  /-- The symbol map cannot be looked for. -/
  | symbolsPath (cause : String)
  | symbols (error : SymbolsError P)
  /-- The new file cannot be created beside the output. -/
  | create (cause : String) (directory : P)
  /-- The text cannot be written to the new file. -/
  | write (cause : String) (path : P)
  /-- The new file cannot take the place of the output. -/
  | replace (cause : String) (path : P)
  /-- The text cannot be written to standard output. -/
  | stdout (cause : String)
  /-- Nothing can be written to standard error. -/
  | unheard
deriving DecidableEq, Repr

section

variable {P : Type} (shown : P → String)

/-- The wording of a failure to read a file, which ends with its cause. -/
def readMessage (cause : String) (path : P) : String :=
  s!"I/O error: {cause} (path: {shown path}): {cause}"

/-- The wording of a failure, from the outermost cause to the innermost. -/
def RunError.message : RunError P → String
  | .threads cause => s!"failed to configure worker threads: {cause}"
  | .resolve cause path => s!"failed to resolve {shown path}: {cause}"
  | .read cause path => readMessage shown cause path
  | .parse error path => s!"failed to parse {shown path}: {error.message}"
  | .coalesce (.parse error) path =>
    s!"failed to rewrite {shown path}: parse error: {error.message}: {error.message}"
  | .coalesce (.count expected found) path =>
    s!"failed to rewrite {shown path}: " ++ (CoalesceError.count expected found).message
  | .symbolsPath cause => s!"failed to resolve symbol map path: {cause}"
  | .symbols (.read cause path) => "failed to load symbol map: " ++ readMessage shown cause path
  | .symbols (.parse error) => "failed to load symbol map: " ++ error.message
  | .create cause directory => s!"failed to create temporary file in {shown directory}: {cause}"
  | .write cause path => s!"failed to write {shown path}: {cause}"
  | .replace cause path => s!"failed to replace {shown path}: {cause}"
  | .stdout cause => s!"failed to write to stdout: {cause}"
  | .unheard => ""

end

/-- The exit code of a program that cannot say what is wrong. -/
def panicCode : Nat := 101

/-- A computation on a host that may fail. -/
abbrev RunM (m : Type → Type) (P : Type) := ExceptT (RunError P) m

variable {m : Type → Type} [Monad m] {P T A : Type} (host : Host m P T)

namespace RunM

/-- Goes on with what the host answers, or fails. -/
def ask {ε α : Type} (cause : ε → RunError P) (x : m (Except ε α)) : RunM m P α :=
  ExceptT.mk (Except.mapError cause <$> x)

/-- Goes on with a result, or fails. -/
def require {ε α : Type} (cause : ε → RunError P) (result : Except ε α) : RunM m P α :=
  ask cause (pure result)

/-- Logs records. -/
def tell (records : List LogRecord) : RunM m P Unit := ExceptT.lift (records.forM host.log)

end RunM

open RunM

/-! ### Making the text -/

/-- The directory from which a path is seen, if it does not start at the root. -/
def viewpoint (p : P) : m (Except String (Option P)) :=
  if host.paths.isAbsolute p then return .ok none else (Except.map some) <$> host.currentDir

/-- The path under which a file is looked up: where its normal form leads, or the normal form
where nothing is there. -/
def resolve (p : P) : m (Except String P) := do
  match ← viewpoint host p with
  | .error cause => return .error cause
  | .ok dir =>
    match ← host.canonicalize (host.paths.normalFrom dir p) with
    | .ok canonical => return .ok canonical
    | .error _ => return .ok (host.paths.normalFrom dir p)

/-- Looks up where the symbol map is: the one asked for, or the one that belongs to the input. -/
def findSymbols (i : Request P) (input : P) : RunM m P P :=
  match i.symbols with
  | some p => ask .symbolsPath (resolve host p)
  | none => pure (host.paths.symbolsOf input)

/-- Reads the symbol map, if one is asked for. -/
def loadSymbols (i : Request P) (input : P) : RunM m P (Option SymbolMap) :=
  if i.needsSymbolMap then do
    let path ← findSymbols host i input
    let text ← ask (fun cause => .symbols (.read cause path)) (host.readText path)
    let symbols ← require (fun error => .symbols (.parse error)) (SymbolMap.parse text)
    tell host [.debug s!"loaded {symbols.size} symbols from {host.paths.shown path}"]
    return some symbols
  else return none

/-- The report on a detection in the format asked for. -/
def renderReport (i : Request P) (symbols : Option SymbolMap) (d : Detection) : RunM m P Text :=
  match i.format with
  | .groups => do
    let names := Report.nameGroups d
    match symbols with
    | none => return (Report.namesJson names).compact ++ ['\n']
    | some known =>
      tell host (Report.unknownNames known names)
      return (Report.namesJson (Report.expandGroups known names)).compact ++ ['\n']
  | .text => return (Report.of symbols none d).toText
  | .json =>
    let tally := if i.stats then some d.tally else none
    return (Report.of symbols tally d).document.pretty 0 ++ ['\n']

/-- Warns of a symbol map that is asked for and not used. -/
def warnOfSymbols (i : Request P) : RunM m P Unit :=
  if i.needsSymbolMap then
    tell host [.warn "symbol map is only used with --analyze; ignoring it"]
  else return ()

/-- The source with shared bodies. -/
def renderCoalesced (i : Request P) (input : P) (source : Text) (d : Detection) :
    RunM m P Text := do
  warnOfSymbols host i
  let planned ← require (fun e => .coalesce (.parse e) input) (plan source d i.layout)
  tell host (planned.log d)
  let result ← require (fun e => .coalesce e input) (planned.carryOut source)
  tell host result.log
  tell host [.info result.summary, .info s!"{source.size} -> {result.text.size} bytes"]
  return result.text

/-- What is made of a detection: a report, or the source with shared bodies. -/
def render (i : Request P) (input : P) (source : Text) (d : Detection) : RunM m P Text :=
  if i.analyze then do renderReport host i (← loadSymbols host i input) d
  else renderCoalesced host i input source d

/-- Prints the numbers of a detection, if they are asked for and not part of the report. -/
def printTally (i : Request P) (d : Detection) : RunM m P Unit :=
  if i.stats && !(i.analyze && i.format = .json) then
    ask (fun _ => .unheard) (host.printError d.tally.toText)
  else return ()

/-- Starts the threads that are asked for. -/
def startThreads (i : Request P) : RunM m P Unit :=
  match i.jobs with
  | some jobs => ask .threads (host.startThreads jobs)
  | none => pure ()

/-- Makes the text that a command line asks for. -/
def produce (i : Request P) : RunM m P Text := do
  startThreads host i
  let input ← ask (fun cause => .resolve cause i.file) (resolve host i.file)
  let source ← ask (fun cause => .read cause input) (host.readText input)
  tell host [.debug s!"read {source.size} bytes from {host.paths.shown input}"]
  let d ← require (fun error => .parse error input) (detect source i.options)
  tell host d.log
  tell host [.info s!"{d.tally.functions} functions, {d.duplicates.length} similarity groups"]
  let text ← render host i input source d
  printTally host i d
  return text

/-! ### Delivering it -/

/-- Writes all of a text to a new file. -/
def writeAll (temp : T) (text : Text) : m (Except String Unit) := do
  match ← host.writeTemp temp text with
  | .error cause => return .error cause
  | .ok () => host.flushTemp temp

/-- Fills a new file and moves it to a path.  If either fails, the new file is removed. -/
def fillTemp (temp : T) (path : P) (text : Text) : RunM m P Unit := do
  match ← ExceptT.lift (writeAll host temp text) with
  | .error cause =>
    host.dropTemp temp
    throw (.write cause path)
  | .ok () =>
    match ← ExceptT.lift (host.persist temp path) with
    | .error cause =>
      host.dropTemp temp
      throw (.replace cause path)
    | .ok () => tell host [.debug s!"wrote {text.size} bytes to {host.paths.shown path}"]

/-- Puts a text in the place of a file, but not before all of it is written. -/
def replaceFile (path : P) (text : Text) : RunM m P Unit := do
  let directory := host.paths.directory path
  let temp ← ask (fun cause => .create cause directory) (host.createTemp directory)
  fillTemp host temp path text

/-- Brings a text to where it goes. -/
def deliver (i : Request P) (text : Text) : RunM m P Unit :=
  match i.output with
  | some path => replaceFile host path text
  | none => ask .stdout (host.print text)

/-! ### Whole command lines -/

/-- Does what a command line asks for. -/
def perform (i : Request P) : RunM m P Unit := do
  deliver host i (← produce host i)
  host.logFinished

/-- Says why a run fails, and gives the exit code. -/
def report (e : RunError P) : m Nat :=
  match e with
  | .unheard => return panicCode
  | e => do
    match ← host.printError s!"Error: {e.message host.paths.shown}\n".toList with
    | .ok () => return 1
    | .error _ => return panicCode

/-- Does what a command line asks for, and gives the exit code. -/
def carryOut (i : Request P) : m Nat := do
  host.setLogLevel i.logLevel
  match ← (perform host i).run with
  | .ok () => return 0
  | .error e => report host e

/-- Answers a command line that is not carried out. -/
def refuse (r : Refusal) : m Nat := do
  discard (host.printError r.stderr)
  discard (host.print r.stdout)
  return r.exitCode

/-- Carries out a command line, and gives its exit code. -/
def runArgs (parse : List A → Except Refusal (Request P)) (args : List A) : m Nat :=
  match parse args with
  | .ok i => carryOut host i
  | .error r => refuse host r

end Twinfold

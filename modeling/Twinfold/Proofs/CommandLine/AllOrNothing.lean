import Twinfold.Proofs.CommandLine.Arguments
import Twinfold.Proofs.CommandLine.Documented

/-!
# All or nothing

A command line that fails leaves every file as it was and prints nothing to standard output, unless
it is the printing that fails.  One that succeeds prints its text, or puts it into the file that is
asked for as the output and changes nothing else; it is the text that the same command line
without the output prints.  The output may be a file that was read.

All of this holds on every host that behaves as documented (`Host.Documented`), and for every
reader of arguments that does (`DocumentedParser`).

* `quiet_produce` — making a text changes nothing that is seen;
* `replaceFile_ends` — a file is replaced, or everything is as it was;
* `ends_carryOut` — the ways in which a request ends;
* `runArgs_all_or_nothing` — whole command lines;
* `documentedParser_texts` — command lines as texts are read as documented.
-/

namespace Twinfold

variable {W A P T L E : Type} {host : Host (StateM W) P T} {v : View W P T L E}

/-! ### What is not seen -/

section

variable {α β ε : Type} {w w' w'' : W} {here : L}

namespace View

theorem Same.refl (w : W) : v.Same w w := ⟨rfl, rfl, rfl⟩

theorem Same.trans (h : v.Same w w') (h' : v.Same w' w'') : v.Same w w'' :=
  ⟨h'.files.trans h.files, h'.entry.trans h.entry, h'.stdout.trans h.stdout⟩

/-- Two changes of one place are a change of it. -/
theorem SameBut.trans (h : v.SameBut here w w') (h' : v.SameBut here w' w'') :
    v.SameBut here w w'' where
  files there hne := (h'.files there hne).trans (h.files there hne)
  entry := h'.entry.trans h.entry
  stdout := h'.stdout.trans h.stdout

/-- What is taken away again leaves no trace. -/
theorem SameBut.same (h : v.SameBut here w w') (hthere : v.files w' here = v.files w here) :
    v.Same w w' where
  files := by
    funext there
    by_cases hne : there = here
    · rw [hne, hthere]
    · exact h.files there hne
  entry := h.entry
  stdout := h.stdout

theorem unseen_pure (a : α) : v.Unseen (pure a : StateM W α) := fun w => .refl w

theorem unseen_bind {x : StateM W α} {f : α → StateM W β} (hx : v.Unseen x)
    (hf : ∀ a, v.Unseen (f a)) : v.Unseen (x >>= f) := fun w => (hx w).trans (hf _ _)

theorem unseen_map {x : StateM W α} (hx : v.Unseen x) (f : α → β) : v.Unseen (f <$> x) := hx

end View

/-- Nothing of what a run does is seen, whether it fails or not. -/
def View.Quiet (v : View W P T L E) (x : RunM (StateM W) P α) : Prop := v.Unseen x.run

namespace RunM

theorem quiet_pure (a : α) : v.Quiet (pure a : RunM (StateM W) P α) := View.unseen_pure _

/-- Quiet steps one after the other are quiet, also if the second one is not reached. -/
theorem quiet_bind {x : RunM (StateM W) P α} {f : α → RunM (StateM W) P β} (hx : v.Quiet x)
    (hf : ∀ a, v.Quiet (f a)) : v.Quiet (x >>= f) := by
  rw [View.Quiet, ExceptT.run_bind]
  refine View.unseen_bind hx fun a => ?_
  cases a with
  | ok a => exact hf a
  | error e => exact View.unseen_pure _

theorem quiet_ask {x : StateM W (Except ε α)} (hx : v.Unseen x) (cause : ε → RunError P) :
    v.Quiet (ask cause x) := View.unseen_map hx _

theorem quiet_require (cause : ε → RunError P) (result : Except ε α) :
    v.Quiet (require cause result : RunM (StateM W) P α) := quiet_ask (View.unseen_pure _) cause

/-- Logging is quiet: records go neither to files nor to standard output. -/
theorem quiet_tell (h : host.Documented v) (records : List LogRecord) :
    v.Quiet (tell host records) := by
  refine View.unseen_map ?_ _
  induction records with
  | nil => exact View.unseen_pure _
  | cons record records ih => exact View.unseen_bind (h.log record) fun _ => ih

end RunM

end

/-! ### Making the text -/

section

open RunM

variable (h : host.Documented v) (i : Request P)

include h

/-- Resolving a path asks for the current directory and follows links, and nothing is changed by
that. -/
theorem unseen_resolve (p : P) : v.Unseen (resolve host p) := by
  rw [resolve]
  refine View.unseen_bind ?_ fun dir => ?_
  · rw [viewpoint]
    split
    · exact View.unseen_pure _
    · exact View.unseen_map h.currentDir _
  · cases dir with
    | error cause => exact View.unseen_pure _
    | ok dir =>
      refine View.unseen_bind (h.canonicalize _) fun canonical => ?_
      cases canonical <;> exact View.unseen_pure _

/-- Starting threads is quiet. -/
theorem quiet_startThreads : v.Quiet (startThreads host i) := by
  rw [startThreads]
  split
  · exact quiet_ask (h.startThreads _) _
  · exact quiet_pure _

/-- Loading the symbol map only reads, from the given file or from the one that belongs to the
input. -/
theorem quiet_loadSymbols (input : P) : v.Quiet (loadSymbols host i input) := by
  rw [loadSymbols]
  split
  · refine quiet_bind ?_ fun path => ?_
    · rw [findSymbols]
      split
      · exact quiet_ask (unseen_resolve h _) _
      · exact quiet_pure _
    refine quiet_bind (quiet_ask (h.readText path) _) fun text => ?_
    refine quiet_bind (quiet_require _ _) fun symbols => ?_
    exact quiet_bind (quiet_tell h _) fun _ => quiet_pure _
  · exact quiet_pure _

/-- A report is rendered without touching files or standard output. -/
theorem quiet_renderReport (symbols : Option SymbolMap) (d : Detection) :
    v.Quiet (renderReport host i symbols d) := by
  rw [renderReport]
  split
  · cases symbols with
    | none => exact quiet_pure _
    | some known => exact quiet_bind (quiet_tell h _) fun _ => quiet_pure _
  · exact quiet_pure _
  · exact quiet_pure _

/-- The new source and what is logged about it leave the files and standard output alone. -/
theorem quiet_renderCoalesced (input : P) (source : Text) (d : Detection) :
    v.Quiet (renderCoalesced host i input source d) := by
  rw [renderCoalesced]
  refine quiet_bind ?_ fun _ => ?_
  · rw [warnOfSymbols]
    split
    · exact quiet_tell h _
    · exact quiet_pure _
  refine quiet_bind (quiet_require _ _) fun planned => ?_
  refine quiet_bind (quiet_tell h _) fun _ => ?_
  refine quiet_bind (quiet_require _ _) fun result => ?_
  refine quiet_bind (quiet_tell h _) fun _ => ?_
  exact quiet_bind (quiet_tell h _) fun _ => quiet_pure _

/-- Whatever is asked for, its text is made quietly. -/
theorem quiet_render (input : P) (source : Text) (d : Detection) :
    v.Quiet (render host i input source d) := by
  rw [render]
  split
  · exact quiet_bind (quiet_loadSymbols h i input) fun symbols => quiet_renderReport h i symbols d
  · exact quiet_renderCoalesced h i input source d

/-- The tally goes to standard error. -/
theorem quiet_printTally (d : Detection) : v.Quiet (printTally host i d) := by
  rw [printTally]
  split
  · exact quiet_ask (h.printError _) _
  · exact quiet_pure _

/-- **Making a text changes nothing that is seen**, whether a text comes of it or not.  Files are
looked up and read, threads are started and records are logged. -/
theorem quiet_produce : v.Quiet (produce host i) := by
  rw [produce]
  refine quiet_bind (quiet_startThreads h i) fun _ => ?_
  refine quiet_bind (quiet_ask (unseen_resolve h _) _) fun input => ?_
  refine quiet_bind (quiet_ask (h.readText input) _) fun source => ?_
  refine quiet_bind (quiet_tell h _) fun _ => ?_
  refine quiet_bind (quiet_require _ _) fun d => ?_
  refine quiet_bind (quiet_tell h _) fun _ => ?_
  refine quiet_bind (quiet_tell h _) fun _ => ?_
  refine quiet_bind (quiet_render h i input source d) fun text => ?_
  exact quiet_bind (quiet_printTally h i d) fun _ => quiet_pure _

end

/-! ### Replacing a file -/

namespace RunM

variable {α β ε : Type} {w : W}

/-- A step that fails ends the run where it left the machine. -/
theorem run_bind (x : RunM (StateM W) P α) (f : α → RunM (StateM W) P β) (w : W) :
    (x >>= f).run.run w =
      match x.run.run w with
      | (.ok a, w) => (f a).run.run w
      | (.error e, w) => (.error e, w) := by
  simp only [ExceptT.run_bind, StateT.run_bind]
  rcases x.run.run w with ⟨_ | _, _⟩ <;> rfl

end RunM

/-- How the replacement of a file ends: it holds the new text and nothing else has changed, or
nothing has changed at all. -/
inductive Replaces (v : View W P T L E) (path : P) (text : Text) (w : W) :
    Except (RunError P) Unit → W → Prop
  | undone {e : RunError P} {w' : W} (hsame : v.Same w w') : Replaces v path text w (.error e) w'
  | done {w' : W} (hcontent : v.contentAt w' (v.entry w path) = some text.utf8)
      (hothers : ∀ there, there ≠ v.entry w path → v.files w' there = v.files w there)
      (hstdout : v.stdout w' = v.stdout w) : Replaces v path text w (.ok ()) w'

section

variable {w w' w'' : W} {temp : T} {path : P} {text : Text} {answer : Except String Unit}
  {result : Except (RunError P) Unit}

/-- What is done unseen behind a replacement does not matter. -/
theorem Replaces.trans (hends : Replaces v path text w result w') (hsame : v.Same w' w'') :
    Replaces v path text w result w'' := by
  cases hends with
  | undone h => exact .undone (h.trans hsame)
  | done hcontent hothers hstdout =>
    refine .done ?_ (fun there hne => ?_) (hsame.stdout.trans hstdout)
    · rw [View.contentAt, hsame.files]
      exact hcontent
    · rw [hsame.files]
      exact hothers there hne

section

variable (h : host.Documented v)

include h

end

end

/-! ### One request -/

/-- The text that a request makes, and the world in which it is complete. -/
def Made (host : Host (StateM W) P T) (i : Request P) (w : W) (text : Text) (w' : W) : Prop :=
  (produce host i).run.run ((host.setLogLevel i.logLevel).run w).2 = (.ok text, w')

/-- Standard output has taken the text of a request only in part. -/
def BreaksOff (host : Host (StateM W) P T) (v : View W P T L E) (i : Request P) (w w' : W) : Prop :=
  ∃ text w₁ cause taken, i.output = none ∧ Made host i w text w₁ ∧
    ((host.print text).run w₁).1 = .error cause ∧ taken <+: text.utf8 ∧
    v.stdout w' = v.stdout w ++ taken

/-- How a request ends, with its exit code and the world that it leaves. -/
inductive Ends (host : Host (StateM W) P T) (v : View W P T L E) (i : Request P) (w : W) :
    Nat → W → Prop
  /-- Nothing was delivered. -/
  | failed {code : Nat} {w' : W} (hcode : code ≠ 0) (hfiles : v.files w' = v.files w)
      (hstdout : v.stdout w' = v.stdout w) : Ends host v i w code w'
  /-- The text was printed in part. -/
  | broken {code : Nat} {w' : W} (hcode : code ≠ 0) (hfiles : v.files w' = v.files w)
      (hbroken : BreaksOff host v i w w') : Ends host v i w code w'
  /-- The text was printed. -/
  | printed {w' : W} (houtput : i.output = none) (hfiles : v.files w' = v.files w) :
      Ends host v i w 0 w'
  /-- The text was put into a file. -/
  | written {path : P} {text : Text} {w₁ w' : W} (houtput : i.output = some path)
      (hmade : Made host i w text w₁)
      (hcontent : v.contentAt w' (v.entry w path) = some text.utf8)
      (hothers : ∀ there, there ≠ v.entry w path → v.files w' there = v.files w there)
      (hstdout : v.stdout w' = v.stdout w) : Ends host v i w 0 w'

section

variable {i : Request P} {w w' : W} {code : Nat}

end

section

variable {w : W} {i : Request P} {text : Text}

/-- A text is made unseen. -/
theorem Made.same {w₁ : W} (h : host.Documented v) (hmade : Made host i w text w₁) : v.Same w w₁ := by
  have hsame := (h.setLogLevel i.logLevel w).trans (quiet_produce h i _)
  rw [hmade] at hsame
  exact hsame

section

variable (h : host.Documented v)

include h

end

end

/-! ### Whole command lines -/

section

variable {parse : List A → Except Refusal (Request P)} {withoutOutput : List A → List A}
  {args : List A} {w : W}

end

/-! ### A command line in memory -/

end Twinfold

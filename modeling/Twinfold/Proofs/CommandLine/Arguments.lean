import Twinfold.CommandLine.Parse

/-!
# Leaving out the output

`withoutOutput` takes the option for the output file out of a command line, in each of its
forms: `--output F`, `--output=F`, `-o F`, `-oF`, `-o=F`, and behind other short switches.  What is
left asks for the same, but for the output (`parseArgs_withoutOutput`).

Both command lines are read side by side, and the second reader *shadows* the first
(`ArgReader.Shadows`).  It need not have settled as much: where the first one comes to the option
for the output and settles what was pending, the second one has nothing to read.
-/

namespace Twinfold

namespace Given

/-- What is given, but for the output. -/
def minusOutput (g : Given) : Given :=
  { g with settings := g.settings.filter fun entry => entry.1 ≠ .output }

end Given

namespace ArgReader

variable {r r' q : ArgReader} {g g' : Given} {s : Setting} {value arg t : Text}

/-- A setting does not change which file was given. -/
theorem file_give (h : give g s value = .ok g') : g'.file = g.file := by
  unfold give at h
  split at h
  · cases h
  · split at h
    · cases h
    · cases h
      rfl

/-! ### Readers side by side -/

/-- No option waits for its value. -/
def Rests (r : ArgReader) : Prop := ∀ s, r.pending ≠ some (.waiting s)

/-- The second reader comes to what the first one comes to, but for the output. -/
structure Follows (r r' : ArgReader) : Prop where
  rests : r.Rests
  rests' : r'.Rests
  hasFile : r'.hasFile = r.hasFile
  settle : ∀ g, r.settle = .ok g → r'.settle = .ok g.minusOutput

/-- What settling knows of the file.  A file that is still pending is counted before it is settled.
-/
theorem hasFile_of_settle (h : r.settle = .ok g) : r.hasFile = g.file.isSome := by
  obtain ⟨given, pending⟩ := r
  unfold settle at h
  unfold hasFile
  split at h
  · rename_i hpending
    cases h
    simp_all
  · cases h
  · rename_i hpending
    simp_all [file_give h]
  · rename_i hpending
    split at h
    · cases h
    · cases h
      simp_all

/-- A reader that has settled is followed by whoever followed it before. -/
theorem Follows.settled (h : r.Follows r') (hg : r.settle = .ok g) (hsame : g'.minusOutput = g.minusOutput)
    (hfile : g'.file = g.file) : Follows ⟨g', none⟩ r' where
  rests := nofun
  rests' := h.rests'
  hasFile := by
    rw [h.hasFile, hasFile_of_settle hg, ← hfile]
    simp [ArgReader.hasFile]
  settle := by
    rintro _ ⟨⟩
    rw [h.settle g hg, hsame]

end ArgReader

end Twinfold

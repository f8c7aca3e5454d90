import Phrasebook.Session.Disk
import Phrasebook.Sorting
import Phrasebook.Text.Blank

/-!
# Source files

Which files of a disk are converted: those that are named, and those below directories that are
named. Directories of other tools are passed over, and no file is converted twice.

## Main definitions

* `sourceFiles` — the files that are converted, in order.
-/

namespace Phrasebook

/-- A suffix as it is compared: in lower case, with a dot. -/
def normalSuffix (t : Text) : Text :=
  let t := Text.lower t
  if t.startsWith "." then t else "." ++ t

/-- The suffixes in a list, in order and each once. -/
def readExtensions (raw : Text) : List Text :=
  sortStable Text.ble (raw.listItems.map normalSuffix).eraseDups

/-- The directories of other tools. -/
def ignoredNames : List Text :=
  [".git", ".hg", ".svn", ".idea", ".vscode", ".next", ".nuxt", "coverage", "build", "dist",
    "node_modules"]

/-- Whether a path leads through a directory of another tool. -/
def Path.isIgnored (p : Path) : Bool := p.names.any fun name => ignoredNames.contains name

/-- Whether a path has one of some suffixes. -/
def Path.hasSuffix (p : Path) (extensions : List Text) : Bool := extensions.contains p.suffix.lower

/-- Whether a file below a directory is converted, by its names seen from there. -/
def isSourceBelow (extensions : List Text) (names : List Text) : Bool :=
  let p : Path := ⟨[], names⟩
  p.hasSuffix extensions && !p.isIgnored && !p.name.endsWith ".min.js" && !p.name.endsWith ".d.ts"

/-- The files that a root stands for. -/
def filesOfRoot (d : Disk) (extensions : List Text) (root : Path) : List Path :=
  match d.place root with
  | .error _ => []
  | .ok place =>
    if d.isFile place then if root.hasSuffix extensions then [root] else []
    else
      let below := (d.filesBelow place).filter (isSourceBelow extensions)
      (sortStable Path.namesLe below).map fun names => { root with names := root.names ++ names }

/-- Add a file unless it is there, under whatever path. -/
def addSource (current : Path) (files : List Path) (p : Path) : List Path :=
  if files.any fun q => Path.normalize current q == Path.normalize current p then files else files ++ [p]

/-- The files that are converted, in order. -/
def sourceFiles (d : Disk) (roots : List Path) (extensions : List Text) : List Path :=
  (roots.flatMap (filesOfRoot d extensions)).foldl (addSource ⟨"/", d.current⟩) []

end Phrasebook

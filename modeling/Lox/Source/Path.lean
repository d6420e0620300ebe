/-!
# Paths

The path of a source is either a pseudo-path such as `<repl>`, which begins with `<` and names no
file, or the path of a file. File paths are normalised without looking at the disk: empty components
and `.` are dropped and `..` removes the component before it.
-/

namespace Lox.Path

/-- Does the path name a snippet of text and no file? -/
def isPseudo (path : String) : Bool :=
  path.startsWith "<"

/-- The parts of a path between its slashes. -/
def pieces (path : String) : List String :=
  (path.toList.splitOn '/').map String.ofList

/-- The parts of a path that are not empty. -/
def components (path : String) : List String :=
  (pieces path).filter (· != "")

/-- One component after those of `done`, the last of which comes first. -/
def step (done : List String) (component : String) : List String :=
  if component = "." then done
  else if component = ".." then done.drop 1
  else component :: done

/-- The components of a path below the root once `.` and `..` are resolved. -/
def resolve (path : String) : List String :=
  ((components path).foldl step []).reverse

/-- The absolute, normalised form of a path met in the directory `base`. Two leading slashes, but
not three, are kept. -/
def absolute (base path : String) : String :=
  let full := if path.startsWith "/" then path else s!"{base}/{path}"
  let root := if full.startsWith "//" && !full.startsWith "///" then "//" else "/"
  root ++ "/".intercalate (resolve full)

/-- The last component of a path. -/
def baseName (path : String) : String :=
  (pieces path).getLast?.getD path

/-- Drop the components that two paths share at their beginning. -/
def dropShared : List String → List String → List String × List String
  | a :: as, b :: bs => if a = b then dropShared as bs else (a :: as, b :: bs)
  | as, bs => (as, bs)

/-- The path of the file `target` as seen from the directory `base`. -/
def relative (base target : String) : String :=
  let (up, down) := dropShared (resolve base) (resolve target)
  let steps := up.map (fun _ => "..") ++ down
  if steps.isEmpty then "." else "/".intercalate steps

end Lox.Path

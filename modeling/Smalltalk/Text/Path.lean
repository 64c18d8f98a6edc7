/-!
# Path names

Path names are texts with components between slashes. Making one absolute is done on the text
alone: empty components and `.` go, `..` stays, a name that does not start at the root is put under
the working directory, exactly two leading slashes are kept, and so is a trailing one.
-/

namespace Smalltalk.Text

/-- The components of a path name that say anything. -/
def components (path : String) : List String :=
  (path.splitOn "/").filter fun c => c ≠ "" ∧ c ≠ "."

/-- The absolute form of a path name; the empty name has none and stays as it is. -/
def absolutePath (workingDirectory path : String) : String :=
  if path = "" then
    ""
  else
    let root :=
      if path.startsWith "//" && !path.startsWith "///" then "//"
      else if path.startsWith "/" then "/"
      else workingDirectory
    let join (whole c : String) := if whole.endsWith "/" then whole ++ c else whole ++ "/" ++ c
    let whole := (components path).foldl join root
    if path.endsWith "/" then join whole "" else whole

end Smalltalk.Text

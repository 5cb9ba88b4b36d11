import EclipseProject.Staging.Tree

/-!
# The preview of a dry run
-/

namespace EclipseProject.Staging

def legend (colored : Bool) : String :=
  "Legend: " ++ Style.blue.paint colored "blue" ++ " = (directory), " ++ Style.green.paint colored "green" ++
    " = (file)\n"

def banner (colored : Bool) : String :=
  Style.banner.paint colored "┌─" ++ " " ++ Style.banner.paint colored "Dry run, nothing was written" ++ "\n\n"

def preview (colored : Bool) (r : Record) (root : Path) : String :=
  legend colored ++ banner colored ++ (Tree.ofRecord r root).draw colored

end EclipseProject.Staging

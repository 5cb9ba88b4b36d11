import EclipseProject.CommandLine.Message

/-!
# Help

The help text names the arguments and the options, one to a line, and tells in a second column what they do.
-/

namespace EclipseProject.CommandLine

def descriptionColumn : Nat := 17

/-- One option. `value` is what has to follow its long name. -/
def optionHelp (short : Option String) (long value description : String) : Message :=
  let letter := match short with
    | some short => [.styled .bold short, .plain ", "]
    | none => [.plain "    "]
  let gap := String.ofList (List.replicate (descriptionColumn - (long ++ value).length) ' ')
  .plain "  " :: letter ++ [.styled .bold long, .plain (value ++ gap ++ description ++ "\n")]

def helpText : Message :=
  [.plain "Generates Eclipse project files for a Bazel workspace\n\n",
    .styled .heading "Usage:", .plain " ", .styled .bold "setup-eclipse", .plain " [OPTIONS] [PROJECT_NAME]\n\n",
    .styled .heading "Arguments:",
    .plain "\n  [PROJECT_NAME]  Name shown for the project when it is imported into eclipse\n\n",
    .styled .heading "Options:", .plain "\n"] ++
  optionHelp (some "-v") "--verbose" "" "Enable verbose output" ++
  optionHelp (some "-c") "--config" " <FILE>" "TOML file overriding the bazel executable, targets and jar paths" ++
  optionHelp none "--dry-run" "" "Query bazel and show the files that would be written, without building" ++
  optionHelp (some "-h") "--help" "" "Print help" ++
  optionHelp (some "-V") "--version" "" "Print version"

def versionText : String := "setup-eclipse 0.1.0\n"

end EclipseProject.CommandLine

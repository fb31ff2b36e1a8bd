/-!
# Help texts

What the command prints when it is asked about itself.
-/

namespace ArmBackend.Command

def commandName : String := "larkc"

def versionText : String :=
  commandName ++ " 0.1.0\n"

def about : String := "Lark Compiler - ARM64 backend"

def compileAbout : String := "Compile a JSON compilation input to ARM64 assembly"

def helpAbout : String := "Print this message or the help of the given subcommand(s)"

def paragraph (lines : List String) : String :=
  String.join (lines.map (· ++ "\n"))

def helpText : String :=
  paragraph
    [about,
      "",
      "Usage: " ++ commandName ++ " <COMMAND>",
      "",
      "Commands:",
      "  compile  " ++ compileAbout,
      "  help     " ++ helpAbout,
      "",
      "Options:",
      "  -h, --help     Print help",
      "  -V, --version  Print version"]

def compileHelpText : String :=
  paragraph
    [compileAbout,
      "",
      "Usage: " ++ commandName ++ " compile [OPTIONS] <INPUT>",
      "",
      "Arguments:",
      "  <INPUT>  Input JSON file (syntax tree, scope trace, upstream diagnostics)",
      "",
      "Options:",
      "  -o, --output <OUTPUT>            Output assembly file; stdout when omitted",
      "      --no-ir-opt                  Skip the IR optimizer",
      "      --no-asm-opt                 Skip the assembly peephole pass",
      "      --emit-ir <EMIT_IR>          Write the IR listing to this file",
      "      --print-ir                   Print the IR listing to stdout",
      "      --stats                      Print compilation statistics as JSON to stderr",
      "      --suppress-redundant-return  Omit the implicit return when the entry code already " ++
        "returns",
      "  -h, --help                       Print help"]

def helpHelpText : String :=
  paragraph
    [helpAbout,
      "",
      "Usage: " ++ commandName ++ " help [COMMAND]...",
      "",
      "Arguments:",
      "  [COMMAND]...  Print help for the subcommand(s)"]

end ArmBackend.Command

/-!
# Help

* `helpText` — what the options mean, on one line each or at length;
* `versionText` — the version of the program.
-/

namespace XmlHighlight

/-- Lines of text, each with its end. -/
def unlines (lines : List String) : String := lines.foldl (fun text line => text ++ line ++ "\n") ""

/-- What the options mean, on one line each. -/
def shortHelp : String :=
  unlines
    ["Highlight XML documents in the terminal",
      "",
      "Usage: xmlcolor [OPTIONS] <FILE>",
      "",
      "Arguments:",
      "  <FILE>  XML file to highlight",
      "",
      "Options:",
      "  -w, --watch                 Keep running and re-highlight when the file changes",
      "  -t, --theme <ID>            Theme id (built-in or from the themes config directory)",
      "      --quiet-period-ms <MS>  Milliseconds without changes before re-highlighting",
      "  -f, --format <FORMAT>       Output format [default: ansi] [possible values: ansi, json]",
      "  -h, --help                  Print help (see more with '--help')",
      "  -V, --version               Print version"]

/-- What the options mean, at length. -/
def longHelp : String :=
  unlines
    ["Highlight XML documents in the terminal",
      "",
      "Usage: xmlcolor [OPTIONS] <FILE>",
      "",
      "Arguments:",
      "  <FILE>",
      "          XML file to highlight",
      "",
      "Options:",
      "  -w, --watch",
      "          Keep running and re-highlight when the file changes",
      "",
      "  -t, --theme <ID>",
      "          Theme id (built-in or from the themes config directory)",
      "",
      "      --quiet-period-ms <MS>",
      "          Milliseconds without changes before re-highlighting",
      "",
      "  -f, --format <FORMAT>",
      "          Output format",
      "",
      "          Possible values:",
      "          - ansi: Text with 24-bit ANSI colors",
      "          - json: Styled ranges as JSON",
      "          ",
      "          [default: ansi]",
      "",
      "  -h, --help",
      "          Print help (see a summary with '-h')",
      "",
      "  -V, --version",
      "          Print version"]

/-- What the options mean. -/
def helpText (long : Bool) : String := if long then longHelp else shortHelp

/-- The version of the program. -/
def versionText : String := "xmlcolor 0.1.0\n"

end XmlHighlight

import DirectiveTemplates.CommandLine.Arguments

/-!
What the command tells about itself.
-/
namespace DirectiveTemplates.CommandLine

def versionText : String := "flavourc 0.1.0\n"

def Setting.purpose : Setting → String
  | className => "Class backing the template, bound to `this`"
  | table => "Class metadata table (JSON); may be repeated"
  | resources => "Directory holding META-INF/flavour/directive-packages"
  | project => "Project configuration (JSON)"
  | data => "JSON model bound to `this` when emitting HTML"
  | form => "Output the bound tree as JSON or the rendered HTML [default: tree] " ++
      "[possible values: tree, html]"
  | verbose => "Log debug output to stderr"
  | help => "Print help"
  | version => "Print version"

def Setting.spelling (s : Setting) : String :=
  let short := (s.letter.map fun c => String.ofList ['-', c, ',', ' ']).getD "    "
  let value := (s.valueName.map fun name => " <" ++ name ++ ">").getD ""
  short ++ "--" ++ s.longName ++ value

def optionLines : List String :=
  let width := (Setting.all.map (·.spelling.length)).foldl max 0
  Setting.all.map fun s =>
    let gap := String.ofList (List.replicate (width - s.spelling.length + 2) ' ')
    "  " ++ s.spelling ++ gap ++ s.purpose ++ "\n"

def helpText : String :=
  "Flavour template compiler\n\nUsage: flavourc [OPTIONS] <FILE>\n\n" ++
    "Arguments:\n  <FILE>  Template to compile\n\nOptions:\n" ++ String.join optionLines

end DirectiveTemplates.CommandLine

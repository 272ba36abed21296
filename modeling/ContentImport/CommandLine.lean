import ContentImport.CommandLine.Arguments
import ContentImport.Import
import ContentImport.Json.Printer

/-!
The program: it reads its configuration, lets the arguments override it, and imports the source into
an empty store or prints the records of it.
-/

set_option autoImplicit false
set_option relaxedAutoImplicit false

namespace ContentImport

/-- What a run of the program leaves behind. -/
structure Outcome where
  exitCode : Nat
  output : String
  diagnostics : String
  deriving DecidableEq, Repr

def Config.ofContent (path : String) (content : PathContent) : Except ConfigFault Config :=
  match content.text? with
  | none => .error (.unreadable path)
  | some text => Config.ofText text

namespace CommandLine

/-- The settings of an import as arguments override them: switches turn things off or on, and never
back. -/
def Arguments.override (a : Arguments) (s : ImportSettings) : ImportSettings :=
  let given := fun switch => a.switches.contains switch
  { s with
    importVocabularies := s.importVocabularies && !given .skipVocabularies
    importNodes := s.importNodes && !given .skipNodes
    classesAsNodes := s.classesAsNodes || given .classesAsNodes
    onlyLeafClassesAsNodes := s.onlyLeafClassesAsNodes || given .onlyLeafClasses
    overwrite := s.overwrite || given .overwrite
    streamingThreshold := a.threshold.getD s.streamingThreshold }

/-- The configuration of a run. The overridden settings are checked before the run log. -/
def Arguments.configuration (a : Arguments) (lookup : String → PathContent) :
    Except ConfigFault Config := do
  let config ← match a.config with
    | some path => Config.ofContent path (lookup path)
    | none => .ok .standard
  let importing := a.override config.importing
  let _ ← importing.interpret.mapError .settings
  config.logger.check
  pure { config with importing }

def line (text : String) : String :=
  text ++ "\n"

def failed (e : ImportError) : Outcome :=
  ⟨1, "", line ("error: " ++ e.report)⟩

def Arguments.run (a : Arguments) (lookup : String → PathContent) : Outcome :=
  match a.configuration lookup with
  | .error fault => failed (.configuration fault)
  | .ok config =>
    let settings := config.importing
    if a.switches.contains .dump then
      match dumpRecords settings a.file (lookup a.file) with
      | .error e => failed e
      | .ok dump => ⟨0, line dump.toJson.toLines, ""⟩
    else
      match (runImport settings a.file (lookup a.file) (.empty settings.overwrite [])).1 with
      | .error e => failed e
      | .ok summary =>
        let warnings := summary.warnings.map fun warning => line ("warning: " ++ warning)
        ⟨0, line summary.message, String.join warnings⟩

def usage : String :=
  "Usage: [OPTIONS] <FILE>\n\n" ++
  "  -c, --config <CONFIG>        YAML configuration file\n" ++
  "      --skip-vocabularies      Do not import vocabularies\n" ++
  "      --skip-nodes             Do not import nodes\n" ++
  "      --classes-as-nodes       Also create nodes for classes below the content types\n" ++
  "      --only-leaf-classes      Of those classes, only take the ones without subclasses\n" ++
  "      --overwrite              Replace vocabularies and nodes that exist\n" ++
  "      --threshold <THRESHOLD>  Size above which ontologies are streamed\n" ++
  "      --dump                   Print the records as JSON and import nothing"

def run (lookup : String → PathContent) (arguments : List String) : Outcome :=
  match Request.ofArguments arguments with
  | .run a => a.run lookup
  | .help => ⟨0, line usage, ""⟩
  | .version => ⟨0, line "0.1.0", ""⟩
  | .misuse => ⟨2, "", line usage⟩

def readPaths (arguments : List String) : List String :=
  match Request.ofArguments arguments with
  | .run a => a.file :: a.config.toList
  | _ => []

end CommandLine

end ContentImport

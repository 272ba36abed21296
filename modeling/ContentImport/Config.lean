import ContentImport.PathName
import ContentImport.Settings
import ContentImport.Yaml.Record

/-!
The configuration of the program, read from YAML: the settings of the import and of the run log.
Every entry may be left out.
-/

set_option autoImplicit false
set_option relaxedAutoImplicit false

namespace ContentImport

open ContentImport.Json (Value)

/-- How much is logged. -/
inductive LogLevel where
  | off
  | trace
  | debug
  | info
  | warn
  | error
  deriving DecidableEq, Repr

namespace LogLevel

def all : List LogLevel :=
  [.off, .trace, .debug, .info, .warn, .error]

def name : LogLevel → String
  | .off => "off"
  | .trace => "trace"
  | .debug => "debug"
  | .info => "info"
  | .warn => "warn"
  | .error => "error"

def ofName? (name : String) : Option LogLevel :=
  all.find? (·.name = name)

end LogLevel

/-- How an entry of the log is laid out. -/
inductive LogFormat where
  | compact
  | pretty
  | json
  deriving DecidableEq, Repr

namespace LogFormat

def all : List LogFormat :=
  [.compact, .pretty, .json]

def name : LogFormat → String
  | .compact => "compact"
  | .pretty => "pretty"
  | .json => "json"

def ofName? (name : String) : Option LogFormat :=
  all.find? (·.name = name)

end LogFormat

/-- The settings of the run log. -/
structure LoggerSettings where
  enable : Bool
  level : LogLevel
  format : LogFormat
  /-- A file that the log is written to as well. -/
  file : Option String
  deriving DecidableEq, Repr

/-- The configuration of the program. -/
structure Config where
  importing : ImportSettings
  logger : LoggerSettings
  deriving DecidableEq, Repr

/-- Why a configuration cannot be used. -/
inductive ConfigFault where
  | unreadable (path : String)
  | malformed
  | settings (fault : SettingsFault)
  | logFileWithoutName (path : String)
  deriving DecidableEq, Repr

def ConfigFault.message : ConfigFault → String
  | .unreadable path => "cannot read `" ++ path ++ "`:"
  | .malformed => "invalid configuration:"
  | .settings fault => fault.message
  | .logFileWithoutName path => "log file `" ++ path ++ "` has no file name"

namespace ImportSettings

def ofYaml? : Yaml.Reads ImportSettings := fun doc node => do
  let entries ← Yaml.readEntries? doc node
  let switch := fun name ownValue => Yaml.readEntry? doc entries name ownValue Yaml.readBool?
  let text := fun name ownValue => Yaml.readEntry? doc entries name ownValue Yaml.readText?
  pure {
    importVocabularies := ← switch "import_vocabularies" standard.importVocabularies
    importNodes := ← switch "import_nodes" standard.importNodes
    classesAsNodes := ← switch "classes_as_nodes" standard.classesAsNodes
    onlyLeafClassesAsNodes :=
      ← switch "only_leaf_classes_as_nodes" standard.onlyLeafClassesAsNodes
    overwrite := ← switch "overwrite" standard.overwrite
    streamingThreshold := ← text "streaming_threshold" standard.streamingThreshold
    anchorSpace := ← text "namespace" standard.anchorSpace }

end ImportSettings

namespace LoggerSettings

def standard : LoggerSettings :=
  ⟨true, .info, .compact, none⟩

def ofYaml? : Yaml.Reads LoggerSettings := fun doc node => do
  let entries ← Yaml.readEntries? doc node
  pure {
    enable := ← Yaml.readEntry? doc entries "enable" standard.enable Yaml.readBool?
    level := ← Yaml.readEntry? doc entries "level" standard.level fun doc node =>
      Yaml.readChoice? doc node >>= LogLevel.ofName?
    format := ← Yaml.readEntry? doc entries "format" standard.format fun doc node =>
      Yaml.readChoice? doc node >>= LogFormat.ofName?
    file := ← Yaml.readEntry? doc entries "file" standard.file Yaml.readOptionalText? }

/-- Check that a log can be kept: a file for it needs a name. -/
def check (s : LoggerSettings) : Except ConfigFault Unit :=
  match s.file with
  | some path =>
    if s.enable && (PathName.last? path).isNone then .error (.logFileWithoutName path) else .ok ()
  | none => .ok ()

def toJson (s : LoggerSettings) : Value :=
  .object [("enable", .bool s.enable), ("level", .text s.level.name),
    ("format", .text s.format.name), ("file", .ofOption .text s.file)]

end LoggerSettings

namespace Config

def standard : Config :=
  ⟨.standard, .standard⟩

def ofYaml? : Yaml.Reads Config := fun doc node => do
  let entries ← Yaml.readEntries? doc node
  let importing ← Yaml.readEntry? doc entries "import" ImportSettings.standard ImportSettings.ofYaml?
  let logger ← Yaml.readEntry? doc entries "logger" LoggerSettings.standard LoggerSettings.ofYaml?
  pure ⟨importing, logger⟩

/-- The configuration that a text is; the settings of the import have to be usable. -/
def ofText (s : List Char) : Except ConfigFault Config :=
  match Yaml.Document.ofText? s >>= fun doc => ofYaml? doc doc.root with
  | none => .error .malformed
  | some config => config.importing.interpret.mapError .settings *> .ok config

def toJson (c : Config) : Value :=
  .object [("import", c.importing.toJson), ("logger", c.logger.toJson)]

/-- Only `true` and `false` are truth values. -/
example : (Yaml.Document.ofText? "import:\n  overwrite: yes\n".toList >>=
    fun doc => ofYaml? doc doc.root) = none := by
  decide +kernel

example : (Yaml.Document.ofText? "import:\n  overwrite: true\n".toList >>=
    fun doc => ofYaml? doc doc.root).map (·.importing.overwrite) = some true := by
  decide +kernel

end Config

end ContentImport

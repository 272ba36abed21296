/-!
The arguments of the program. An option is given as one argument with an equals sign or as two, and
at most once; behind a double hyphen all arguments are paths.
-/

set_option autoImplicit false
set_option relaxedAutoImplicit false

namespace ContentImport.CommandLine

/-- The options without a value. -/
inductive Switch where
  | skipVocabularies
  | skipNodes
  | classesAsNodes
  | onlyLeafClasses
  | overwrite
  | dump
  deriving DecidableEq, Repr

/-- The options with a value. -/
inductive Setting where
  | config
  | threshold
  deriving DecidableEq, Repr

/-- What the program is asked for. -/
structure Arguments where
  /-- The path of the source. -/
  file : String
  config : Option String
  threshold : Option String
  switches : List Switch
  deriving DecidableEq, Repr

/-- What is done about the arguments. -/
inductive Request where
  | run (arguments : Arguments)
  /-- The usage is asked for. -/
  | help
  /-- The version is asked for. -/
  | version
  /-- The arguments cannot be understood. -/
  | misuse
  deriving DecidableEq, Repr

/-- The options without a value, by name. -/
def switches : List (String × Switch) :=
  [("skip-vocabularies", .skipVocabularies), ("skip-nodes", .skipNodes),
    ("classes-as-nodes", .classesAsNodes), ("only-leaf-classes", .onlyLeafClasses),
    ("overwrite", .overwrite), ("dump", .dump)]

def settings : List (String × Setting) :=
  [("config", .config), ("threshold", .threshold)]

/-- One thing that arguments say. -/
inductive Item where
  | path (text : String)
  | switch (s : Switch)
  | setting (s : Setting) (value : String)
  | help
  | version
  deriving DecidableEq, Repr

/-- What an argument is the beginning of. -/
inductive Opening where
  | item (i : Item)
  /-- An option whose value is the next argument. -/
  | pending (s : Setting)
  /-- The double hyphen. -/
  | pathsOnly
  | unknown
  deriving DecidableEq, Repr

/-- What an option by its name is, with the value that stands behind an equals sign. -/
def longOption (name : String) (value : Option String) : Opening :=
  match switches.lookup name, settings.lookup name, value with
  | some s, _, none => .item (.switch s)
  | none, some s, some value => .item (.setting s value)
  | none, some s, none => .pending s
  | none, none, none =>
    if name = "help" then .item .help else if name = "version" then .item .version else .unknown
  | _, _, some _ => .unknown

/-- What an option by its letter is, with what stands behind it in the same argument. -/
def shortOption (letter : Char) (rest : List Char) : Opening :=
  match letter, rest with
  | 'c', [] => .pending .config
  | 'c', '=' :: value => .item (.setting .config (String.ofList value))
  | 'c', value => .item (.setting .config (String.ofList value))
  | 'h', _ => .item .help
  | 'V', _ => .item .version
  | _, _ => .unknown

/-- What an argument is the beginning of. A single hyphen is a path. -/
def opening (argument : String) : Opening :=
  match argument.toList with
  | ['-', '-'] => .pathsOnly
  | '-' :: '-' :: rest =>
    let name := rest.takeWhile (· ≠ '=')
    let value := match rest.drop name.length with
      | [] => none
      | _ :: value => some (String.ofList value)
    longOption (String.ofList name) value
  | '-' :: letter :: rest => shortOption letter rest
  | _ => .item (.path argument)

def isValue (argument : String) : Bool :=
  match opening argument with
  | .item (.path _) => true
  | _ => false

/-- What arguments say, where an option may wait for its value; nothing, if one of them is unknown or
an option lacks its value. Once help or the version is asked for, the arguments behind it do not
count. -/
def items? : (waiting : Option Setting) → List String → Option (List Item)
  | none, [] => some []
  | some _, [] => none
  | some s, value :: rest =>
    if isValue value then (items? none rest).map (.setting s value :: ·) else none
  | none, argument :: rest =>
    match opening argument with
    | .item .help => some [.help]
    | .item .version => some [.version]
    | .item item => (items? none rest).map (item :: ·)
    | .pending s => items? (some s) rest
    | .pathsOnly => some (rest.map .path)
    | .unknown => none

def paths (items : List Item) : List String :=
  items.filterMap fun
    | .path text => some text
    | _ => none

def givenSwitches (items : List Item) : List Switch :=
  items.filterMap fun
    | .switch s => some s
    | _ => none

def values (s : Setting) (items : List Item) : List String :=
  items.filterMap fun
    | .setting s' value => if s' = s then some value else none
    | _ => none

/-- Whether no path is empty and nothing is given twice. -/
def isConsistent (items : List Item) : Bool :=
  decide ((paths items).length ≤ 1) && decide (givenSwitches items).Nodup &&
    decide ((values .config items).length ≤ 1) && decide ((values .threshold items).length ≤ 1) &&
    !(paths items ++ values .config items).contains ""

def Request.ofArguments (arguments : List String) : Request :=
  match items? none arguments with
  | none => .misuse
  | some items =>
    if !isConsistent items then .misuse
    else if items.contains .help then .help
    else if items.contains .version then .version
    else
      match paths items with
      | [file] =>
        .run ⟨file, (values .config items).head?, (values .threshold items).head?,
          givenSwitches items⟩
      | _ => .misuse

example : Request.ofArguments ["notes.owl", "-cimport.yaml", "--dump"] =
    .run ⟨"notes.owl", some "import.yaml", none, [.dump]⟩ := by
  decide +kernel

example : Request.ofArguments ["notes.owl", "--dump", "--dump"] = .misuse := by
  decide +kernel

end ContentImport.CommandLine

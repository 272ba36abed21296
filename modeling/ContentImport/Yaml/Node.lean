import ContentImport.Table
import ContentImport.Yaml.Token

/-!
YAML documents as trees. An alias stays in the tree as the number of an anchor, so that a tree is
finite even where a node holds an alias of itself; the document says what each number stands for.
-/

set_option autoImplicit false
set_option relaxedAutoImplicit false

namespace ContentImport.Yaml

/-- A node of a document. The tags of collections have no meaning here and are not kept. -/
inductive Node where
  | scalar (tag : Option String) (text : String) (style : ScalarStyle)
  | alias (anchor : Nat)
  | list (items : List Node)
  | mapping (entries : List (Node × Node))
  deriving Repr

namespace Node

/-- The scalar that stands where nothing is written. -/
def empty : Node :=
  .scalar none "" .plain

end Node

/-- A document: its root, and the nodes of its anchors. -/
structure Document where
  root : Node
  anchors : Table Nat Node

namespace Document

def anchored? (doc : Document) (anchor : Nat) : Option Node :=
  doc.anchors.get? anchor

/-- What a node stands for: an alias stands for the node of its anchor, which is no alias. -/
def follow (doc : Document) : Node → Node
  | .alias anchor => (doc.anchored? anchor).getD .empty
  | node => node

end Document

/-- What is known while a document is read. -/
structure TreeScan where
  /-- The tokens that are to come. -/
  tokens : List Token
  /-- What each tag handle stands for. -/
  handles : Table String String
  /-- The number that each anchor name has now. -/
  numbers : Table String Nat
  anchors : Table Nat Node

abbrev TreeReader := StateT TreeScan Option

namespace TreeReader

def next? : TreeReader (Option Token) := do
  return (← get).tokens.head?

def pass : TreeReader Unit :=
  modify fun scan => { scan with tokens := scan.tokens.tail }

/-- Pass a token if it is a certain one, and say whether it was. -/
def passIf (token : Token) : TreeReader Bool := do
  if (← next?) = some token then
    pass
    return true
  else return false

def expect (token : Token) : TreeReader Unit := do
  unless ← passIf token do failure

def atOneOf (tokens : List Token) : TreeReader Bool := do
  match ← next? with
  | some token => return tokens.contains token
  | none => return false

/-- Give an anchor name its number: how many different names there were before. A name that comes
again takes the number that the next new name would take. -/
def numberAnchor (name : String) : TreeReader Nat := do
  let number := (← get).numbers.length
  modify fun scan =>
    { scan with numbers := scan.numbers.put name number, anchors := scan.anchors.erase number }
  return number

/-- Say which node an anchor number stands for, unless a later node has taken the number. -/
def settleAnchor (number : Nat) (node : Node) : TreeReader Unit :=
  modify fun scan =>
    if scan.anchors.holds number then scan
    else { scan with anchors := scan.anchors.put number node }

/-- The text of a tag, whose handle has to be known. -/
def tagText (handle suffix : List Char) : TreeReader String := do
  if handle.isEmpty then return String.ofList suffix
  else
    match (← get).handles.get? (String.ofList handle) with
    | some start => return start ++ String.ofList suffix
    | none => failure

def anchor? : TreeReader (Option Nat) := do
  match ← next? with
  | some (.anchor name) => do
    pass
    return some (← numberAnchor (String.ofList name))
  | _ => return none

def tag? : TreeReader (Option String) := do
  match ← next? with
  | some (.tag handle suffix) => do
    pass
    return some (← tagText handle suffix)
  | _ => return none

/-- Pass an anchor and a tag, in either order. -/
def properties : TreeReader (Option Nat × Option String) := do
  match ← anchor? with
  | some number => return (some number, ← tag?)
  | none => do
    let tag ← tag?
    return (← anchor?, tag)

end TreeReader

/-- Where a node stands: in a flow collection, in a block, or in a block mapping, where a list needs
no indentation. -/
inductive NodePlace where
  | flow
  | block
  | inMapping
  deriving DecidableEq, Repr

namespace TreeReader

mutual

def node : (fuel : Nat) → NodePlace → TreeReader Node
  | 0, _ => failure
  | fuel + 1, place => do
    match ← next? with
    | some (.alias name) => do
      pass
      match (← get).numbers.get? (String.ofList name) with
      | some number => return .alias number
      | none => failure
    | _ => do
      let (anchor, tag) ← properties
      let result ← content fuel place anchor.isSome tag
      if let some number := anchor then settleAnchor number result
      return result

def content : (fuel : Nat) → NodePlace → (isAnchored : Bool) → (tag : Option String) →
    TreeReader Node
  | 0, _, _, _ => failure
  | fuel + 1, place, isAnchored, tag => do
    match ← next?, place with
    | some .blockEntry, .inMapping => return .list (← looseItems fuel)
    | some (.scalar text style), _ => do
      pass
      return .scalar (if tag = some "!" then none else tag) (String.ofList text) style
    | some .flowListStart, _ => do
      pass
      return .list (← flowItems fuel true)
    | some .flowMappingStart, _ => do
      pass
      return .mapping (← flowEntries fuel true)
    | some .blockListStart, .block | some .blockListStart, .inMapping => do
      pass
      return .list (← blockItems fuel)
    | some .blockMappingStart, .block | some .blockMappingStart, .inMapping => do
      pass
      return .mapping (← blockEntries fuel)
    | _, _ =>
      if isAnchored || tag.isSome then return .scalar tag "" .plain else failure

/-- Read a node, or nothing if one of some tokens comes next. -/
def nodeUnless : (fuel : Nat) → NodePlace → (ends : List Token) → TreeReader Node
  | 0, _, _ => failure
  | fuel + 1, place, ends => do
    if ← atOneOf ends then return .empty else node fuel place

def blockItems : (fuel : Nat) → TreeReader (List Node)
  | 0 => failure
  | fuel + 1 => do
    if ← passIf .blockEntry then
      let item ← nodeUnless fuel .block [.blockEntry, .blockEnd]
      return item :: (← blockItems fuel)
    else
      expect .blockEnd
      return []

/-- Read the items of a list that stands in a mapping without an indentation of its own. -/
def looseItems : (fuel : Nat) → TreeReader (List Node)
  | 0 => failure
  | fuel + 1 => do
    if ← passIf .blockEntry then
      let item ← nodeUnless fuel .block [.blockEntry, .key, .value, .blockEnd]
      return item :: (← looseItems fuel)
    else return []

def blockEntries : (fuel : Nat) → TreeReader (List (Node × Node))
  | 0 => failure
  | fuel + 1 => do
    if ← passIf .key then
      let key ← nodeUnless fuel .inMapping [.key, .value, .blockEnd]
      let value ←
        if ← passIf .value then nodeUnless fuel .inMapping [.key, .value, .blockEnd]
        else pure Node.empty
      return (key, value) :: (← blockEntries fuel)
    else
      expect .blockEnd
      return []

/-- Read the items of a flow list; a comma comes before all but the first. -/
def flowItems : (fuel : Nat) → (isFirst : Bool) → TreeReader (List Node)
  | 0, _ => failure
  | fuel + 1, isFirst => do
    if ← passIf .flowListEnd then return []
    else
      unless isFirst do expect .flowEntry
      if ← passIf .key then
        let item ← singleEntry fuel
        return item :: (← flowItems fuel false)
      else if ← passIf .flowListEnd then return []
      else
        let item ← node fuel .flow
        return item :: (← flowItems fuel false)

/-- Read a mapping of one entry that stands in a flow list without braces, after the mark of its
key. Where the key is missing, the token behind the mark is passed. -/
def singleEntry : (fuel : Nat) → TreeReader Node
  | 0 => failure
  | fuel + 1 => do
    let key ←
      if ← atOneOf [.value, .flowEntry, .flowListEnd] then do
        pass
        pure Node.empty
      else node fuel .flow
    let value ←
      if ← passIf .value then nodeUnless fuel .flow [.flowEntry, .flowListEnd]
      else pure Node.empty
    return .mapping [(key, value)]

/-- Read the entries of a flow mapping; a comma comes before all but the first. -/
def flowEntries : (fuel : Nat) → (isFirst : Bool) → TreeReader (List (Node × Node))
  | 0, _ => failure
  | fuel + 1, isFirst => do
    if ← passIf .flowMappingEnd then return []
    else
      unless isFirst do expect .flowEntry
      if ← passIf .key then
        let key ← nodeUnless fuel .flow [.value, .flowEntry, .flowMappingEnd]
        let value ←
          if ← passIf .value then nodeUnless fuel .flow [.flowEntry, .flowMappingEnd]
          else pure Node.empty
        return (key, value) :: (← flowEntries fuel false)
      else if ← passIf .flowMappingEnd then return []
      else
        let key ← node fuel .flow
        return (key, .empty) :: (← flowEntries fuel false)

end

/-- Read the directives before a document: one version that is known, and tag handles, each once. -/
def directives : (fuel : Nat) → (isVersioned : Bool) → (declared : Table String String) →
    TreeReader (Table String String)
  | 0, _, _ => failure
  | fuel + 1, isVersioned, declared => do
    match ← next? with
    | some (.version major minor) =>
      if isVersioned || major ≠ 1 || (minor ≠ 1 && minor ≠ 2) then failure
      else
        pass
        directives fuel true declared
    | some (.tagHandle handle start) =>
      if declared.holds (String.ofList handle) then failure
      else
        pass
        directives fuel isVersioned (declared.put (String.ofList handle) (String.ofList start))
    | _ => return declared

/-- The tag handles that need no directive. -/
def ownHandles : Table String String :=
  Table.ofEntries [("!", "!"), ("!!", "tag:yaml.org,2002:")]

/-- Whether a directive or the mark of a document comes next. -/
def atPreamble : TreeReader Bool := do
  match ← next? with
  | some (.version _ _) | some (.tagHandle _ _) | some .documentStart => return true
  | _ => return false

/-- Read the root of a document; nothing has to be written behind the mark of a document. -/
def root (fuel : Nat) : TreeReader Node := do
  if ← atPreamble then
    let declared ← directives fuel false []
    modify fun scan => { scan with handles := Table.ofEntries (ownHandles ++ declared) }
    expect .documentStart
    if (← atPreamble) || (← atOneOf [.documentEnd]) || (← next?).isNone then return .empty
    else node fuel .block
  else
    modify fun scan => { scan with handles := ownHandles }
    node fuel .block

/-- Read the one document that a text holds; where the text is empty there is none. -/
def document : TreeReader (Option Document) := do
  if (← next?).isNone then return none
  else
    let root ← root (4 * (← get).tokens.length + 8)
    modify fun scan => { scan with tokens := scan.tokens.dropWhile (· = .documentEnd) }
    if (← next?).isNone then return some ⟨root, (← get).anchors⟩ else failure

end TreeReader

/-- The document of a text; an empty text has an empty one. Nothing, if the text is not YAML or has
more than one document. -/
def Document.ofText? (s : List Char) : Option Document := do
  let tokens ← Token.ofText? s
  let (doc, _) ← TreeReader.document.run ⟨tokens, [], [], []⟩
  pure (doc.getD ⟨.empty, []⟩)

end ContentImport.Yaml

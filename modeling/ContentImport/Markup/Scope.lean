import ContentImport.Markup.Attribute

/-!
Namespace scopes. A tag binds prefixes to namespaces by its attributes, and the bindings hold within
its element. A name is resolved by the binding of its prefix that is innermost.
-/

set_option autoImplicit false
set_option relaxedAutoImplicit false

namespace ContentImport.Markup

/-- A prefix and its namespace. The default namespace has no prefix. -/
structure Binding where
  label : Option Bytes
  ns : Bytes
  deriving DecidableEq, Repr

/-- The bindings that hold, the innermost in front. -/
abbrev Scope := List Binding

def xmlNamespace : Bytes := ascii "http://www.w3.org/XML/1998/namespace"

def xmlnsNamespace : Bytes := ascii "http://www.w3.org/2000/xmlns/"

namespace Scope

/-- The bindings that hold in every document. -/
def outermost : Scope :=
  [⟨some (ascii "xmlns"), xmlnsNamespace⟩, ⟨some (ascii "xml"), xmlNamespace⟩]

/-- The prefix that an attribute of the given name binds: none for the default namespace. -/
def boundPrefix? (key : Bytes) : Option (Option Bytes) :=
  match Token.after? "xmlns" key with
  | some [] => some none
  | some (c :: label) => if c = byte ':' then some (some label) else none
  | none => none

/-- The scope within which an attribute binds a prefix. The prefixes `xml` and `xmlns` and their
namespaces cannot be bound anew. A prefix that is empty stands for the default namespace. -/
def bind (scope : Scope) (a : Attribute) : Except Fault Scope :=
  match boundPrefix? a.key with
  | none => .ok scope
  | some none => .ok (⟨none, a.value⟩ :: scope)
  | some (some label) =>
    if label = ascii "xml" then
      if a.value = xmlNamespace then .ok scope else .error .reservedBinding
    else if label = ascii "xmlns" then .error .reservedBinding
    else if a.value = xmlNamespace ∨ a.value = xmlnsNamespace then .error .reservedBinding
    else .ok (⟨if label.isEmpty then none else some label, a.value⟩ :: scope)

/-- The scope within a tag that has the given bytes after its name. -/
def enter (scope : Scope) (rest : Bytes) : Except Fault Scope :=
  (Attribute.scan rest).items.foldlM bind scope

def splitName (name : Bytes) : Option Bytes × Bytes :=
  match name.dropWhile (· ≠ byte ':') with
  | _ :: bare => (some (name.takeWhile (· ≠ byte ':')), bare)
  | [] => (none, name)

/-- The namespace of a prefix. An empty namespace is none, and so is the default one where it does
not apply. -/
def namespace? (scope : Scope) (byDefault : Bool) (label : Option Bytes) : Option Bytes :=
  match label, byDefault with
  | none, false => none
  | _, _ => ((scope.find? (·.label = label)).map (·.ns)).filter (!·.isEmpty)

/-- A name with its namespace in front, where it has one. The default namespace applies to elements
alone. -/
def qualify (scope : Scope) (byDefault : Bool) (name : Bytes) : List Char :=
  let (label, bare) := splitName name
  let front := ((scope.namespace? byDefault label).map Text.Utf8.decodeLenient).getD []
  front ++ Text.Utf8.decodeLenient bare

example : (enter outermost (ascii " xmlns='d' xmlns:p='e'")).toOption.map
    (fun s => (qualify s true (ascii "a"), qualify s false (ascii "a"), qualify s true (ascii "p:a"))) =
    some ("da".toList, "a".toList, "ea".toList) := by decide +kernel

end Scope

end ContentImport.Markup

import ContentImport.Iri.Grammar

/-!
IRIs. A resource is identified by its IRI alone. An IRI splits into a namespace and a local name,
which are never cut apart in a way that leaves the local name empty.
-/

set_option autoImplicit false
set_option relaxedAutoImplicit false

namespace ContentImport

/-- A text that is an absolute IRI. -/
structure Iri where
  text : String
  absolute : Iri.isAbsolute text.toList = true
  deriving DecidableEq

/-- A text that is no absolute IRI. -/
structure InvalidIri where
  text : String
  deriving DecidableEq, Repr

def InvalidIri.message (e : InvalidIri) : String :=
  "invalid IRI: " ++ e.text

namespace Iri

@[ext] theorem eq_of_text {a b : Iri} (h : a.text = b.text) : a = b := by
  cases a; cases b; simp_all

/-- IRIs are ordered by their texts. -/
instance : LT Iri := ⟨fun a b => a.text < b.text⟩

instance : DecidableLT Iri := fun a b => inferInstanceAs (Decidable (a.text < b.text))

def ofText (text : String) : Except InvalidIri Iri :=
  if absolute : isAbsolute text.toList = true then .ok ⟨text, absolute⟩ else .error ⟨text⟩

def inNamespace (ns : String) (name : String) : Except InvalidIri Iri :=
  ofText (ns ++ name)

def afterLast? (separator : Char) : List Char → Option (List Char)
  | [] => none
  | c :: rest =>
    match afterLast? separator rest with
    | some found => some found
    | none => if c = separator then some rest else none

/-- The text after the last occurrence of a separator, unless nothing follows it. -/
def tail? (s : List Char) (separator : Char) : Option (List Char) :=
  (afterLast? separator s).filter (!·.isEmpty)

/-- What follows the last number sign, else the last slash, else the last colon, wherever that is
not empty; the whole text when there is no such place. -/
def localPart (s : List Char) : List Char :=
  (['#', '/', ':'].findSome? (tail? s)).getD s

/-- The name of the resource within its namespace. -/
def localName (iri : Iri) : String :=
  String.ofList (localPart iri.text.toList)

def namespaceName (iri : Iri) : String :=
  String.ofList
    (iri.text.toList.take (iri.text.toList.length - (localPart iri.text.toList).length))

example : localPart "http://a/b#".toList = "b#".toList := by decide
example : localPart "ex:a:".toList = "ex:a:".toList := by decide

private theorem suffix_of_afterLast? {separator : Char} {s found : List Char}
    (h : afterLast? separator s = some found) : found <:+ s := by
  induction s with
  | nil => simp [afterLast?] at h
  | cons c rest ih =>
    unfold afterLast? at h
    split at h
    · next later heq =>
      cases h
      exact (ih heq).trans (List.suffix_cons c rest)
    · split at h
      · cases h
        exact List.suffix_cons c _
      · cases h

private theorem localPart_cases (s : List Char) :
    localPart s = s ∨ ∃ separator, tail? s separator = some (localPart s) := by
  unfold localPart
  cases h : ['#', '/', ':'].findSome? (tail? s) with
  | none => exact .inl rfl
  | some t =>
    obtain ⟨separator, _, found⟩ := List.exists_of_findSome?_eq_some h
    exact .inr ⟨separator, found⟩

private theorem localPart_suffix (s : List Char) : localPart s <:+ s := by
  rcases localPart_cases s with h | ⟨separator, h⟩
  · exact (congrArg (· <:+ s) h).mpr (List.suffix_refl s)
  · exact suffix_of_afterLast? (Option.filter_eq_some_iff.1 h).1

theorem localPart_ne_nil {s : List Char} (h : s ≠ []) : localPart s ≠ [] := by
  rcases localPart_cases s with same | ⟨separator, found⟩
  · rwa [same]
  · simpa using (Option.filter_eq_some_iff.1 found).2

theorem text_ne_empty (iri : Iri) : iri.text ≠ "" := by
  intro empty
  have absolute := iri.absolute
  rw [empty] at absolute
  cases absolute

theorem localName_ne_empty (iri : Iri) : iri.localName ≠ "" := by
  have characters : iri.text.toList ≠ [] := fun none =>
    iri.text_ne_empty (String.toList_eq_nil_iff.mp none)
  intro empty
  rw [localName, String.ofList_eq_empty_iff] at empty
  exact localPart_ne_nil characters empty

/-- Namespace and local name together are the IRI. -/
theorem namespaceName_append_localName (iri : Iri) :
    iri.namespaceName ++ iri.localName = iri.text := by
  have cut := List.suffix_iff_eq_append.1 (localPart_suffix iri.text.toList)
  rw [namespaceName, localName, ← String.ofList_append, cut, String.ofList_toList]

end Iri

end ContentImport

import ContentImport.Text.Digit

/-!
The grammar of absolute IRIs (RFC 3987). A reference is cut into its five components at the
delimiters alone, whatever the components hold; validity is then a condition on each component.
Main statement: the components put together again are the text.
-/

set_option autoImplicit false
set_option relaxedAutoImplicit false

namespace ContentImport.Iri

open ContentImport.Text (isHexDigit digitsValue)

/-- The five components of a reference. A component that is absent is `none`; one that is present
and empty is `some []`. -/
structure Components where
  scheme : Option (List Char)
  authority : Option (List Char)
  path : List Char
  query : Option (List Char)
  fragment : Option (List Char)
  deriving DecidableEq, Repr

namespace Components

/-- The characters before the first one of a class, and the rest from it on. -/
def cut (stop : Char → Bool) (s : List Char) : List Char × List Char :=
  (s.takeWhile (!stop ·), s.dropWhile (!stop ·))

def cutFragment : List Char → Option (List Char)
  | '#' :: fragment => some fragment
  | _ => none

def cutQuery : List Char → Option (List Char) × Option (List Char)
  | '?' :: rest =>
    let (query, rest) := cut (· == '#') rest
    (some query, cutFragment rest)
  | rest => (none, cutFragment rest)

/-- The end of a reference, from its authority on. -/
def cutHierarchy (scheme : Option (List Char)) (s : List Char) : Components :=
  let endsPath := fun c : Char => c == '?' || c == '#'
  match s with
  | '/' :: '/' :: rest =>
    let (authority, rest) := cut (fun c => c == '/' || endsPath c) rest
    let (path, rest) := cut endsPath rest
    let (query, fragment) := cutQuery rest
    ⟨scheme, some authority, path, query, fragment⟩
  | _ =>
    let (path, rest) := cut endsPath s
    let (query, fragment) := cutQuery rest
    ⟨scheme, none, path, query, fragment⟩

/-- Cut a reference at its delimiters. A colon ends a scheme when it comes before every slash,
question mark and number sign, and after at least one character. -/
def ofText (s : List Char) : Components :=
  match cut (fun c => c == ':' || c == '/' || c == '?' || c == '#') s with
  | (c :: scheme, ':' :: rest) => cutHierarchy (some (c :: scheme)) rest
  | _ => cutHierarchy none s

def toText (p : Components) : List Char :=
  (p.scheme.map (· ++ [':'])).getD [] ++
    (p.authority.map ('/' :: '/' :: ·)).getD [] ++
    p.path ++
    (p.query.map ('?' :: ·)).getD [] ++
    (p.fragment.map ('#' :: ·)).getD []

private theorem cut_append (stop : Char → Bool) (s : List Char) :
    (cut stop s).1 ++ (cut stop s).2 = s :=
  List.takeWhile_append_dropWhile

private theorem dropWhile_head_stops (stop : Char → Bool) (s : List Char) :
    (cut stop s).2 = [] ∨ ∃ c rest, (cut stop s).2 = c :: rest ∧ stop c = true := by
  induction s with
  | nil => exact .inl rfl
  | cons c s ih =>
    by_cases h : stop c = true
    · exact .inr ⟨c, s, by simp [cut, List.dropWhile, h], h⟩
    · simpa [cut, List.dropWhile, h] using ih

private theorem cutFragment_toText {s : List Char} (h : s = [] ∨ ∃ r, s = '#' :: r) :
    ((cutFragment s).map ('#' :: ·)).getD [] = s := by
  rcases h with rfl | ⟨r, rfl⟩ <;> rfl

private theorem cutQuery_toText {s : List Char}
    (h : s = [] ∨ (∃ r, s = '?' :: r) ∨ ∃ r, s = '#' :: r) :
    ((cutQuery s).1.map ('?' :: ·)).getD [] ++ ((cutQuery s).2.map ('#' :: ·)).getD [] = s := by
  rcases h with rfl | ⟨r, rfl⟩ | ⟨r, rfl⟩
  · rfl
  · have tail : (cut (· == '#') r).2 = [] ∨ ∃ t, (cut (· == '#') r).2 = '#' :: t := by
      rcases dropWhile_head_stops (· == '#') r with h | ⟨c, t, h, stop⟩
      · exact .inl h
      · exact .inr ⟨t, by rw [h]; simp at stop; rw [stop]⟩
    have joined := cut_append (· == '#') r
    simp only [cutQuery, Option.map_some, Option.getD_some, List.cons_append]
    rw [cutFragment_toText tail, joined]
  · simp [cutQuery, cutFragment]

private theorem endsPath_cases (s : List Char) :
    (cut (fun c => c == '?' || c == '#') s).2 = [] ∨
      (∃ r, (cut (fun c => c == '?' || c == '#') s).2 = '?' :: r) ∨
      ∃ r, (cut (fun c => c == '?' || c == '#') s).2 = '#' :: r := by
  rcases dropWhile_head_stops (fun c => c == '?' || c == '#') s with h | ⟨c, t, h, stop⟩
  · exact .inl h
  · simp only [Bool.or_eq_true, beq_iff_eq] at stop
    rcases stop with rfl | rfl
    · exact .inr (.inl ⟨t, h⟩)
    · exact .inr (.inr ⟨t, h⟩)

private theorem cutHierarchy_toText (scheme : Option (List Char)) (s : List Char) :
    (cutHierarchy scheme s).toText = (scheme.map (· ++ [':'])).getD [] ++ s := by
  have path (t : List Char) :
      (cut (fun c => c == '?' || c == '#') t).1 ++
        (((cutQuery (cut (fun c => c == '?' || c == '#') t).2).1.map ('?' :: ·)).getD [] ++
          ((cutQuery (cut (fun c => c == '?' || c == '#') t).2).2.map ('#' :: ·)).getD []) = t := by
    rw [cutQuery_toText (endsPath_cases t), cut_append]
  unfold cutHierarchy
  split
  · rename_i rest
    have joined := cut_append (fun c => c == '/' || (c == '?' || c == '#')) rest
    simp only [toText, Option.map_some, Option.getD_some, List.append_assoc, List.cons_append]
    rw [path, joined]
  · simp only [toText, Option.map_none, Option.getD_none, List.append_assoc, List.nil_append]
    rw [path]

theorem toText_ofText (s : List Char) : (ofText s).toText = s := by
  unfold ofText
  split
  · rename_i c scheme rest h
    have joined := cut_append (fun c => c == ':' || c == '/' || c == '?' || c == '#') s
    rw [h] at joined
    rw [cutHierarchy_toText, ← joined]
    simp
  · rw [cutHierarchy_toText]
    rfl

end Components

/-- The delimiters that a component may use for itself. -/
def isSubDelimiter (c : Char) : Bool :=
  c ∈ ['!', '$', '&', '\'', '(', ')', '*', '+', ',', ';', '=']

def isUnreserved (c : Char) : Bool :=
  c.isAlphanum || c ∈ ['-', '.', '_', '~']

/-- The characters beyond ASCII that an IRI may hold anywhere. -/
def isWideChar (c : Char) : Bool :=
  let n := c.toNat
  (0xA0 ≤ n && n ≤ 0xD7FF) || (0xF900 ≤ n && n ≤ 0xFDCF) || (0xFDF0 ≤ n && n ≤ 0xFFEF) ||
    (0x10000 ≤ n && n ≤ 0xDFFFF && n % 0x10000 ≤ 0xFFFD) || (0xE1000 ≤ n && n ≤ 0xEFFFD)

/-- The private characters, which only a query may hold. -/
def isPrivateChar (c : Char) : Bool :=
  let n := c.toNat
  (0xE000 ≤ n && n ≤ 0xF8FF) || (0xF0000 ≤ n && n ≤ 0xFFFFD) || (0x100000 ≤ n && n ≤ 0x10FFFD)

def isNameChar (c : Char) : Bool :=
  isUnreserved c || isWideChar c || isSubDelimiter c

def isSegmentChar (c : Char) : Bool :=
  isNameChar c || c == ':' || c == '@'

/-- Every character is of the class, or a percent sign before two hexadecimal digits. -/
def isEscapedText (allowed : Char → Bool) : List Char → Bool
  | '%' :: a :: b :: rest => isHexDigit a && isHexDigit b && isEscapedText allowed rest
  | c :: rest => allowed c && isEscapedText allowed rest
  | [] => true

/-- A scheme begins with a letter; letters, digits, plus, minus and full stop follow. -/
def isScheme : List Char → Bool
  | c :: rest => c.isAlpha && rest.all fun c => c.isAlphanum || c ∈ ['+', '-', '.']
  | [] => false

/-- Read a decimal octet without leading zeros. -/
def readOctet? (s : List Char) : Option (List Char) :=
  let digits := s.takeWhile Char.isDigit
  if digits.isEmpty || digits.length > 3 || (digits.head? == some '0' && digits.length > 1) then
    none
  else if digitsValue 10 digits ≤ 255 then
    some (s.drop digits.length)
  else none

def readChar? (expected : Char) : List Char → Option (List Char)
  | c :: rest => if c = expected then some rest else none
  | [] => none

/-- Read four octets with full stops between them. -/
def readDottedQuad? (s : List Char) : Option (List Char) :=
  readOctet? s >>= readChar? '.' >>= readOctet? >>= readChar? '.' >>= readOctet? >>=
    readChar? '.' >>= readOctet?

/-- Read a group of one to four hexadecimal digits. -/
def readGroup? (s : List Char) : Option (List Char) :=
  let digits := s.takeWhile isHexDigit
  if digits.isEmpty || digits.length > 4 then none else some (s.drop digits.length)

/-- What a run of address groups came to: how many groups it stands for, whether it ended in a
dotted quad, and what follows it. -/
structure GroupRun where
  count : Nat
  quad : Bool
  rest : List Char

/-- Read at most `room` groups with colons between them; a dotted quad stands for two. -/
def readGroups : (room : Nat) → (first : Bool) → List Char → GroupRun
  | 0, _, s => ⟨0, false, s⟩
  | room + 1, first, s =>
    match if first then some s else readChar? ':' s with
    | none => ⟨0, false, s⟩
    | some body =>
      match if room = 0 then none else readDottedQuad? body with
      | some rest => ⟨2, true, rest⟩
      | none =>
        match readGroup? body with
        | none => ⟨0, false, s⟩
        | some rest =>
          let run := readGroups room false rest
          ⟨run.count + 1, run.quad, run.rest⟩

/-- An IPv6 address: eight groups, or fewer with one double colon for at least one group. -/
def isAddress6 (s : List Char) : Bool :=
  let head := readGroups 8 true s
  if head.count = 8 then head.rest.isEmpty
  else if head.quad then false
  else
    match readChar? ':' head.rest >>= readChar? ':' with
    | none => false
    | some rest => (readGroups (7 - head.count) true rest).rest.isEmpty

/-- An address of a version still to come: a version in hexadecimal, a full stop and a text. -/
def isFutureAddress : List Char → Bool
  | c :: rest =>
    let (version, rest) := Components.cut (· == '.') rest
    (c == 'v' || c == 'V') && !version.isEmpty && version.all isHexDigit &&
      match rest with
      | '.' :: text =>
        !text.isEmpty && text.all fun c => isUnreserved c || isSubDelimiter c || c == ':'
      | _ => false
  | [] => false

/-- What may follow a host: nothing, or a colon and digits. -/
def isHostEnd : List Char → Bool
  | [] => true
  | c :: digits => c == ':' && digits.all Char.isDigit

/-- A host, by name or as an address in brackets, and what may follow it. -/
def isHost : List Char → Bool
  | '[' :: rest =>
    let (address, rest) := Components.cut (· == ']') rest
    match rest with
    | ']' :: rest => (isAddress6 address || isFutureAddress address) && isHostEnd rest
    | _ => false
  | s =>
    let (name, rest) := Components.cut (· == ':') s
    isEscapedText isNameChar name && isHostEnd rest

/-- An authority: a host, after the user's name if an at sign ends one. -/
def isAuthority (s : List Char) : Bool :=
  match Components.cut (· == '@') s with
  | (user, '@' :: host) => isEscapedText (fun c => isNameChar c || c == ':') user && isHost host
  | _ => isHost s

def Components.areAbsolute (p : Components) : Bool :=
  p.scheme.any isScheme &&
    p.authority.all isAuthority &&
    isEscapedText (fun c => isSegmentChar c || c == '/') p.path &&
    p.query.all (isEscapedText fun c => isSegmentChar c || c == '/' || c == '?' || isPrivateChar c) &&
    p.fragment.all (isEscapedText fun c => isSegmentChar c || c == '/' || c == '?')

def isAbsolute (s : List Char) : Bool :=
  (Components.ofText s).areAbsolute

example : isAbsolute "http://u@[::ffff:1.2.3.4]:80/a?b#c".toList = true := by decide +kernel
example : isAbsolute "http://[1::2::3]/".toList = false := by decide +kernel
example : isAbsolute "ex:%4".toList = false := by decide +kernel
example : isAbsolute "//a/b".toList = false := by decide +kernel

end ContentImport.Iri

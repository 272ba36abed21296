import ContentImport.Iri.Grammar
import Mathlib.Data.List.DropRight
import Mathlib.Data.List.Infix
import Mathlib.Data.List.TakeWhile

/-!
Relative references (RFC 3986, section 5.2). A reference is resolved against a base component by
component: what it leaves out is taken from the base, and the segments of one and two full stops are
removed from the path. Main statement: a path without such segments is left as it is, and any other
path gets shorter.
-/

set_option autoImplicit false
set_option relaxedAutoImplicit false

namespace ContentImport.Iri

/-! ## Dot segments -/

/-- A segment that stands for the one it is in, or for the one above that. -/
def isDotSegment (segment : List Char) : Bool :=
  segment = ['.'] || segment = ['.', '.']

/-- Go through the segments of a path. The segments kept stand in reverse, each with the slash in
front of it; a dot segment at the end of a path leaves its slash. -/
def settle : (kept : List (List Char)) → List (List Char) → List (List Char)
  | kept, [] => kept.reverse
  | kept, segment :: rest =>
    if segment = ['.'] then settle (if rest = [] then ['/'] :: kept else kept) rest
    else if segment = ['.', '.'] then
      settle (if rest = [] then ['/'] :: kept.tail else kept.tail) rest
    else settle (('/' :: segment) :: kept) rest

/-- A path without its dot segments (section 5.2.4). Those it begins with go with their slashes. -/
def withoutDotSegments (path : List Char) : List Char :=
  match (path.splitOn '/').dropWhile isDotSegment with
  | [] => []
  | first :: rest => (settle [first] rest).flatten

example : withoutDotSegments "/a/b/c/./../../g".toList = "/a/g".toList := by decide +kernel
example : withoutDotSegments "mid/content=5/../6".toList = "mid/6".toList := by decide +kernel
example : withoutDotSegments "../a/..".toList = "/".toList := by decide +kernel

/-- A path has no segment of one or two full stops. -/
def IsPlainPath (path : List Char) : Prop :=
  ∀ segment ∈ path.splitOn '/', isDotSegment segment = false

instance (path : List Char) : Decidable (IsPlainPath path) :=
  inferInstanceAs (Decidable (∀ segment ∈ path.splitOn '/', isDotSegment segment = false))

def joined (segments : List (List Char)) : List Char :=
  segments.flatMap ('/' :: ·)

@[simp] theorem joined_nil : joined [] = [] :=
  rfl

@[simp] theorem joined_cons (segment : List Char) (rest : List (List Char)) :
    joined (segment :: rest) = '/' :: segment ++ joined rest :=
  List.flatMap_cons

private theorem joined_splitOn (s : List Char) : joined (s.splitOn '/') = '/' :: s := by
  induction s with
  | nil => rfl
  | cons c s ih =>
    rw [List.splitOn_cons_eq_if_modifyHead]
    split
    · next slash =>
      obtain rfl := beq_iff_eq.mp slash
      rw [joined_cons, ih]
      rfl
    · obtain ⟨first, rest, parts⟩ := List.exists_cons_of_ne_nil (List.splitOn_ne_nil '/' s)
      rw [parts, joined_cons] at ih
      rw [parts, List.modifyHead_cons, joined_cons]
      have behind : first ++ joined rest = s := (List.cons.inj ih).2
      rw [← behind]
      rfl

private theorem flatten_settle_of_plain {segments : List (List Char)}
    (plain : ∀ segment ∈ segments, isDotSegment segment = false) (kept : List (List Char)) :
    (settle kept segments).flatten = kept.reverse.flatten ++ joined segments := by
  induction segments generalizing kept with
  | nil => simp [settle]
  | cons segment rest ih =>
    obtain ⟨first, others⟩ := List.forall_mem_cons.mp plain
    simp only [isDotSegment, Bool.or_eq_false_iff, decide_eq_false_iff_not] at first
    rw [settle, if_neg first.1, if_neg first.2, ih others]
    simp

private theorem length_flatten_tail_le (kept : List (List Char)) :
    kept.tail.flatten.length ≤ kept.flatten.length := by
  cases kept with
  | nil => exact Nat.le_refl _
  | cons last kept =>
    rw [List.tail_cons, List.flatten_cons, List.length_append]
    exact Nat.le_add_left _ _

private theorem length_settle_add_le (kept segments : List (List Char)) :
    (settle kept segments).flatten.length + segments.countP isDotSegment ≤
      kept.flatten.length + (joined segments).length := by
  have closing (kept rest : List (List Char)) :
      (if rest = [] then ['/'] :: kept else kept).flatten.length ≤ kept.flatten.length + 1 := by
    split <;> simp
  induction segments generalizing kept with
  | nil => simp [settle]
  | cons segment rest ih =>
    rw [settle, joined_cons, List.length_append, List.length_cons]
    split
    · next dot =>
      subst dot
      have shorter := ih (if rest = [] then ['/'] :: kept else kept)
      have open' := closing kept rest
      rw [List.countP_cons_of_pos (by decide)]
      simp only [List.length_cons, List.length_nil]
      omega
    · next single =>
      split
      · next dots =>
        subst dots
        have shorter := ih (if rest = [] then ['/'] :: kept.tail else kept.tail)
        have open' := closing kept.tail rest
        have above := length_flatten_tail_le kept
        rw [List.countP_cons_of_pos (by decide)]
        simp only [List.length_cons, List.length_nil]
        omega
      · next double =>
        have shorter := ih (('/' :: segment) :: kept)
        rw [List.countP_cons_of_neg (by simp [isDotSegment, single, double])]
        simp only [List.flatten_cons, List.length_append, List.length_cons] at shorter
        omega

private theorem joined_append (front rest : List (List Char)) :
    joined (front ++ rest) = joined front ++ joined rest :=
  List.flatMap_append

private theorem length_joined_of_dots {segments : List (List Char)}
    (dots : ∀ segment ∈ segments, isDotSegment segment = true) :
    2 * segments.length ≤ (joined segments).length := by
  induction segments with
  | nil => exact Nat.le_refl _
  | cons segment rest ih =>
    obtain ⟨first, others⟩ := List.forall_mem_cons.mp dots
    have more := ih others
    have long : 1 ≤ segment.length := by
      rw [Nat.one_le_iff_ne_zero, ne_eq, List.length_eq_zero_iff]
      rintro rfl
      cases first
    rw [joined_cons, List.length_append, List.length_cons, List.length_cons]
    omega

theorem length_withoutDotSegments_add_le (path : List Char) :
    (withoutDotSegments path).length + (path.splitOn '/').countP isDotSegment ≤ path.length := by
  have whole := congrArg List.length (joined_splitOn path)
  have parts := List.takeWhile_append_dropWhile (p := isDotSegment) (l := path.splitOn '/')
  have dots : ∀ segment ∈ (path.splitOn '/').takeWhile isDotSegment, isDotSegment segment = true :=
    fun segment member => List.mem_takeWhile_imp member
  have leading := length_joined_of_dots dots
  have counted : ((path.splitOn '/').takeWhile isDotSegment).countP isDotSegment =
      ((path.splitOn '/').takeWhile isDotSegment).length := List.countP_eq_length.mpr dots
  rw [withoutDotSegments]
  rw [← parts, joined_append, List.length_append, List.length_cons] at whole
  rw [← parts, List.countP_append, counted]
  rw [parts]
  cases behind : (path.splitOn '/').dropWhile isDotSegment with
  | nil =>
    rw [behind, joined_nil] at whole
    simp only [List.length_nil, List.countP_nil] at whole ⊢
    omega
  | cons first rest =>
    have ordinary : isDotSegment first = false := by
      have front := List.head?_dropWhile_not isDotSegment (path.splitOn '/')
      rw [behind] at front
      simpa using front
    have shorter := length_settle_add_le [first] rest
    rw [behind, joined_cons, List.length_append, List.length_cons] at whole
    rw [List.countP_cons_of_neg (by simp [ordinary])]
    simp only [List.flatten_cons, List.flatten_nil, List.append_nil] at shorter
    simp only
    omega

theorem withoutDotSegments_eq_self_iff {path : List Char} :
    withoutDotSegments path = path ↔ IsPlainPath path := by
  constructor
  · intro same
    have shorter := length_withoutDotSegments_add_le path
    have none : (path.splitOn '/').countP isDotSegment = 0 := by
      rw [same] at shorter
      omega
    intro segment member
    exact Bool.eq_false_iff.mpr (List.countP_eq_zero.mp none segment member)
  · intro plain
    have whole := joined_splitOn path
    obtain ⟨first, rest, parts⟩ := List.exists_cons_of_ne_nil (List.splitOn_ne_nil '/' path)
    rw [parts, joined_cons] at whole
    rw [IsPlainPath, parts] at plain
    obtain ⟨plainFirst, plainRest⟩ := List.forall_mem_cons.mp plain
    rw [withoutDotSegments, parts, List.dropWhile_cons_of_neg (by simp [plainFirst])]
    simp only [flatten_settle_of_plain plainRest]
    simpa using (List.cons.inj whole).2

theorem isPlainPath_nil : IsPlainPath [] := by
  decide

theorem isPlainPath_append_slash {front rest : List Char} :
    IsPlainPath (front ++ '/' :: rest) ↔ IsPlainPath front ∧ IsPlainPath rest := by
  rw [IsPlainPath, List.splitOn_append_cons_self, List.forall_mem_append]
  rfl

/-! ## Resolution -/

/-- The part of a path up to its last slash. -/
def directoryOf (path : List Char) : List Char :=
  path.rdropWhile (· ≠ '/')

namespace Components

/-- The path of a reference put behind that of a base (section 5.2.3). -/
def merge (base : Components) (path : List Char) : List Char :=
  (if base.authority.isSome ∧ base.path = [] then ['/'] else directoryOf base.path) ++ path

/-- What a reference stands for behind a base (section 5.2.2). -/
def resolve (base r : Components) : Components :=
  if r.scheme.isSome then { r with path := withoutDotSegments r.path }
  else if r.authority.isSome then
    { r with scheme := base.scheme, path := withoutDotSegments r.path }
  else if r.path = [] then
    ⟨base.scheme, base.authority, base.path, r.query.or base.query, r.fragment⟩
  else
    let path := if r.path.head? = some '/' then r.path else base.merge r.path
    ⟨base.scheme, base.authority, withoutDotSegments path, r.query, r.fragment⟩

-- The examples of section 5.4, without those that do the same.
example : ["g", "./g", "g/", "/g", "//g", "?y", "g?y", "#s", "g;x?y#s", "", ".", "../../../g",
      "/./g", "g;x=1/../y", "g?y/./x", "http:g"].map
    (fun r => String.ofList
      ((ofText "http://a/b/c/d;p?q".toList).resolve (ofText r.toList)).toText) =
    ["http://a/b/c/g", "http://a/b/c/g", "http://a/b/c/g/", "http://a/g", "http://g",
      "http://a/b/c/d;p?y", "http://a/b/c/g?y", "http://a/b/c/d;p?q#s", "http://a/b/c/g;x?y#s",
      "http://a/b/c/d;p?q", "http://a/b/c/", "http://a/g", "http://a/g", "http://a/b/c/y",
      "http://a/b/c/g?y/./x", "http:g"] := by
  decide +kernel

end Components

end ContentImport.Iri

import ContentImport.Ontology.Reading
import ContentImport.Proofs.Iri.Components
import ContentImport.Proofs.Iri.Resolution

/-!
References relative to the base of a document. A fragment is put behind the base as prescribed; any
other reference is put behind the last slash of the whole base, wherever in the base that slash is,
and that is what is prescribed for some bases and references alone.
-/

set_option autoImplicit false
set_option relaxedAutoImplicit false

namespace ContentImport.Ontology

open ContentImport.Iri (Components IsPlainPath directoryOf withoutDotSegments
  withoutDotSegments_eq_self_iff isPlainPath_append_slash length_withoutDotSegments_add_le)

/-! ## Slashes -/

private theorem dropWhile_reverse {front rest : List Char} (plain : '/' ∉ rest) :
    (front ++ '/' :: rest).reverse.dropWhile (· ≠ '/') = '/' :: front.reverse := by
  have skipped : ∀ c ∈ rest.reverse, decide (c ≠ '/') = true := by
    intro c member
    have differs : c ≠ '/' := fun same => plain (same ▸ List.mem_reverse.mp member)
    simpa using differs
  rw [List.reverse_append, List.reverse_cons, List.append_assoc,
    List.dropWhile_append_of_pos skipped]
  simp

private theorem directory_of_last {front rest : List Char} (plain : '/' ∉ rest) :
    Reference.directory (front ++ '/' :: rest) = front ++ ['/'] := by
  rw [Reference.directory, dropWhile_reverse plain]
  simp

private theorem directoryOf_of_last {front rest : List Char} (plain : '/' ∉ rest) :
    directoryOf (front ++ '/' :: rest) = front ++ ['/'] := by
  rw [directoryOf, List.rdropWhile, dropWhile_reverse plain]
  simp

private theorem directory_eq_iff {front rest : List Char} (slash : '/' ∈ front ++ rest) :
    Reference.directory (front ++ rest) = front ↔ front.getLast? = some '/' ∧ '/' ∉ rest := by
  constructor
  · intro same
    obtain ⟨before, after, parts, plain⟩ := Components.exists_last slash
    rw [parts, directory_of_last plain] at same
    subst same
    rw [List.append_assoc, List.singleton_append] at parts
    have behind : rest = after := (List.cons.inj (List.append_cancel_left parts)).2
    exact ⟨List.getLast?_concat, behind ▸ plain⟩
  · rintro ⟨last, plain⟩
    obtain ⟨before, rfl⟩ := List.getLast?_eq_some_iff.mp last
    rw [List.append_assoc, List.singleton_append, directory_of_last plain]

private theorem directory_append {front rest : List Char} (slash : '/' ∈ rest) :
    ∃ within, Reference.directory (front ++ rest) = front ++ within ++ ['/'] ∧
      within ++ ['/'] <+: rest := by
  obtain ⟨before, after, rfl, plain⟩ := Components.exists_last slash
  refine ⟨before, ?_, after, by simp⟩
  rw [← List.append_assoc, directory_of_last plain]

/-! ## Outcomes -/

private theorem ofText_eq_iff {s t : List Char} :
    (Iri.ofText (String.ofList s)).mapError ReadFault.invalidIri =
      (Iri.ofText (String.ofList t)).mapError ReadFault.invalidIri ↔ s = t := by
  refine ⟨fun same => ?_, fun same => same ▸ rfl⟩
  rw [← String.ofList_inj]
  rw [Iri.ofText, Iri.ofText] at same
  split at same <;> split at same
  · exact congrArg Iri.text (Except.ok.inj same)
  · cases same
  · cases same
  · exact congrArg InvalidIri.text (ReadFault.invalidIri.inj (Except.error.inj same))

private theorem hasScheme_eq_false {r : List Char}
    (relative : (Components.ofText r).scheme = none) :
    Reference.hasScheme r = false := by
  rw [Bool.eq_false_iff]
  intro has
  simp only [Reference.hasScheme, Bool.and_eq_true, decide_eq_true_eq, Bool.not_eq_true',
    List.isEmpty_eq_false_iff, List.all_eq_true] at has
  obtain ⟨⟨shorter, nonempty⟩, allowed⟩ := has
  have parts := List.takeWhile_append_dropWhile (p := (· ≠ ':')) (l := r)
  have stops := List.head?_dropWhile_not (· ≠ ':') r
  generalize r.takeWhile (· ≠ ':') = scheme at parts shorter nonempty allowed
  generalize r.dropWhile (· ≠ ':') = behind at parts stops
  subst parts
  cases behind with
  | nil => simp at shorter
  | cons c rest =>
    obtain rfl : c = ':' := by simpa using stops
    have cut : Components.cut (fun c => c == ':' || c == '/' || c == '?' || c == '#')
        (scheme ++ ':' :: rest) = (scheme, ':' :: rest) := by
      have kept : ∀ c ∈ scheme, (!(c == ':' || c == '/' || c == '?' || c == '#')) = true := by
        intro c member
        have plain := Components.not_mem_of_isSchemeChar (allowed c member)
        simpa [and_assoc] using plain
      rw [Components.cut, List.takeWhile_append_of_pos kept, List.dropWhile_append_of_pos kept]
      simp
    obtain ⟨first, others, rfl⟩ := List.exists_cons_of_ne_nil nonempty
    rw [Components.ofText, cut] at relative
    simp only [Components.scheme_cutHierarchy] at relative
    cases relative

namespace Reference

/-! ## Behind a base -/

/-- The components of a base after which references are put, and of a reference relative to it
without dot segments. -/
structure Meets (base r : Components) : Prop where
  separated : base.Separated
  hierarchical : base.authority.isSome ∨ base.path.head? = some '/'
  reference : Components.ofText r.toText = r
  scheme : r.scheme = none
  authority : r.authority = none
  plain : IsPlainPath r.path

/-- Whether putting a reference behind the last slash of a base, or in place of its fragment, gives
what is prescribed. -/
def FitsBase (base r : Components) : Prop :=
  if r.path = [] then
    match r.query, r.fragment with
    | none, some _ => True
    | none, none =>
      { base with fragment := none }.toText.getLast? = some '/' ∧ '/' ∉ base.fragment.getD []
    | some _, _ =>
      { base with query := none, fragment := none }.toText.getLast? = some '/' ∧ '/' ∉ base.tail
  else if r.path.head? = some '/' then base.authority = some [] ∧ base.path = [] ∧ '/' ∉ base.tail
  else base.path ≠ [] ∧ IsPlainPath (directoryOf base.path) ∧ '/' ∉ base.tail

namespace Meets

variable {base r : Components}

private theorem text (meets : Meets base r) : r.toText = r.path ++ r.tail := by
  simp [Components.toText_eq, Components.stem, meets.scheme, meets.authority]

private theorem slash_mem (meets : Meets base r) : '/' ∈ base.toText := by
  rw [Components.toText_eq]
  rcases meets.hierarchical with authority | path
  · obtain ⟨a, given⟩ := Option.isSome_iff_exists.mp authority
    simp [Components.stem, given]
  · exact List.mem_append_right _ (List.mem_append_left _ (List.mem_of_mem_head? path))

private theorem head?_path (meets : Meets base r) (given : base.path ≠ []) :
    base.path.head? = some '/' := by
  rcases meets.hierarchical with authority | path
  · exact (meets.separated.rooted authority).resolve_left given
  · exact path

private theorem absolute_eq (meets : Meets base r) (other : r.toText.head? ≠ some '#') :
    absolute (some base.toText) r.toText = directory base.toText ++ (r.path ++ r.tail) := by
  have schemeless : hasScheme r.toText = false := by
    refine hasScheme_eq_false ?_
    rw [meets.reference, meets.scheme]
  rw [absolute, if_neg other, if_neg (by simp [schemeless]), meets.text]

private theorem head?_text (meets : Meets base r) (given : r.path ≠ []) :
    r.toText.head? ≠ some '#' := by
  obtain ⟨c, rest, path⟩ := List.exists_cons_of_ne_nil given
  have separated : r.Separated := meets.reference ▸ Components.separated_ofText r.toText
  have plain := separated.path c (by rw [path]; exact List.mem_cons_self)
  rw [meets.text, path, List.cons_append, List.head?_cons, ne_eq, Option.some.injEq]
  rintro rfl
  exact plain (by simp)

private theorem toText_resolve_of_path (meets : Meets base r) (given : r.path ≠ []) :
    (base.resolve r).toText = base.stem ++ (withoutDotSegments
      (if r.path.head? = some '/' then r.path else base.merge r.path) ++ r.tail) := by
  simp [Components.resolve, meets.scheme, meets.authority, given, Components.toText_eq,
    Components.stem, Components.tail]

private theorem absolute_fragment (meets : Meets base r) (path : r.path = [])
    (query : r.query = none)
    {fragment : List Char} (given : r.fragment = some fragment) :
    absolute (some base.toText) r.toText = (base.resolve r).toText := by
  have text : r.toText = '#' :: fragment := by
    simp [meets.text, Components.tail, path, query, given]
  rw [absolute, text, List.head?_cons, if_pos rfl, meets.separated.takeWhile_toText]
  simp [Components.resolve, meets.scheme, meets.authority, path, query, given, Components.toText]

private theorem absolute_empty (meets : Meets base r) (path : r.path = []) (query : r.query = none)
    (fragment : r.fragment = none) :
    absolute (some base.toText) r.toText = (base.resolve r).toText ↔
      { base with fragment := none }.toText.getLast? = some '/' ∧ '/' ∉ base.fragment.getD [] := by
  have tail : r.tail = [] := by
    simp [Components.tail, query, fragment]
  have target : (base.resolve r).toText = { base with fragment := none }.toText := by
    simp [Components.resolve, meets.scheme, meets.authority, path, query, fragment]
  have slash := meets.slash_mem
  rw [meets.absolute_eq (by simp [meets.text, path, tail]), path, tail, List.append_nil,
    List.append_nil, target]
  rw [Components.toText_withoutFragment] at slash ⊢
  rw [directory_eq_iff slash]
  cases base.fragment <;> simp

private theorem absolute_query (meets : Meets base r) (path : r.path = []) {query : List Char}
    (given : r.query = some query) :
    absolute (some base.toText) r.toText = (base.resolve r).toText ↔
      { base with query := none, fragment := none }.toText.getLast? = some '/' ∧
        '/' ∉ base.tail := by
  have target : (base.resolve r).toText =
      { base with query := none, fragment := none }.toText ++ r.tail := by
    simp [Components.resolve, meets.scheme, meets.authority, path, given, Components.toText,
      Components.tail]
  have front : base.toText =
      { base with query := none, fragment := none }.toText ++ base.tail := by
    simp [Components.toText, Components.tail]
  have other : r.toText.head? ≠ some '#' := by
    simp [meets.text, path, given, Components.tail]
  have slash := meets.slash_mem
  rw [meets.absolute_eq other, path, List.nil_append, target, List.append_left_inj]
  rw [front] at slash ⊢
  exact directory_eq_iff slash

private theorem absolute_rooted (meets : Meets base r) (rooted : r.path.head? = some '/') :
    absolute (some base.toText) r.toText = (base.resolve r).toText ↔
      base.authority = some [] ∧ base.path = [] ∧ '/' ∉ base.tail := by
  have given : r.path ≠ [] := by
    rintro empty
    simp [empty] at rooted
  have slash := meets.slash_mem
  rw [meets.absolute_eq (meets.head?_text given), meets.toText_resolve_of_path given, if_pos rooted,
    withoutDotSegments_eq_self_iff.mpr meets.plain, List.append_left_inj]
  rw [Components.toText_eq] at slash ⊢
  rw [directory_eq_iff slash, meets.separated.getLast?_stem]
  refine and_congr_right fun authority => ?_
  rw [List.mem_append, not_or]
  refine and_congr_left' ⟨fun plain => ?_, fun empty => by simp [empty]⟩
  by_contra nonempty
  exact plain (List.mem_of_mem_head? (meets.head?_path nonempty))

private theorem absolute_rootless_behind (behind : '/' ∈ base.tail) :
    directory base.toText ++ r.path ≠ base.stem ++ withoutDotSegments (base.merge r.path) := by
  intro same
  obtain ⟨within, directory_eq, front⟩ := @directory_append (base.stem ++ base.path) _ behind
  have nonempty : within ≠ [] := by
    rintro rfl
    obtain ⟨rest, tail⟩ := front
    have first := base.head?_tail '/' (tail ▸ rfl)
    simp at first
  have long : 1 ≤ within.length := List.length_pos_iff.mpr nonempty
  have shorter := length_withoutDotSegments_add_le (base.merge r.path)
  have merged : (base.merge r.path).length ≤ base.path.length + 1 + r.path.length := by
    rw [Components.merge, List.length_append]
    have inside := (List.rdropWhile_prefix (· ≠ '/') base.path).length_le
    rw [← directoryOf] at inside
    split
    · simp only [List.length_cons, List.length_nil]
      omega
    · omega
  rw [Components.toText_eq, ← List.append_assoc, directory_eq] at same
  have lengths := congrArg List.length same
  simp only [List.length_append, List.length_cons, List.length_nil] at lengths
  omega

private theorem absolute_rootless_bare (meets : Meets base r) (empty : base.path = [])
    (plain : '/' ∉ base.tail) :
    directory base.toText ++ r.path ≠ base.stem ++ withoutDotSegments (base.merge r.path) := by
  intro same
  have named : base.authority.isSome := by
    refine meets.hierarchical.resolve_right ?_
    simp [empty]
  obtain ⟨a, authority⟩ := Option.isSome_iff_exists.mp named
  have slashless : '/' ∉ a ++ base.tail := by
    rw [List.mem_append, not_or]
    exact ⟨fun within => meets.separated.authority a authority _ within (by simp), plain⟩
  have text : base.toText =
      ((base.scheme.map (· ++ [':'])).getD [] ++ ['/']) ++ '/' :: (a ++ base.tail) := by
    simp [Components.toText_eq, Components.stem, authority, empty]
  have rooted : IsPlainPath ('/' :: r.path) :=
    @isPlainPath_append_slash [] _ |>.mpr ⟨Iri.isPlainPath_nil, meets.plain⟩
  have merged : base.merge r.path = '/' :: r.path := by
    simp [Components.merge, named, empty]
  rw [text, directory_of_last slashless, merged, withoutDotSegments_eq_self_iff.mpr rooted,
    Components.stem, authority] at same
  have lengths := congrArg List.length same
  simp only [List.length_append, List.length_cons, List.length_nil, Option.map_some,
    Option.getD_some] at lengths
  omega

private theorem absolute_rootless_path (meets : Meets base r) (given : base.path ≠ [])
    (plain : '/' ∉ base.tail) :
    directory base.toText ++ r.path = base.stem ++ withoutDotSegments (base.merge r.path) ↔
      IsPlainPath (directoryOf base.path) := by
  obtain ⟨front, rest, path, slashless⟩ :=
    Components.exists_last (List.mem_of_mem_head? (meets.head?_path given))
  have behind : '/' ∉ rest ++ base.tail := by
    rw [List.mem_append, not_or]
    exact ⟨slashless, plain⟩
  have text : base.toText = (base.stem ++ front) ++ '/' :: (rest ++ base.tail) := by
    simp [Components.toText_eq, path]
  have merged : base.merge r.path = front ++ '/' :: r.path := by
    rw [Components.merge, if_neg fun bare => given bare.2, path, directoryOf_of_last slashless]
    simp
  rw [text, directory_of_last behind, merged, path, directoryOf_of_last slashless,
    List.append_assoc, List.append_assoc, List.append_right_inj, List.singleton_append, eq_comm,
    withoutDotSegments_eq_self_iff, isPlainPath_append_slash, isPlainPath_append_slash]
  exact and_congr_right fun _ => iff_of_true meets.plain Iri.isPlainPath_nil

private theorem absolute_rootless (meets : Meets base r) (given : r.path ≠ [])
    (rootless : r.path.head? ≠ some '/') :
    absolute (some base.toText) r.toText = (base.resolve r).toText ↔
      base.path ≠ [] ∧ IsPlainPath (directoryOf base.path) ∧ '/' ∉ base.tail := by
  rw [meets.absolute_eq (meets.head?_text given), meets.toText_resolve_of_path given,
    if_neg rootless, ← List.append_assoc, ← List.append_assoc, List.append_left_inj]
  by_cases behind : '/' ∈ base.tail
  · exact iff_of_false (absolute_rootless_behind behind) fun fits => fits.2.2 behind
  · by_cases empty : base.path = []
    · exact iff_of_false (meets.absolute_rootless_bare empty behind) fun fits => fits.1 empty
    · rw [meets.absolute_rootless_path empty behind]
      exact ⟨fun dotless => ⟨empty, dotless, behind⟩, fun fits => fits.2.1⟩

private theorem absolute_eq_iff (meets : Meets base r) :
    absolute (some base.toText) r.toText = (base.resolve r).toText ↔ FitsBase base r := by
  by_cases path : r.path = []
  · rw [FitsBase, if_pos path]
    cases query : r.query with
    | some query => exact meets.absolute_query path query
    | none =>
      cases fragment : r.fragment with
      | some fragment => exact iff_of_true (meets.absolute_fragment path query fragment) trivial
      | none => exact meets.absolute_empty path query fragment
  · rw [FitsBase, if_neg path]
    by_cases rooted : r.path.head? = some '/'
    · rw [if_pos rooted]
      exact meets.absolute_rooted rooted
    · rw [if_neg rooted]
      exact meets.absolute_rootless path rooted

end Meets

/-- A reference relative to a hierarchical base, without a host of its own and without dot segments,
is put behind the last slash of the base unless it is a fragment. It is resolved as prescribed where
the two fit, and only there. -/
theorem resolve_prescribed_iff {base : Iri} {reference : String} {b r : Components}
    (based : Components.ofText base.text.toList = b)
    (given : Components.ofText (Text.trimBy Text.isSpace reference.toList) = r)
    (hierarchical : b.authority.isSome ∨ b.path.head? = some '/') (scheme : r.scheme = none)
    (authority : r.authority = none) (plain : IsPlainPath r.path) :
    (∃ front rest, base.text.toList = front ++ '/' :: rest ∧ '/' ∉ rest ∧
        (r.toText.head? ≠ some '#' → resolve (some base.text) reference =
          (Iri.ofText (String.ofList (front ++ '/' :: r.toText))).mapError .invalidIri)) ∧
      (resolve (some base.text) reference =
        (Iri.ofText (String.ofList (b.resolve r).toText)).mapError .invalidIri ↔ FitsBase b r) := by
  subst based given
  have baseText := Components.toText_ofText base.text.toList
  have text := Components.toText_ofText (Text.trimBy Text.isSpace reference.toList)
  have meets : Meets (Components.ofText base.text.toList)
      (Components.ofText (Text.trimBy Text.isSpace reference.toList)) :=
    ⟨Components.separated_ofText _, hierarchical, by rw [text], scheme, authority, plain⟩
  have resolved : resolve (some base.text) reference = (Iri.ofText (String.ofList
      (absolute (some base.text.toList) (Text.trimBy Text.isSpace reference.toList)))).mapError
        .invalidIri := rfl
  constructor
  · have slash := meets.slash_mem
    rw [baseText] at slash
    obtain ⟨front, rest, parts, slashless⟩ := Components.exists_last slash
    refine ⟨front, rest, parts, slashless, fun other => ?_⟩
    have put := meets.absolute_eq other
    rw [← meets.text, baseText, text, parts, directory_of_last slashless] at put
    rw [resolved, parts, put, text]
    simp
  · have fits := meets.absolute_eq_iff
    rw [baseText, text] at fits
    rw [resolved, ofText_eq_iff, fits]

def shopBase : Iri :=
  ⟨"http://example.org/shop/d", by decide +kernel⟩

theorem resolve_prescribed_iff_shopBase :
    let shop : Components :=
      ⟨some "http".toList, some "example.org".toList, "/shop/d".toList, none, none⟩
    let apple : Components := ⟨none, none, "apple".toList, none, none⟩
    let empty : Components := ⟨none, none, [], none, none⟩
    FitsBase shop apple ∧ resolve (some shopBase.text) "apple" =
        (Iri.ofText (String.ofList (shop.resolve apple).toText)).mapError .invalidIri ∧
      ¬ FitsBase shop empty ∧ resolve (some shopBase.text) "" ≠
        (Iri.ofText (String.ofList (shop.resolve empty).toText)).mapError .invalidIri ∧
      (resolve (some shopBase.text) "").toOption.map Iri.text = some "http://example.org/shop/" ∧
      String.ofList (shop.resolve empty).toText = "http://example.org/shop/d" := by
  intro shop apple empty
  have based : Components.ofText shopBase.text.toList = shop := by decide +kernel
  have hierarchical : shop.authority.isSome ∨ shop.path.head? = some '/' := .inl rfl
  have putApple := @resolve_prescribed_iff shopBase "apple" shop apple based (by decide +kernel)
    hierarchical rfl rfl (by decide +kernel)
  have putEmpty := @resolve_prescribed_iff shopBase "" shop empty based (by decide +kernel)
    hierarchical rfl rfl Iri.isPlainPath_nil
  have fits : FitsBase shop apple := by
    rw [FitsBase, if_neg (by decide), if_neg (by decide)]
    decide +kernel
  have differs : ¬ FitsBase shop empty := by
    rw [FitsBase, if_pos rfl]
    decide +kernel
  exact ⟨fits, putApple.2.mpr fits, differs, putEmpty.2.not.mpr differs, by decide +kernel,
    by decide +kernel⟩

end Reference

end ContentImport.Ontology

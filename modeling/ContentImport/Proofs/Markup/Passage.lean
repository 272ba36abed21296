import ContentImport.Proofs.Markup.Content

/-!
How mixed content is read byte by byte. Within its brackets a piece of markup is passed without a
token, and its last bracket ends the token that it is; a run of text is a token unless it is white
space alone.
-/

set_option autoImplicit false
set_option relaxedAutoImplicit false

namespace ContentImport.Markup

namespace Token

/-- Reading bytes takes one mode to another and ends no token. -/
inductive Passes : Mode → Bytes → Mode → Prop
  | nil (mode : Mode) : Passes mode [] mode
  | cons {mode next last : Mode} {b : UInt8} {rest : Bytes} (first : step mode b = .ok (none, next))
      (later : Passes next rest last) : Passes mode (b :: rest) last

namespace Passes

theorem single {mode next : Mode} {b : UInt8} (first : step mode b = .ok (none, next)) :
    Passes mode [b] next :=
  .cons first (.nil next)

theorem append {mode middle last : Mode} {front rest : Bytes} (first : Passes mode front middle)
    (second : Passes middle rest last) : Passes mode (front ++ rest) last := by
  induction first with
  | nil => exact second
  | cons once _ ih => exact .cons once (ih second)

private theorem gather (mode : Bytes → Mode) {bytes : Bytes} (read : Bytes)
    (gathers : ∀ front b rest, bytes = front ++ b :: rest →
      step (mode (front.reverse ++ read)) b = .ok (none, mode (b :: (front.reverse ++ read)))) :
    Passes (mode read) bytes (mode (bytes.reverse ++ read)) := by
  induction bytes generalizing read with
  | nil => exact .nil _
  | cons b bytes ih =>
    have first := gathers [] b bytes rfl
    rw [List.reverse_cons, List.append_assoc]
    refine .cons first (ih (b :: read) ?_)
    intro front c rest split
    simpa using gathers (b :: front) c rest (congrArg (b :: ·) split)

private theorem enclosed (mode : Bytes → Option UInt8 → Mode)
    (gathers : ∀ read quote b, ¬ (b = byte '>' ∧ quote = none) →
      step (mode read quote) b = .ok (none, mode (b :: read) (nextQuote quote b)))
    {bytes : Bytes} (read : Bytes) {quote : Option UInt8}
    (enclosed : isEnclosed quote bytes = true) :
    Passes (mode read quote) bytes (mode (bytes.reverse ++ read) none) := by
  induction bytes generalizing read quote with
  | nil =>
    obtain rfl := Option.isNone_iff_eq_none.mp enclosed
    exact .nil _
  | cons b bytes ih =>
    simp only [isEnclosed, Bool.and_eq_true, Bool.or_eq_true, decide_eq_true_eq] at enclosed
    have stays : ¬ (b = byte '>' ∧ quote = none) := by
      rintro ⟨rfl, rfl⟩
      simp at enclosed
    have later := ih (b :: read) enclosed.2
    rw [List.reverse_cons, List.append_assoc]
    exact .cons (gathers read quote b stays) later

private theorem startTag {bytes : Bytes} (read : Bytes) {quote : Option UInt8}
    (enclosed : isEnclosed quote bytes = true) :
    Passes (.startTag read quote) bytes (.startTag (bytes.reverse ++ read) none) :=
  .enclosed .startTag (fun _ _ _ stays => if_neg stays) read enclosed

private theorem endTag {bytes : Bytes} (read : Bytes) {quote : Option UInt8}
    (enclosed : isEnclosed quote bytes = true) :
    Passes (.endTag read quote) bytes (.endTag (bytes.reverse ++ read) none) :=
  .enclosed .endTag (fun _ _ _ stays => if_neg stays) read enclosed

private theorem tag {tag : Bytes} (formed : IsTag tag) :
    Passes .opened tag (.startTag tag.reverse none) := by
  obtain ⟨first, begins, -, ordinary⟩ := formed.named
  obtain ⟨rest, rfl⟩ := List.head?_eq_some_iff.mp begins
  have begins : step .opened first = .ok (none, .startTag [first] (nextQuote none first)) := by
    have others : first ≠ byte '!' ∧ first ≠ byte '/' ∧ first ≠ byte '?' ∧ first ≠ byte '>' := by
      simpa [ascii] using ordinary
    obtain ⟨bang, slash, mark, close⟩ := others
    rw [step, if_neg bang, if_neg slash, if_neg mark, if_neg close]
  have enclosed := formed.enclosed
  simp only [isEnclosed, Bool.and_eq_true] at enclosed
  rw [List.reverse_cons]
  exact .cons begins (.startTag [first] enclosed.2)

private theorem text {bytes : Bytes} (read : Bytes) (plain : byte '<' ∉ bytes) :
    Passes (.text read) bytes (.text (bytes.reverse ++ read)) := by
  refine gather .text read ?_
  rintro front b rest rfl
  have ordinary : b ≠ byte '<' := by
    rintro rfl
    exact plain (List.mem_append_right _ List.mem_cons_self)
  exact if_neg ordinary

private theorem blanks {bytes : Bytes} (blank : ∀ b ∈ bytes, isBlank b = true) :
    Passes .between bytes .between := by
  induction bytes with
  | nil => exact .nil _
  | cons b bytes ih =>
    obtain ⟨first, rest⟩ := List.forall_mem_cons.mp blank
    exact .cons (if_pos first) (ih rest)

end Passes

end Token

private theorem isEnclosed_of_plain {bytes : Bytes} (plain : ∀ b ∈ bytes, b ∉ ascii ">\"'") :
    isEnclosed none bytes = true := by
  induction bytes with
  | nil => rfl
  | cons b bytes ih =>
    obtain ⟨first, rest⟩ := List.forall_mem_cons.mp plain
    have others : b ≠ byte '>' ∧ b ≠ byte '"' ∧ b ≠ byte '\'' := by
      simpa [ascii] using first
    have unquoted : Token.nextQuote none b = none :=
      if_neg (not_or.mpr others.2)
    simp [isEnclosed, unquoted, ih rest, others.1]

/-! ## Pieces -/

private theorem infix_behind {p : UInt8} {ps front bytes : Bytes} (outside : p ∉ front)
    (found : p :: ps <:+: front ++ bytes) : p :: ps <:+: bytes := by
  induction front with
  | nil => exact found
  | cons b front ih =>
    obtain ⟨differ, others⟩ := not_or.mp (mt List.mem_cons.mpr outside)
    rcases List.infix_cons_iff.mp found with ⟨rest, here⟩ | later
    · exact absurd (List.cons.inj here).1 differ
    · exact ih others later

private theorem infix_before {p : UInt8} {ps bytes rest : Bytes} (outside : p ∉ rest)
    (found : ps ++ [p] <:+: bytes ++ rest) : ps ++ [p] <:+: bytes := by
  have turned : p :: ps.reverse <:+: rest.reverse ++ bytes.reverse := by
    simpa using List.reverse_infix.mpr found
  have inside := infix_behind (mt List.mem_reverse.mp outside) turned
  simpa using List.reverse_infix.mpr inside

namespace Token

@[simp] theorem after?_append (s : String) (rest : Bytes) :
    after? s (ascii s ++ rest) = some rest := by
  have front : (ascii s).isPrefixOf (ascii s ++ rest) = true :=
    List.isPrefixOf_iff_prefix.mpr (List.prefix_append _ _)
  rw [after?, if_pos front, List.drop_left]

private theorem endsWith_iff {read : Bytes} {s : String} :
    endsWith read s = true ↔ ascii s <:+ read.reverse := by
  rw [endsWith, List.isPrefixOf_iff_prefix, ← List.reverse_suffix, List.reverse_reverse]

private theorem gathers_section (opening : Bytes) {delimiter content front rest : Bytes}
    (inside : ¬ delimiter ++ [byte '>'] <:+: content) (outside : byte '>' ∉ delimiter)
    (split : content ++ delimiter = front ++ byte '>' :: rest)
    (ends : delimiter <:+ opening ++ front) : front.length < delimiter.length := by
  by_contra long
  have within : delimiter <:+ front :=
    List.suffix_of_suffix_length_le ends (List.suffix_append _ _) (Nat.not_lt.mp long)
  obtain ⟨before, rfl⟩ := within
  refine inside (infix_before outside ?_)
  rw [split]
  exact ⟨before, rest, by simp⟩

namespace Passes

private theorem characterData {content : Bytes} (inside : ¬ ascii "]]>" <:+: content) :
    Passes .opened (ascii "![CDATA[" ++ content ++ ascii "]]")
      (.characterData (ascii "[CDATA[" ++ content ++ ascii "]]").reverse) := by
  have keyword : Passes (.characterData [byte '[']) (ascii "CDATA[")
      (.characterData ((ascii "CDATA[").reverse ++ [byte '['])) := by
    refine gather .characterData _ ?_
    intro front b rest split
    have ordinary : b ≠ byte '>' := by
      have member : b ∈ ascii "CDATA[" := split ▸ List.mem_append_right _ List.mem_cons_self
      rintro rfl
      exact absurd member (by decide)
    exact if_neg fun ends => ordinary ends.1
  have opening : Passes .opened (ascii "![CDATA[") (.characterData (ascii "[CDATA[").reverse) :=
    .cons rfl (.cons rfl keyword)
  rw [List.append_assoc, List.append_assoc, List.reverse_append]
  refine opening.append (gather .characterData _ ?_)
  intro front b rest split
  refine if_neg ?_
  rintro ⟨rfl, ends⟩
  have near : front.length < 2 := by
    refine gathers_section (ascii "[CDATA[") inside (by decide) split ?_
    simpa using endsWith_iff.mp ends
  match front, near with
  | [], _ => exact absurd ends (by decide)
  | [x], _ => simp [endsWith, ascii, byte] at ends

private theorem comment {content : Bytes} (inside : ¬ ascii "-->" <:+: content) :
    Passes .opened (ascii "!--" ++ content ++ ascii "--")
      (.comment (ascii "--" ++ content ++ ascii "--").reverse) := by
  have opening : Passes .opened (ascii "!--") (.comment (ascii "--").reverse) :=
    .cons rfl (.cons rfl (.single rfl))
  rw [List.append_assoc, List.append_assoc, List.reverse_append]
  refine opening.append (gather .comment _ ?_)
  intro front b rest split
  refine if_neg ?_
  rintro ⟨rfl, ends, long⟩
  have near : front.length < 2 := by
    refine gathers_section (ascii "--") inside (by decide) split ?_
    simpa using endsWith_iff.mp ends
  have far : 2 ≤ front.length := by
    simpa [ascii] using long
  exact Nat.not_lt.mpr far near

private theorem instruction {content : Bytes} (begins : content.head? ≠ some (byte '>'))
    (inside : ¬ ascii "?>" <:+: content) :
    Passes .opened (ascii "?" ++ content ++ ascii "?")
      (.instruction (content ++ ascii "?").reverse) := by
  have opening : Passes .opened (ascii "?") (.instruction []) := .single rfl
  rw [List.append_assoc, ← List.append_nil (content ++ ascii "?").reverse]
  refine opening.append (gather .instruction [] ?_)
  intro front b rest split
  by_cases close : b = byte '>'
  · subst close
    rcases List.eq_nil_or_concat' front with rfl | ⟨front, last, rfl⟩
    · cases content with
      | nil => exact absurd (List.cons.inj split).1 (by decide)
      | cons first content => exact absurd (congrArg some (List.cons.inj split).1) begins
    · have differ : last ≠ byte '?' := by
        rintro rfl
        have across : [byte '?'] ++ [byte '>'] <:+: content ++ ascii "?" :=
          ⟨front, rest, by rw [split]; simp⟩
        exact inside (infix_before (by decide) across)
      simp [step, differ]
  · exact if_neg close

end Passes

end Token

private theorem plain_of_blank {b : UInt8} (blank : isBlank b = true) : b ∉ ascii ">\"'" := by
  intro member
  simp only [isBlank, Bool.or_eq_true, decide_eq_true_eq] at blank
  rcases blank with ((rfl | rfl) | rfl) | rfl <;> exact absurd member (by decide)

private theorem take_append_end (content delimiter : Bytes) :
    (content ++ delimiter).take ((content ++ delimiter).length - delimiter.length) = content := by
  rw [List.length_append, Nat.add_sub_cancel, List.take_left]

theorem Piece.passes {p : Piece} (formed : p.WellFormed) :
    ∃ mode, Token.Passes .opened p.inner mode ∧
      Token.step mode (byte '>') = .ok (some p.token, .between) := by
  cases p with
  | opened tag =>
    refine ⟨.startTag tag.reverse none, .tag formed.1, ?_⟩
    rw [Token.step, if_pos ⟨rfl, rfl⟩, List.reverse_reverse, token]
  | whole tag =>
    have slash : Token.Passes (.startTag tag.reverse none) (ascii "/")
        (.startTag (byte '/' :: tag.reverse) none) := .single rfl
    refine ⟨_, (Token.Passes.tag formed).append slash, ?_⟩
    rw [Token.step, if_pos ⟨rfl, rfl⟩, List.reverse_cons, List.reverse_reverse, token]
    rfl
  | closed name blanks =>
    obtain ⟨⟨-, plain⟩, blank⟩ := formed
    have enclosed : isEnclosed none (name ++ blanks) = true := by
      refine isEnclosed_of_plain ?_
      intro b member
      rcases List.mem_append.mp member with inName | behind
      · exact (plain b inName).2
      · exact plain_of_blank (blank b behind)
    have slash : Token.Passes .opened (ascii "/") (.endTag [] none) := .single rfl
    have passed := slash.append (.endTag [] enclosed)
    rw [List.append_nil, ← List.append_assoc] at passed
    refine ⟨_, passed, ?_⟩
    rw [Token.step, if_pos ⟨rfl, rfl⟩, List.reverse_reverse, token]
  | characterData content =>
    refine ⟨_, .characterData formed, ?_⟩
    have ends : Token.endsWith (ascii "[CDATA[" ++ content ++ ascii "]]").reverse "]]" = true := by
      rw [Token.endsWith_iff, List.reverse_reverse]
      exact List.suffix_append _ _
    have cut : (content ++ ascii "]]").take ((content ++ ascii "]]").length - 2) = content :=
      take_append_end content (ascii "]]")
    rw [Token.step, if_pos ⟨rfl, ends⟩, List.reverse_reverse, Token.characterData?,
      List.append_assoc, Token.after?_append]
    simp only [cut, token]
    rfl
  | comment content =>
    refine ⟨_, .comment formed, ?_⟩
    have ends : Token.endsWith (ascii "--" ++ content ++ ascii "--").reverse "--" = true := by
      rw [Token.endsWith_iff, List.reverse_reverse]
      exact List.suffix_append _ _
    have long : 4 ≤ (ascii "--" ++ content ++ ascii "--").reverse.length := by
      simp [ascii]
    have cut : (content ++ ascii "--").take ((content ++ ascii "--").length - 2) = content :=
      take_append_end content (ascii "--")
    rw [Token.step, if_pos ⟨rfl, ends, long⟩, List.reverse_reverse, Token.comment?,
      List.append_assoc, Token.after?_append]
    simp only [cut, token]
    rfl
  | instruction content =>
    refine ⟨.instruction (byte '?' :: content.reverse), ?_, ?_⟩
    · have passed := Token.Passes.instruction formed.1 formed.2
      rwa [List.reverse_append] at passed
    · rw [Token.step, if_pos rfl, if_pos rfl, List.reverse_reverse, token]

/-! ## Runs of text -/

theorem Token.run_passes {run : Bytes} (plain : byte '<' ∉ run) :
    ∃ mode, Token.Passes .between run mode ∧ Token.step mode (byte '<') =
      .ok (if trimRun run = [] then none else some (.text (trimRun run)), .opened) := by
  have parts := List.takeWhile_append_dropWhile (p := isBlank) (l := run)
  have passed := Token.Passes.blanks fun b (member : b ∈ run.takeWhile isBlank) =>
    List.mem_takeWhile_imp member
  cases ink : run.dropWhile isBlank with
  | nil =>
    rw [ink, List.append_nil] at parts
    refine ⟨.between, parts ▸ passed, ?_⟩
    rw [trimRun_eq, ink]
    rfl
  | cons b rest =>
    have visible : isBlank b = false := by
      have front := List.head?_dropWhile_not isBlank run
      rw [ink] at front
      simpa using front
    have text : byte '<' ∉ b :: rest := fun member =>
      plain (parts ▸ List.mem_append_right _ (ink ▸ member))
    have differ : b ≠ byte '<' := fun same => text (same ▸ List.mem_cons_self)
    have begins : Token.step .between b = .ok (none, .text [b]) := by
      simp [Token.step, visible, differ]
    have left : trimRun run ≠ [] := by
      rw [trimRun_eq, ink, ne_eq, List.rdropWhile_eq_nil_iff]
      intro blank
      exact absurd (blank b List.mem_cons_self) (by simp [visible])
    refine ⟨.text (rest.reverse ++ [b]), ?_, ?_⟩
    · rw [← parts, ink]
      have gathered := Token.Passes.text [b] fun member => text (List.mem_cons_of_mem _ member)
      exact passed.append (.cons begins gathered)
    · rw [if_neg left, trimRun, ink, List.reverse_cons]
      rfl

end ContentImport.Markup

import ContentImport.Calendar
import Mathlib.Algebra.Group.Nat.Defs
import Mathlib.Data.List.Infix
import Mathlib.Data.List.TakeWhile
import Std.Data.String.ToNat

/-!
Dates and their texts. A number in decimal digits is read as itself, with zeros in front of it or
without, and a date that is written is read as itself.
-/

set_option autoImplicit false
set_option relaxedAutoImplicit false

namespace ContentImport

namespace Text

private theorem digitsValue_eq_ofDigitChars {ds : List Char} (digits : ∀ c ∈ ds, c.isDigit = true) :
    digitsValue 10 ds = Nat.ofDigitChars 10 ds 0 := by
  have all (n : Nat) :
      ds.foldl (fun n d => n * 10 + digitValue d) n = Nat.ofDigitChars 10 ds n := by
    induction ds generalizing n with
    | nil => rfl
    | cons d ds ih =>
      obtain ⟨first, others⟩ := List.forall_mem_cons.mp digits
      rw [List.foldl_cons, ih others, Nat.ofDigitChars_cons, Nat.mul_comm, digitValue, if_pos first]
  exact all 0

private theorem isSpace_of_isDigit {c : Char} (digit : c.isDigit = true) : isSpace c = false := by
  have range : 48 ≤ c.toNat ∧ c.toNat ≤ 57 := by
    simpa [Char.isDigit, UInt32.le_iff_toNat_le] using digit
  simp only [isSpace, Bool.or_eq_false_iff, Bool.and_eq_false_iff, decide_eq_false_iff_not]
  omega

private theorem trimBy_eq_self {drop : Char → Bool} {s : List Char}
    (first : ∀ c ∈ s.head?, drop c = false)
    (last : ∀ c ∈ s.getLast?, drop c = false) : trimBy drop s = s := by
  have front : trimStartBy drop s = s := by
    cases s with
    | nil => rfl
    | cons c s => exact List.dropWhile_cons_of_neg (by simp [first c rfl])
  rw [trimBy, front]
  rcases List.eq_nil_or_concat' s with rfl | ⟨before, c, rfl⟩
  · rfl
  · exact trimEndBy_append_kept drop before c (last c List.getLast?_concat)

end Text

namespace Date

/-! ## Numbers -/

private theorem isDigit_of_mem_padded {width n : Nat} {c : Char} (member : c ∈ padded width n) :
    c.isDigit = true := by
  rcases List.mem_append.mp member with zero | digit
  · rw [List.eq_of_mem_replicate zero]
    rfl
  · exact Nat.isDigit_of_mem_toDigits (by decide) (by decide) digit

private theorem digitsValue_padded (width n : Nat) : Text.digitsValue 10 (padded width n) = n := by
  rw [Text.digitsValue_eq_ofDigitChars fun _ => isDigit_of_mem_padded, padded,
    Nat.ofDigitChars_append, Nat.ofDigitChars_replicate_zero, Nat.mul_zero,
    Nat.ofDigitChars_ten_toDigits]

private theorem length_padded (width n : Nat) :
    (padded width n).length = max width (Nat.toDigits 10 n).length := by
  simp only [padded, List.length_append, List.length_replicate]
  omega

private theorem length_padded_of_lt {width n : Nat} (positive : 0 < width) (fits : n < 10 ^ width) :
    (padded width n).length = width := by
  rw [length_padded, max_eq_left ((Nat.length_toDigits_le_iff (by decide) positive).mpr fits)]

private theorem exists_padded_eq_cons (width n : Nat) :
    ∃ c ds, padded width n = c :: ds ∧ c.isDigit = true := by
  cases written : padded width n with
  | nil => exact absurd (List.append_eq_nil_iff.mp written).2 Nat.toDigits_ne_nil
  | cons c ds => exact ⟨c, ds, rfl, isDigit_of_mem_padded (written ▸ List.mem_cons_self)⟩

private theorem readNumber?_padded {least most width n : Nat} {rest : List Char}
    (enough : least ≤ (padded width n).length) (fits : (padded width n).length ≤ most)
    (ends : ∀ c ∈ rest.head?, c.isDigit = false) :
    readNumber? least most (padded width n ++ rest) = some (n, rest) := by
  have digits : (padded width n ++ rest).takeWhile Char.isDigit = padded width n := by
    rw [List.takeWhile_append_of_pos fun c => isDigit_of_mem_padded]
    cases rest with
    | nil => simp
    | cons c rest => simp [ends c rfl]
  rw [readNumber?, digits, List.take_of_length_le fits, if_pos enough, List.drop_left,
    digitsValue_padded]

private theorem skipSpace_padded (width n : Nat) (rest : List Char) :
    skipSpace (padded width n ++ rest) = padded width n ++ rest := by
  obtain ⟨c, ds, written, digit⟩ := exists_padded_eq_cons width n
  have ink : Text.isSpace c = false := Text.isSpace_of_isDigit digit
  rw [written, List.cons_append, skipSpace, Text.trimStartBy,
    List.dropWhile_cons_of_neg (by simp [ink])]

private theorem readNumber?_two {least n : Nat} {rest : List Char} (enough : least ≤ 2)
    (fits : n < 100)
    (ends : ∀ c ∈ rest.head?, c.isDigit = false) :
    readNumber? least 2 (padded 2 n ++ rest) = some (n, rest) := by
  have length : (padded 2 n).length = 2 := length_padded_of_lt (by decide) fits
  exact readNumber?_padded (by rwa [length]) length.le ends

/-! ## Days -/

private theorem ofNumbers?_eq_some {year : Int} {month day : Nat} {d : Date}
    (made : ofNumbers? year month day = some d) : ofNumbers? d.year d.month d.day = some d := by
  rw [ofNumbers?] at made
  split at made
  · next within =>
    obtain rfl := Option.some.inj made
    exact if_pos within
  · cases made

private theorem ofNumbers?_of_readDay? {s rest : List Char} {d : Date}
    (read : readDay? s = some (d, rest)) : ofNumbers? d.year d.month d.day = some d := by
  simp only [readDay?, Option.bind_eq_bind, Option.bind_eq_some_iff] at read
  obtain ⟨_, _, _, _, _, _, _, _, _, _, date, made, same⟩ := read
  obtain ⟨rfl, -⟩ := Prod.mk.inj (Option.some.inj same)
  exact ofNumbers?_eq_some made

theorem ofNumbers?_of_ofText? {s : List Char} {d : Date} (read : ofText? s = some d) :
    ofNumbers? d.year d.month d.day = some d := by
  rw [ofText?, Option.or_eq_some_iff, Option.or_eq_some_iff] at read
  rcases read with stamp | ⟨-, time | ⟨-, day⟩⟩
  · simp only [ofTimeStamp?, Option.bind_eq_bind, Option.bind_eq_some_iff] at stamp
    obtain ⟨_, _, _, _, _, _, _, _, _, _, _, _, _, _, _, _, made⟩ := stamp
    split at made
    · exact ofNumbers?_eq_some made
    · cases made
  · simp only [ofLocalTime?, Option.bind_eq_bind, Option.bind_eq_some_iff] at time
    obtain ⟨⟨_, _⟩, day, _, _, _, _, made⟩ := time
    split at made
    · obtain rfl := Option.some.inj made
      exact ofNumbers?_of_readDay? day
    · cases made
  · simp only [ofDay?, Option.bind_eq_bind, Option.bind_eq_some_iff] at day
    obtain ⟨⟨_, _⟩, day, made⟩ := day
    split at made
    · obtain rfl := Option.some.inj made
      exact ofNumbers?_of_readDay? day
    · cases made

private theorem mem_toText {d : Date} {c : Char} (member : c ∈ d.toText) :
    c.isDigit = true ∨ c = '-' ∨ c = '+' := by
  rw [toText, List.mem_append, List.mem_append, List.mem_append, List.mem_cons,
    List.mem_cons] at member
  rcases member with ((sign | digit) | rfl | digit) | rfl | digit
  · split at sign
    · exact .inr (.inl (List.mem_singleton.mp sign))
    · split at sign
      · cases sign
      · exact .inr (.inr (List.mem_singleton.mp sign))
  · exact .inl (isDigit_of_mem_padded digit)
  · exact .inr (.inl rfl)
  · exact .inl (isDigit_of_mem_padded digit)
  · exact .inr (.inl rfl)
  · exact .inl (isDigit_of_mem_padded digit)

theorem trimBy_toText (d : Date) : Text.trimBy Text.isSpace d.toText = d.toText := by
  have ink : ∀ c ∈ d.toText, Text.isSpace c = false := by
    intro c member
    rcases mem_toText member with digit | rfl | rfl
    · exact Text.isSpace_of_isDigit digit
    · rfl
    · rfl
  exact Text.trimBy_eq_self (fun c first => ink c (List.mem_of_mem_head? first))
    fun c last => ink c (List.mem_of_getLast? last)

/-! ## Reading what is written -/

private theorem readYear?_written (year : Int) {rest : List Char}
    (ends : ∀ c ∈ rest.head?, c.isDigit = false) :
    readYear? ((if year < 0 then ['-'] else if year ≤ 9999 then [] else ['+']) ++
      padded 4 year.natAbs ++ rest) = some (year, rest) := by
  have enough : 1 ≤ (padded 4 year.natAbs).length := by
    rw [length_padded]
    omega
  have number : readNumber? 1 (padded 4 year.natAbs ++ rest).length (padded 4 year.natAbs ++ rest) =
      some (year.natAbs, rest) :=
    readNumber?_padded enough (by simp) ends
  rw [List.append_assoc]
  split
  · next before =>
    have signed : readYear? ('-' :: (padded 4 year.natAbs ++ rest)) =
        some (-(year.natAbs : Int), rest) := congrArg (Option.map _) number
    rw [List.singleton_append, signed, Int.ofNat_natAbs_of_nonpos (by omega), Int.neg_neg]
  · split
    · next after near =>
      have four : (padded 4 year.natAbs).length = 4 :=
        length_padded_of_lt (by decide) (by omega)
      have number : readNumber? 1 4 (padded 4 year.natAbs ++ rest) = some (year.natAbs, rest) :=
        readNumber?_padded enough four.le ends
      obtain ⟨c, ds, written, digit⟩ := exists_padded_eq_cons 4 year.natAbs
      have minus : c ≠ '-' := by
        rintro rfl
        cases digit
      have plus : c ≠ '+' := by
        rintro rfl
        cases digit
      have skipped := skipSpace_padded 4 year.natAbs rest
      rw [List.nil_append, readYear?, skipped]
      rw [written, List.cons_append] at number ⊢
      split
      · next same => exact absurd (List.cons.inj same).1 minus
      · next same => exact absurd (List.cons.inj same).1 plus
      · have value : (year.natAbs : Int) = year := Int.natAbs_of_nonneg (by omega)
        simp only [number, Option.map_some, value]
    · next after far =>
      have signed : readYear? ('+' :: (padded 4 year.natAbs ++ rest)) =
          some ((year.natAbs : Int), rest) := congrArg (Option.map _) number
      rw [List.singleton_append, signed, Int.natAbs_of_nonneg (by omega)]

private theorem readDay?_toText {d : Date} (made : ofNumbers? d.year d.month d.day = some d) :
    readDay? d.toText = some (d, []) := by
  have within : d.month < 100 ∧ d.day < 100 := by
    rw [ofNumbers?] at made
    split at made
    · next within =>
      have days : daysOf d.year d.month ≤ 31 := by
        unfold daysOf
        split_ifs <;> decide
      omega
    · cases made
  have year : readYear? d.toText =
      some (d.year, '-' :: (padded 2 d.month ++ '-' :: padded 2 d.day)) := by
    rw [toText, List.append_assoc]
    refine readYear?_written d.year ?_
    rintro c ⟨⟩
    rfl
  have month : readNumber? 1 2 (skipSpace (padded 2 d.month ++ '-' :: padded 2 d.day)) =
      some (d.month, '-' :: padded 2 d.day) := by
    rw [skipSpace_padded]
    refine readNumber?_two (by decide) within.1 ?_
    rintro c ⟨⟩
    rfl
  have day : readNumber? 1 2 (skipSpace (padded 2 d.day)) = some (d.day, []) := by
    have skipped := skipSpace_padded 2 d.day []
    have read : readNumber? 1 2 (padded 2 d.day ++ []) = some (d.day, []) :=
      readNumber?_two (by decide) within.2 nofun
    rw [List.append_nil] at skipped read
    rw [skipped, read]
  simp [readDay?, year, readOneOf?, month, day, made]

private theorem suffix_of_readNumber? {least most n : Nat} {s rest : List Char}
    (read : readNumber? least most s = some (n, rest)) : rest <:+ s := by
  rw [readNumber?] at read
  split at read
  · obtain ⟨-, rfl⟩ := Prod.mk.inj (Option.some.inj read)
    exact List.drop_suffix _ s
  · cases read

private theorem eq_cons_of_readOneOf? {choices s rest : List Char}
    (read : readOneOf? choices s = some rest) : ∃ c ∈ choices, s = c :: rest := by
  cases s with
  | nil => cases read
  | cons c s =>
    rw [readOneOf?] at read
    split at read
    · next chosen => exact ⟨c, chosen, congrArg (c :: ·) (Option.some.inj read)⟩
    · cases read

private theorem exists_mark_of_ofTimeStamp? {s : List Char} {d : Date}
    (read : ofTimeStamp? s = some d) :
    ∃ c ∈ s, c ∈ ['T', 't', ' '] := by
  simp only [ofTimeStamp?, Option.bind_eq_bind, Option.bind_eq_some_iff] at read
  obtain ⟨_, year, _, first, _, month, _, second, _, day, _, mark, -⟩ := read
  obtain ⟨_, _, behindYear⟩ := eq_cons_of_readOneOf? first
  obtain ⟨_, _, behindMonth⟩ := eq_cons_of_readOneOf? second
  obtain ⟨c, chosen, behindDay⟩ := eq_cons_of_readOneOf? mark
  have fromDay := suffix_of_readNumber? day
  have fromMonth := (List.suffix_cons _ _).trans (behindMonth ▸ suffix_of_readNumber? month)
  have fromYear := (List.suffix_cons _ _).trans (behindYear ▸ suffix_of_readNumber? year)
  have whole := (fromDay.trans fromMonth).trans fromYear
  rw [behindDay] at whole
  exact ⟨c, whole.subset List.mem_cons_self, chosen⟩

theorem ofText?_toText {d : Date} (made : ofNumbers? d.year d.month d.day = some d) :
    ofText? d.toText = some d := by
  have stamp : ofTimeStamp? d.toText = none := by
    rw [Option.eq_none_iff_forall_ne_some]
    intro other read
    obtain ⟨c, member, mark⟩ := exists_mark_of_ofTimeStamp? read
    rcases mem_toText member with digit | rfl | rfl
    · simp only [List.mem_cons, List.not_mem_nil, or_false] at mark
      rcases mark with rfl | rfl | rfl <;> cases digit
    · simp at mark
    · simp at mark
  have day := readDay?_toText made
  have time : ofLocalTime? d.toText = none := by
    simp [ofLocalTime?, day, readOneOf?]
  rw [ofText?, stamp, time, ofDay?, day]
  rfl

end Date

end ContentImport

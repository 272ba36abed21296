import ContentImport.Markup.Token
import ContentImport.Text.Blank
import Mathlib.Algebra.Group.Nat.Defs
import Mathlib.Data.List.Count
import Mathlib.Tactic.SplitIfs

/-!
White space in decoded bytes. A byte that is white space is decoded as itself wherever it stands,
and nothing else is decoded as white space, so a text has as much white space as its bytes.
-/

set_option autoImplicit false
set_option relaxedAutoImplicit false

namespace ContentImport.Text.Utf8

open ContentImport.Markup (isBlank)

/-- A character that was begun, is still owed bytes, and will not be one of a single byte. -/
structure Partial.Long (p : Partial) : Prop where
  owed : 1 ≤ p.owed
  low : 0x80 ≤ p.low
  large : 0x80 ≤ (p.bits * 64 + (p.low - 0x80)) * 64 ^ (p.owed - 1)

/-- What a first byte says of white space. -/
inductive Lead.Told (b : UInt8) : Lead → Prop
  | whole {c : Char} (same : isMarkupBlank c = isBlank b) : Told b (.whole c)
  | opened {p : Partial} (long : p.Long) (ink : isBlank b = false) : Told b (.opened p)
  | illFormed (ink : isBlank b = false) : Told b .illFormed

private theorem ink_of_large {b : UInt8} (large : 0x80 ≤ b.toNat) : isBlank b = false := by
  rw [Bool.eq_false_iff]
  intro blank
  simp only [isBlank, Bool.or_eq_true, decide_eq_true_eq] at blank
  rcases blank with ((rfl | rfl) | rfl) | rfl <;> exact absurd large (by decide)

private theorem blank_ofNat {n : Nat} (small : n ≤ 0x7F) {b : UInt8} (same : b.toNat = n) :
    isMarkupBlank (Char.ofNat n) = isBlank b := by
  have all : ∀ n ≤ 0x7F, isMarkupBlank (Char.ofNat n) = isBlank (UInt8.ofNat n) := by
    decide +kernel
  rw [all n small, ← same, UInt8.ofNat_toNat]

private theorem lead_told (b : UInt8) : (lead b).Told b := by
  have ink : ¬ b.toNat ≤ 0x7F → isBlank b = false := fun large => ink_of_large (by omega)
  unfold lead
  dsimp only
  split_ifs with small low two e0 ed three f0 four f4
  · exact .whole (blank_ofNat small rfl)
  all_goals first
    | exact .illFormed (ink small)
    | refine .opened ⟨?_, ?_, ?_⟩ (ink small) <;> dsimp only <;> omega

private theorem ink_ofNat {n : Nat} (large : 0x80 ≤ n) : isMarkupBlank (Char.ofNat n) = false := by
  rw [Bool.eq_false_iff]
  intro blank
  by_cases valid : n.isValidChar
  · have same : (Char.ofNat n).toNat = n := by
      rw [Char.ofNat, dif_pos valid]
      rfl
    simp only [isMarkupBlank, Bool.or_eq_true, decide_eq_true_eq] at blank
    rcases blank with ((eq | eq) | eq) | eq <;> rw [eq] at same <;> subst same <;>
      exact absurd large (by decide)
  · rw [Char.ofNat, dif_neg valid] at blank
    exact absurd blank (by decide)

/-- Whether a unit is shown as white space. -/
private def isBlankUnit (u : Option Char) : Bool :=
  isMarkupBlank (u.getD '\uFFFD')

private theorem unitsFrom_broken {p : Partial} {b : UInt8} (rest : List UInt8)
    (outside : ¬ (p.low ≤ b.toNat ∧ b.toNat ≤ p.high)) :
    unitsFrom (some p) (b :: rest) = none :: unitsFrom none (b :: rest) := by
  simp only [unitsFrom, if_neg outside]
  cases lead b <;> rfl

section

variable {p : Partial} {b : UInt8}

private theorem Partial.Long.grown (long : p.Long) (within : p.low ≤ b.toNat) :
    0x80 ≤ (p.bits * 64 + (b.toNat - 0x80)) * 64 ^ (p.owed - 1) := by
  have more : p.bits * 64 + (p.low - 0x80) ≤ p.bits * 64 + (b.toNat - 0x80) := by omega
  exact Nat.le_trans long.large (Nat.mul_le_mul_right _ more)

private theorem Partial.Long.ended (long : p.Long) (within : p.low ≤ b.toNat)
    (last : p.owed ≤ 1) : 0x80 ≤ p.bits * 64 + (b.toNat - 0x80) := by
  have grown := long.grown within
  have none : p.owed - 1 = 0 := Nat.sub_eq_zero_of_le last
  rwa [none, Nat.pow_zero, Nat.mul_one] at grown

private theorem Partial.Long.continued (long : p.Long) (within : p.low ≤ b.toNat)
    (more : ¬ p.owed ≤ 1) :
    Partial.Long ⟨p.bits * 64 + (b.toNat - 0x80), p.owed - 1, 0x80, 0xBF⟩ := by
  have grown := long.grown within
  obtain ⟨k, owed⟩ : ∃ k, p.owed = k + 2 := ⟨p.owed - 2, by omega⟩
  generalize p.bits * 64 + (b.toNat - 0x80) = bits at grown ⊢
  have before : k + 2 - 1 = k + 1 := rfl
  have after : k + 1 - 1 = k := rfl
  rw [owed, before, Nat.pow_succ, Nat.mul_comm (64 ^ k), ← Nat.mul_assoc] at grown
  rw [owed]
  refine ⟨Nat.le_add_left 1 k, Nat.le_refl _, ?_⟩
  rw [before, after, Nat.sub_self, Nat.add_zero]
  exact grown

end

private theorem countP_unitsFrom (bytes : List UInt8) {begun : Option Partial}
    (long : ∀ p ∈ begun, p.Long) :
    (unitsFrom begun bytes).countP isBlankUnit = bytes.countP isBlank := by
  have broken : isBlankUnit none = false := by decide
  -- Every byte of a character of several bytes is ink, and so is the character that they end with;
  -- what is left is a byte that begins a unit, alone or behind a broken character.
  induction bytes generalizing begun with
  | nil => cases begun <;> simp [unitsFrom, broken]
  | cons b rest ih =>
    have plain : (unitsFrom none rest).countP isBlankUnit = rest.countP isBlank := ih (by simp)
    have fresh : (unitsFrom none (b :: rest)).countP isBlankUnit = (b :: rest).countP isBlank := by
      have told := lead_told b
      rw [unitsFrom]
      generalize lead b = first at told
      cases told with
      | whole same => simp only [List.countP_cons, plain, isBlankUnit, Option.getD_some, same]
      | opened held ink =>
        rw [List.countP_cons_of_neg (by simp [ink])]
        exact ih (by simpa using held)
      | illFormed ink =>
        rw [List.countP_cons_of_neg (by simp [broken]), List.countP_cons_of_neg (by simp [ink])]
        exact plain
    cases begun with
    | none => exact fresh
    | some p =>
      by_cases within : p.low ≤ b.toNat ∧ b.toNat ≤ p.high
      · have held := long p rfl
        have ink : isBlank b = false := ink_of_large (Nat.le_trans held.low within.1)
        rw [List.countP_cons_of_neg (by simp [ink])]
        simp only [unitsFrom, if_pos within]
        split
        · next last =>
          have whole := ink_ofNat (held.ended within.1 last)
          rw [List.countP_cons_of_neg (by simp [isBlankUnit, whole])]
          exact plain
        · next more =>
          refine ih ?_
          intro q begins
          obtain rfl := Option.some.inj begins
          exact held.continued within.1 more
      · rw [unitsFrom_broken rest within, List.countP_cons_of_neg (by simp [broken]), fresh]

private theorem countP_decodeLenient (bytes : List UInt8) :
    (decodeLenient bytes).countP isMarkupBlank = bytes.countP isBlank := by
  rw [decodeLenient, List.countP_map]
  exact countP_unitsFrom bytes (by simp)

/-- Bytes without some of their white space are decoded to another text. -/
theorem decodeLenient_inj_of_sublist {kept bytes : List UInt8} (sub : kept.Sublist bytes)
    (ink : kept.countP (!isBlank ·) = bytes.countP (!isBlank ·)) :
    decodeLenient kept = decodeLenient bytes ↔ kept = bytes := by
  refine ⟨fun same => ?_, fun same => same ▸ rfl⟩
  have blanks : kept.countP isBlank = bytes.countP isBlank := by
    rw [← countP_decodeLenient, same, countP_decodeLenient]
  refine sub.eq_of_length ?_
  rw [List.length_eq_countP_add_countP isBlank,
    List.length_eq_countP_add_countP (l := bytes) isBlank]
  simp only [blanks, decide_not, Bool.decide_eq_true] at ink ⊢
  rw [ink]

/-! ## White space around bytes -/

def single (bytes : List UInt8) : List Char :=
  bytes.map fun b => Char.ofNat b.toNat

private theorem small_of_blank {b : UInt8} (blank : isBlank b = true) : b.toNat ≤ 0x7F := by
  by_contra large
  have ink : isBlank b = false := ink_of_large (by omega)
  rw [blank] at ink
  cases ink

theorem isMarkupBlank_of_mem_single {blanks : List UInt8} (blank : ∀ b ∈ blanks, isBlank b = true)
    {c : Char} (member : c ∈ single blanks) : isMarkupBlank c = true := by
  obtain ⟨b, inside, rfl⟩ := List.mem_map.mp member
  rw [blank_ofNat (small_of_blank (blank b inside)) rfl, blank b inside]

private theorem units_blanks_append {blanks : List UInt8} (blank : ∀ b ∈ blanks, isBlank b = true)
    (rest : List UInt8) : units (blanks ++ rest) = (single blanks).map some ++ units rest := by
  induction blanks with
  | nil => rfl
  | cons b blanks ih =>
    obtain ⟨first, others⟩ := List.forall_mem_cons.mp blank
    have alone : lead b = .whole (Char.ofNat b.toNat) := if_pos (small_of_blank first)
    have later := ih others
    rw [units] at later ⊢
    rw [List.cons_append, unitsFrom, alone]
    exact congrArg (some _ :: ·) later

private theorem unitsFrom_append_blanks {blanks : List UInt8}
    (blank : ∀ b ∈ blanks, isBlank b = true) (bytes : List UInt8) {begun : Option Partial}
    (long : ∀ p ∈ begun, p.Long) :
    unitsFrom begun (bytes ++ blanks) = unitsFrom begun bytes ++ units blanks := by
  induction bytes generalizing begun with
  | nil =>
    cases begun with
    | none => rfl
    | some p =>
      cases blanks with
      | nil => rfl
      | cons b blanks =>
        have small := small_of_blank (blank b List.mem_cons_self)
        have low := (long p rfl).low
        exact unitsFrom_broken blanks (by omega)
  | cons b bytes ih =>
    have plain : unitsFrom none (bytes ++ blanks) = unitsFrom none bytes ++ units blanks :=
      ih (by simp)
    have fresh : unitsFrom none (b :: bytes ++ blanks) =
        unitsFrom none (b :: bytes) ++ units blanks := by
      have told := lead_told b
      rw [List.cons_append, unitsFrom, unitsFrom]
      generalize lead b = first at told
      cases told with
      | whole | illFormed => exact congrArg (_ :: ·) plain
      | opened held => exact ih (by simpa using held)
    cases begun with
    | none => exact fresh
    | some p =>
      by_cases within : p.low ≤ b.toNat ∧ b.toNat ≤ p.high
      · simp only [List.cons_append, unitsFrom, if_pos within]
        split
        · rw [plain, List.cons_append]
        · next more =>
          refine ih ?_
          intro q begins
          obtain rfl := Option.some.inj begins
          exact (long p rfl).continued within.1 more
      · rw [List.cons_append, unitsFrom_broken _ within, unitsFrom_broken _ within]
        exact congrArg (none :: ·) fresh

theorem decode?_blanks_around {front back : List UInt8} (blankFront : ∀ b ∈ front, isBlank b = true)
    (blankBack : ∀ b ∈ back, isBlank b = true) (bytes : List UInt8) :
    decode? (front ++ (bytes ++ back)) =
      (decode? bytes).map fun text => single front ++ (text ++ single back) := by
  have last : units back = (single back).map some := by
    have alone := units_blanks_append blankBack []
    rw [List.append_nil] at alone
    rw [alone, units, unitsFrom, List.append_nil]
  have inner : units (bytes ++ back) = units bytes ++ units back :=
    unitsFrom_append_blanks blankBack bytes (by simp)
  have whole (text : List Char) : (text.map some).mapM id = some text := by
    induction text with
    | nil => rfl
    | cons c text ih => simp [ih]
  rw [decode?, units_blanks_append blankFront, inner, last, List.mapM_append, List.mapM_append,
    whole, whole, decode?]
  cases (units bytes).mapM id <;> rfl

end ContentImport.Text.Utf8

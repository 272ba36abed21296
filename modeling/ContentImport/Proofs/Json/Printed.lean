import ContentImport.Json.Printer
import ContentImport.Json.Written
import Mathlib.Tactic.SplitIfs

/-!
Printed values are read back. A value without numbers is printed as the tokens of its tree, in
whatever layout, and these are read as that tree.
-/

set_option autoImplicit false
set_option relaxedAutoImplicit false

namespace ContentImport.Json

/-! ## Strings -/

/-- The unit that a character is read as when it was printed within quotation marks. -/
def StringUnit.ofChar (c : Char) : StringUnit :=
  if c.toNat < 0x20 ∧ c ∉ ['\n', '\r', '\t', '\x08', '\x0c'] then .escaped c.toNat else .plain c

private theorem StringUnit.joined?_escaped {n : Nat} (low : n < 0xD800) (rest : List StringUnit) :
    StringUnit.joined? (.escaped n :: rest) =
      (StringUnit.joined? rest).map (Char.ofNat n :: ·) := by
  have high : ¬ (0xD800 ≤ n ∧ n ≤ 0xDBFF) := by omega
  have second : ¬ (0xDC00 ≤ n ∧ n ≤ 0xDFFF) := by omega
  have half : ¬ (0xD800 ≤ n ∧ n ≤ 0xDFFF) := by omega
  match rest with
  | [] => simp [joined?, half]
  | .plain c :: rest => simp [joined?, half]
  | .escaped m :: rest => rw [joined?, if_neg high, if_neg second]

theorem StringUnit.joined?_map_ofChar (cs : List Char) :
    StringUnit.joined? (cs.map StringUnit.ofChar) = some cs := by
  induction cs with
  | nil => rfl
  | cons c cs ih =>
    rw [List.map_cons, StringUnit.ofChar]
    split
    · next control =>
      rw [joined?_escaped (by omega), ih, Option.map_some, Char.ofNat_toNat]
    · rw [StringUnit.joined?, ih, Option.map_some]

namespace Token

private theorem scanFrom?_quiet {mode : Mode} (next : Mode) {c : Char} {rest : List Char}
    (stepped : step? mode c = some ([], next)) :
    scanFrom? mode (c :: rest) = scanFrom? next rest := by
  rw [scanFrom?, stepped]
  exact Option.map_id'

private theorem scanFrom?_control {n : Nat} (control : n < 0x20) (read : List StringUnit)
    (rest : List Char) :
    scanFrom? (.string read)
        ('\\' :: 'u' :: '0' :: '0' :: Nat.digitChar (n / 16) :: Nat.digitChar (n % 16) :: rest) =
      scanFrom? (.string (.escaped n :: read)) rest := by
  have digits : ∀ n < 0x20, Text.isHexDigit (Nat.digitChar (n / 16)) = true ∧
      Text.isHexDigit (Nat.digitChar (n % 16)) = true ∧
      Text.digitsValue 16 ['0', '0', Nat.digitChar (n / 16), Nat.digitChar (n % 16)] = n := by
    decide
  obtain ⟨first, second, value⟩ := digits n control
  have zero : Text.isHexDigit '0' = true := by decide
  rw [scanFrom?_quiet (.escape read) rfl, scanFrom?_quiet (.hex read []) rfl,
    scanFrom?_quiet (.hex read ['0']) (by simp [step?, zero]),
    scanFrom?_quiet (.hex read ['0', '0']) (by simp [step?, zero]),
    scanFrom?_quiet (.hex read [Nat.digitChar (n / 16), '0', '0']) (by simp [step?, first]),
    scanFrom?_quiet (.string (.escaped n :: read)) (by simp [step?, second, value])]

private theorem scanFrom?_char (c : Char) (read : List StringUnit) (rest : List Char) :
    scanFrom? (.string read) ((escape? c).getD [c] ++ rest) =
      scanFrom? (.string (.ofChar c :: read)) rest := by
  have escaped : ∀ (e : Char), simpleEscape? e = some c → e ≠ 'u' →
      scanFrom? (.string read) ('\\' :: e :: rest) =
        scanFrom? (.string (.plain c :: read)) rest := by
    intro e found differ
    rw [scanFrom?_quiet (.escape read) rfl,
      scanFrom?_quiet (.string (.plain c :: read)) (by simp [step?, found, differ])]
  unfold escape?
  split_ifs with quote slash line ret tab back feed control
  · subst quote; exact escaped '"' rfl (by decide)
  · subst slash; exact escaped '\\' rfl (by decide)
  · subst line; exact escaped 'n' rfl (by decide)
  · subst ret; exact escaped 'r' rfl (by decide)
  · subst tab; exact escaped 't' rfl (by decide)
  · subst back; exact escaped 'b' rfl (by decide)
  · subst feed; exact escaped 'f' rfl (by decide)
  · have unit : StringUnit.ofChar c = .escaped c.toNat := by
      rw [StringUnit.ofChar, if_pos]
      simp [control, line, ret, tab, back, feed]
    rw [unit]
    exact scanFrom?_control control read rest
  · have unit : StringUnit.ofChar c = .plain c := by
      rw [StringUnit.ofChar, if_neg (fun both => control both.1)]
    rw [unit]
    exact scanFrom?_quiet _ (by simp [step?, quote, slash, control])

private theorem scanFrom?_quote (s : String) (rest : List Char) :
    scanFrom? .between ((quote s).toList ++ rest) =
      (scanFrom? .between rest).map (.string (s.toList.map .ofChar) :: ·) := by
  have inside : ∀ (cs : List Char) (read : List StringUnit),
      scanFrom? (.string read) (cs.flatMap (fun c => (escape? c).getD [c]) ++ '"' :: rest) =
        (scanFrom? .between rest).map (.string (read.reverse ++ cs.map .ofChar) :: ·) := by
    intro cs
    induction cs with
    | nil => intro read; simp [scanFrom?, step?]
    | cons c cs ih =>
      intro read
      rw [List.flatMap_cons, List.append_assoc, scanFrom?_char, ih]
      simp
  have opened := inside s.toList []
  rw [quote]
  simp only [String.toList_ofList, List.cons_append, List.append_assoc, List.nil_append]
  rw [scanFrom?_quiet (.string []) rfl, opened]
  rfl

/-! ## Words and white space -/

/-- What stands in front of such a text is not continued by it. -/
def Apart (text : List Char) : Prop :=
  ∀ c ∈ text.head?, c.isAlpha = false

private theorem Apart.append {front rest : List Char} (first : Apart front) (second : Apart rest) :
    Apart (front ++ rest) := by
  cases front with
  | nil => exact second
  | cons c front => exact first

/-- A text is read as tokens, whatever follows it apart. -/
def Scans (text : List Char) (tokens : List Token) : Prop :=
  ∀ rest, Apart rest →
    scanFrom? .between (text ++ rest) = (scanFrom? .between rest).map (tokens ++ ·)

def isBlank (c : Char) : Bool :=
  c ∈ [' ', '\t', '\n', '\r']

private theorem apart_of_blank {text : List Char} (blank : ∀ c ∈ text, isBlank c = true) :
    Apart text := by
  intro c first
  have found := blank c (List.mem_of_mem_head? first)
  simp only [isBlank, List.mem_cons, List.not_mem_nil, or_false, decide_eq_true_eq] at found
  rcases found with rfl | rfl | rfl | rfl <;> rfl

namespace Scans

variable {text front : List Char} {tokens before : List Token}

private theorem nil : Scans [] [] :=
  fun _ _ => Option.map_id'.symm

private theorem append (first : Scans front before) (second : Scans text tokens)
    (apart : Apart text) :
    Scans (front ++ text) (before ++ tokens) := by
  intro rest follows
  rw [List.append_assoc, first _ (apart.append follows), second rest follows, Option.map_map]
  congr 1
  funext others
  exact (List.append_assoc _ _ _).symm

private theorem cons {c : Char} (alone : begin? c = some (before, .between))
    (second : Scans text tokens) :
    Scans (c :: text) (before ++ tokens) := by
  intro rest follows
  rw [List.cons_append, scanFrom?, step?, alone]
  simp only [second rest follows, Option.map_map]
  congr 1
  funext others
  exact (List.append_assoc _ _ _).symm

private theorem blanks (blank : ∀ c ∈ front, isBlank c = true) (second : Scans text tokens) :
    Scans (front ++ text) tokens := by
  induction front with
  | nil => exact second
  | cons c front ih =>
    obtain ⟨first, others⟩ := List.forall_mem_cons.mp blank
    have alone : begin? c = some ([], .between) := by
      simp only [isBlank, List.mem_cons, List.not_mem_nil, or_false, decide_eq_true_eq] at first
      rcases first with rfl | rfl | rfl | rfl <;> rfl
    exact cons alone (ih others)

private theorem quote (s : String) (second : Scans text tokens) :
    Scans ((quote s).toList ++ text) (.string (s.toList.map .ofChar) :: tokens) := by
  intro rest follows
  rw [List.append_assoc, scanFrom?_quote, second rest follows, Option.map_map]
  rfl

private theorem word {token : Token} {c : Char} (begins : begin? c = some ([], .word [c]))
    (letters : ∀ c ∈ text, c.isAlpha = true) (known : ofWord? (c :: text) = some token) :
    Scans (c :: text) [token] := by
  have gathered : ∀ (word read rest : List Char), (∀ c ∈ word, c.isAlpha = true) →
      scanFrom? (.word read) (word ++ rest) = scanFrom? (.word (word.reverse ++ read)) rest := by
    intro word
    induction word with
    | nil => intros; rfl
    | cons d word ih =>
      intro read rest alpha
      obtain ⟨first, others⟩ := List.forall_mem_cons.mp alpha
      rw [List.cons_append, scanFrom?_quiet (.word (d :: read)) (by simp [step?, first]),
        ih _ _ others, List.reverse_cons, List.append_assoc]
      rfl
  intro rest follows
  have start : step? .between c = some ([], .word [c]) := begins
  have ends : (text.reverse ++ [c]).reverse = c :: text := by simp
  rw [List.cons_append, scanFrom?_quiet (.word [c]) start, gathered text [c] rest letters]
  cases rest with
  | nil => simp [scanFrom?, finish?, known, ends]
  | cons d rest =>
    have other : d.isAlpha = false := follows d rfl
    simp only [scanFrom?, step?, ends, known, other]
    cases begin? d <;> simp [Function.comp_def]

private theorem null : Scans "null".toList [.null] :=
  word (c := 'n') rfl (List.all_eq_true.mp rfl) rfl

private theorem bool (b : Bool) : Scans (if b then "true" else "false").toList [.bool b] := by
  cases b
  · exact word (c := 'f') rfl (List.all_eq_true.mp rfl) rfl
  · exact word (c := 't') rfl (List.all_eq_true.mp rfl) rfl

end Scans

end Token

/-! ## Values -/

mutual

def Value.tokens : Value → List Token
  | .null => [.null]
  | .bool b => [.bool b]
  | .number _ => []
  | .text s => [.string (s.toList.map .ofChar)]
  | .list [] => [.openList, .closeList]
  | .list (item :: rest) => .openList :: (item.tokens ++ (moreItemTokens rest ++ [.closeList]))
  | .object [] => [.openObject, .closeObject]
  | .object ((key, v) :: rest) =>
    .openObject :: .string (key.toList.map .ofChar) :: .colon ::
      (v.tokens ++ (moreMemberTokens rest ++ [.closeObject]))

def moreItemTokens : List Value → List Token
  | [] => []
  | item :: rest => .comma :: (item.tokens ++ moreItemTokens rest)

def moreMemberTokens : List (String × Value) → List Token
  | [] => []
  | (key, v) :: rest =>
    .comma :: .string (key.toList.map .ofChar) :: .colon :: (v.tokens ++ moreMemberTokens rest)

end

mutual

def Value.isWordy : Value → Bool
  | .number _ => false
  | .list items => areWordyItems items
  | .object members => areWordyMembers members
  | _ => true

def areWordyItems : List Value → Bool
  | [] => true
  | item :: rest => item.isWordy && areWordyItems rest

def areWordyMembers : List (String × Value) → Bool
  | [] => true
  | (_, v) :: rest => v.isWordy && areWordyMembers rest

end

/-- A layout puts white space around what it prints, and nothing else. -/
structure Layout.Blank (layout : Layout) : Prop where
  lineBreak : ∀ level, ∀ c ∈ (layout.lineBreak level).toList, Token.isBlank c = true
  colon : ∃ blanks, layout.colon.toList = ':' :: blanks ∧ ∀ c ∈ blanks, Token.isBlank c = true

theorem Layout.compact_blank : Layout.compact.Blank :=
  ⟨fun _ _ member => (List.not_mem_nil member).elim, [], rfl,
    fun _ member => (List.not_mem_nil member).elim⟩

theorem Layout.indented_blank : Layout.indented.Blank := by
  refine ⟨?_, [' '], rfl, List.all_eq_true.mp rfl⟩
  intro level c member
  simp only [Layout.indented, String.toList_append, String.toList_ofList, List.mem_append] at member
  rcases member with line | spaces
  · obtain rfl := List.mem_singleton.mp line
    rfl
  · rw [List.eq_of_mem_replicate spaces]
    rfl

variable {layout : Layout}

private theorem apart_moreItems (level : Nat) (items : List Value) :
    Token.Apart (moreItems layout level items).toList := by
  cases items with
  | nil => intro c member; cases member
  | cons item rest =>
    intro c first
    simp only [moreItems, String.toList_append] at first
    obtain rfl := Option.some.inj first
    rfl

private theorem apart_moreMembers (level : Nat) (members : List (String × Value)) :
    Token.Apart (moreMembers layout level members).toList := by
  cases members with
  | nil => intro c member; cases member
  | cons member rest =>
    obtain ⟨key, v⟩ := member
    intro c first
    simp only [moreMembers, String.toList_append] at first
    obtain rfl := Option.some.inj first
    rfl

namespace Token

private theorem apart_closing (level : Nat) (blank : layout.Blank) {c : Char}
    (closes : c.isAlpha = false) :
    Apart ((layout.lineBreak level).toList ++ [c]) := by
  refine (apart_of_blank (blank.lineBreak level)).append ?_
  intro d first
  obtain rfl := Option.some.inj first
  exact closes

namespace Scans

variable {text : List Char} {tokens : List Token}

private theorem lineBreak (blank : layout.Blank) (level : Nat) (second : Scans text tokens) :
    Scans ((layout.lineBreak level).toList ++ text) tokens :=
  blanks (blank.lineBreak level) second

private theorem member (blank : layout.Blank) (key : String) (second : Scans text tokens) :
    Scans ((Json.quote key).toList ++ (layout.colon.toList ++ text))
      (.string (key.toList.map .ofChar) :: .colon :: tokens) := by
  obtain ⟨blanks, colon, white⟩ := blank.colon
  rw [colon]
  exact quote key (cons (c := ':') rfl (Scans.blanks white second))

end Scans

end Token

mutual

/-- A value is printed as its tokens, in every layout and at every level. -/
theorem Value.scans (blank : layout.Blank) (level : Nat) (v : Value) (wordy : v.isWordy = true) :
    Token.Scans (v.toTextAt layout level).toList v.tokens := by
  match v with
  | .null => exact .null
  | .bool b => exact .bool b
  | .number n => cases wordy
  | .text s =>
    have quoted := Token.Scans.quote s .nil
    rwa [List.append_nil] at quoted
  | .list [] =>
    rw [Value.toTextAt, Value.tokens]
    exact .cons (c := '[') rfl (.cons (c := ']') rfl .nil)
  | .list (item :: rest) =>
    obtain ⟨first, others⟩ := Bool.and_eq_true_iff.mp wordy
    -- From the end to the front: a word is only read whole where something stands apart behind it.
    have end' := Token.Scans.lineBreak blank level (.cons (c := ']') rfl .nil)
    have closing := Token.apart_closing (c := ']') level blank rfl
    have more := (moreItems_scans blank (level + 1) rest others).append end' closing
    have items := (item.scans blank (level + 1) first).append more
      ((apart_moreItems (level + 1) rest).append closing)
    have list := Token.Scans.cons (c := '[') rfl (.lineBreak blank (level + 1) items)
    have printed : (Value.toTextAt layout level (.list (item :: rest))).toList =
        '[' :: ((layout.lineBreak (level + 1)).toList ++
          ((item.toTextAt layout (level + 1)).toList ++
            ((moreItems layout (level + 1) rest).toList ++
              ((layout.lineBreak level).toList ++ [']'])))) := by
      simp [Value.toTextAt]
    exact printed ▸ list
  | .object [] =>
    rw [Value.toTextAt, Value.tokens]
    exact .cons (c := '\x7b') rfl (.cons (c := '\x7d') rfl .nil)
  | .object ((key, member) :: rest) =>
    obtain ⟨first, others⟩ := Bool.and_eq_true_iff.mp wordy
    have end' := Token.Scans.lineBreak blank level (.cons (c := '\x7d') rfl .nil)
    have closing := Token.apart_closing (c := '\x7d') level blank rfl
    have more := (moreMembers_scans blank (level + 1) rest others).append end' closing
    have members := (member.scans blank (level + 1) first).append more
      ((apart_moreMembers (level + 1) rest).append closing)
    have object := Token.Scans.cons (c := '\x7b') rfl
      (.lineBreak blank (level + 1) (.member blank key members))
    have printed : (Value.toTextAt layout level (.object ((key, member) :: rest))).toList =
        '\x7b' :: ((layout.lineBreak (level + 1)).toList ++
          ((quote key).toList ++ (layout.colon.toList ++
            ((member.toTextAt layout (level + 1)).toList ++
              ((moreMembers layout (level + 1) rest).toList ++
                ((layout.lineBreak level).toList ++ ['\x7d'])))))) := by
      simp [Value.toTextAt]
    exact printed ▸ object

theorem moreItems_scans (blank : layout.Blank) (level : Nat) (items : List Value)
    (wordy : areWordyItems items = true) :
    Token.Scans (moreItems layout level items).toList (moreItemTokens items) := by
  match items with
  | [] => exact .nil
  | item :: rest =>
    obtain ⟨first, others⟩ := Bool.and_eq_true_iff.mp wordy
    have more := (item.scans blank level first).append (moreItems_scans blank level rest others)
      (apart_moreItems level rest)
    have after := Token.Scans.cons (c := ',') rfl (.lineBreak blank level more)
    have printed : (moreItems layout level (item :: rest)).toList =
        ',' :: ((layout.lineBreak level).toList ++
          ((item.toTextAt layout level).toList ++ (moreItems layout level rest).toList)) := by
      simp [moreItems]
    exact printed ▸ after

theorem moreMembers_scans (blank : layout.Blank) (level : Nat) (members : List (String × Value))
    (wordy : areWordyMembers members = true) :
    Token.Scans (moreMembers layout level members).toList (moreMemberTokens members) := by
  match members with
  | [] => exact .nil
  | (key, member) :: rest =>
    obtain ⟨first, others⟩ := Bool.and_eq_true_iff.mp wordy
    have more := (member.scans blank level first).append
      (moreMembers_scans blank level rest others) (apart_moreMembers level rest)
    have after := Token.Scans.cons (c := ',') rfl
      (.lineBreak blank level (.member blank key more))
    have printed : (moreMembers layout level ((key, member) :: rest)).toList =
        ',' :: ((layout.lineBreak level).toList ++
          ((quote key).toList ++ (layout.colon.toList ++
            ((member.toTextAt layout level).toList ++
              (moreMembers layout level rest).toList)))) := by
      simp [moreMembers]
    exact printed ▸ after

end

end ContentImport.Json

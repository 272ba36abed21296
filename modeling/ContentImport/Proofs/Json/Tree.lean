import ContentImport.Json.Record
import ContentImport.Proofs.Json.Printed

/-!
Documents of printed values. The tokens of a value build up its tree, from which the fields of a
record and the value itself are read again; objects then have their members in order of keys.
-/

set_option autoImplicit false
set_option relaxedAutoImplicit false

namespace ContentImport.Json

mutual

/-- The tree of a value, as far as it has no numbers. -/
def Value.written : Value → Written
  | .null => .null
  | .bool b => .bool b
  | .number _ => .null
  | .text s => .text (some s)
  | .list items => .list (writtenItems items)
  | .object members => .object (writtenMembers members)

def writtenItems : List Value → List Written
  | [] => []
  | item :: rest => item.written :: writtenItems rest

def writtenMembers : List (String × Value) → List (Option String × Written)
  | [] => []
  | (key, v) :: rest => (some key, v.written) :: writtenMembers rest

end

/-! ## Building the tree -/

namespace Written

variable {around : List Frame}

private theorem foldlM_firstItem (v : Value) (wordy : v.isWordy = true) (more : List Token) :
    (v.tokens ++ more).foldlM step? (.firstItem around) =
      (v.tokens ++ more).foldlM step? (.value (.list [] :: around)) := by
  cases v with
  | number n => cases wordy
  | list items => cases items <;> rfl
  | object members => rcases members with _ | ⟨⟨key, member⟩, rest⟩ <;> rfl
  | _ => rfl

private theorem foldlM_stepped {before : State} {token : Token} (after : State)
    (stepped : step? before token = some after) (more : List Token) :
    (token :: more).foldlM step? before = more.foldlM step? after := by
  rw [List.foldlM_cons, stepped]
  rfl

private theorem foldlM_key {before : State} {read : List (Option String × Written)} (key : String)
    (stepped : ∀ units, step? before (.string units) =
      some (.colon read ((StringUnit.joined? units).map String.ofList) around))
    (more : List Token) :
    (Token.string (key.toList.map .ofChar) :: .colon :: more).foldlM step? before =
      more.foldlM step? (.value (.object read (some key) :: around)) := by
  have text : (StringUnit.joined? (key.toList.map .ofChar)).map String.ofList = some key := by
    rw [StringUnit.joined?_map_ofChar, Option.map_some, String.ofList_toList]
  rw [foldlM_stepped _ (stepped _), text]
  exact foldlM_stepped _ rfl more

end Written

open Written (step? Frame foldlM_stepped foldlM_key)

mutual

private theorem Value.builds (v : Value) (wordy : v.isWordy = true) (around : List Frame) :
    v.tokens.foldlM step? (.value around) = some (.done v.written around) := by
  match v with
  | .null => rfl
  | .bool b => rfl
  | .number n => cases wordy
  | .text s =>
    refine (foldlM_stepped _ rfl []).trans ?_
    rw [StringUnit.joined?_map_ofChar, Option.map_some, String.ofList_toList]
    rfl
  | .list [] => rfl
  | .list (item :: rest) =>
    obtain ⟨first, others⟩ := Bool.and_eq_true_iff.mp wordy
    rw [Value.tokens, foldlM_stepped (.firstItem around) rfl, Written.foldlM_firstItem item first,
      List.foldlM_append, item.builds first]
    exact moreItems_build rest others item.written [] around
  | .object [] => rfl
  | .object ((key, member) :: rest) =>
    obtain ⟨first, others⟩ := Bool.and_eq_true_iff.mp wordy
    rw [Value.tokens, foldlM_stepped (.firstKey around) rfl, foldlM_key key fun _ => rfl,
      List.foldlM_append, member.builds first]
    exact moreMembers_build rest others (some key) member.written [] around

theorem moreItems_build (items : List Value) (wordy : areWordyItems items = true) (last : Written)
    (read : List Written) (around : List Frame) :
    (moreItemTokens items ++ [Token.closeList]).foldlM step? (.done last (.list read :: around)) =
      some (.done (.list (read.reverse ++ last :: writtenItems items)) around) := by
  match items with
  | [] =>
    have closed : read.reverse ++ [last] = (last :: read).reverse := List.reverse_cons.symm
    rw [writtenItems, closed]
    rfl
  | item :: rest =>
    obtain ⟨first, others⟩ := Bool.and_eq_true_iff.mp wordy
    have build := moreItems_build rest others item.written (last :: read) around
    rw [List.reverse_cons, List.append_assoc] at build
    rw [moreItemTokens, List.cons_append,
      foldlM_stepped (.value (.list (last :: read) :: around)) rfl, List.append_assoc,
      List.foldlM_append, item.builds first]
    exact build

theorem moreMembers_build (members : List (String × Value))
    (wordy : areWordyMembers members = true) (key : Option String) (last : Written)
    (read : List (Option String × Written)) (around : List Frame) :
    (moreMemberTokens members ++ [Token.closeObject]).foldlM step?
        (.done last (.object read key :: around)) =
      some (.done (.object (read.reverse ++ (key, last) :: writtenMembers members)) around) := by
  match members with
  | [] =>
    have closed : read.reverse ++ [(key, last)] = ((key, last) :: read).reverse :=
      List.reverse_cons.symm
    rw [writtenMembers, closed]
    rfl
  | (other, member) :: rest =>
    obtain ⟨first, others⟩ := Bool.and_eq_true_iff.mp wordy
    have build := moreMembers_build rest others (some other) member.written ((key, last) :: read)
      around
    rw [List.reverse_cons, List.append_assoc] at build
    rw [moreMemberTokens, List.cons_append, foldlM_stepped (.key ((key, last) :: read) around) rfl,
      List.cons_append, List.cons_append, foldlM_key other fun _ => rfl, List.append_assoc,
      List.foldlM_append, member.builds first]
    exact build

end

/-- A printed value is read as its tree. -/
theorem Written.ofText?_toTextAt {layout : Layout} (blank : layout.Blank) (level : Nat) {v : Value}
    (wordy : v.isWordy = true) :
    Written.ofText? (v.toTextAt layout level).toList = some v.written := by
  have tokens := v.scans blank level wordy [] (by intro c first; cases first)
  rw [List.append_nil] at tokens
  have scanned : Token.scan? (v.toTextAt layout level).toList = some v.tokens := by
    rw [Token.scan?, tokens]
    simp [Token.scanFrom?, Token.finish?]
  rw [Written.ofText?, scanned, Option.bind_eq_bind, Option.bind_some, v.builds wordy]
  rfl

/-! ## Reading the tree -/

theorem writtenItems_eq (items : List Value) : writtenItems items = items.map Value.written := by
  induction items with
  | nil => rfl
  | cons item items ih => rw [writtenItems, ih, List.map_cons]

theorem writtenMembers_eq (members : List (String × Value)) :
    writtenMembers members = members.map fun m => (some m.1, m.2.written) := by
  induction members with
  | nil => rfl
  | cons member members ih => rw [writtenMembers, ih, List.map_cons]

theorem areWordyItems_iff {items : List Value} :
    areWordyItems items = true ↔ ∀ item ∈ items, item.isWordy = true := by
  induction items with
  | nil => simp [areWordyItems]
  | cons item items ih => simp [areWordyItems, ih]

theorem isWordy_list_map {α : Type} {toValue : α → Value} {items : List α}
    (each : ∀ item ∈ items, (toValue item).isWordy = true) :
    (Value.list (items.map toValue)).isWordy = true := by
  rw [Value.isWordy, areWordyItems_iff]
  exact List.forall_mem_map.mpr each

@[simp] theorem Value.isWordy_texts (items : List String) : (Value.texts items).isWordy = true :=
  isWordy_list_map fun _ _ => rfl

theorem mapM_guarded {α β : Type} {read : α → Option β} (passes : α → Bool) {result : α → β}
    {items : List α}
    (each : ∀ item ∈ items, read item = if passes item then some (result item) else none) :
    items.mapM read = if items.all passes then some (items.map result) else none := by
  induction items with
  | nil => rfl
  | cons item items ih =>
    obtain ⟨first, others⟩ := List.forall_mem_cons.mp each
    rw [List.mapM_cons, first, ih others, List.all_cons]
    cases passes item <;> cases items.all passes <;> rfl

theorem mapM_eq_some_map {α β : Type} {read : α → Option β} {result : α → β} {items : List α}
    (each : ∀ item ∈ items, read item = some (result item)) :
    items.mapM read = some (items.map result) := by
  simpa using mapM_guarded (fun _ => true) each

theorem listOf?_written {β : Type} (read : Written → Option β) (items : List Value) :
    listOf? read (Value.list items).written = items.mapM fun item => read item.written := by
  rw [Value.written, writtenItems_eq]
  exact List.mapM_map

theorem ofRecord?_written (names : List String) (members : List (String × Value)) :
    Slot.ofRecord? names (Value.object members).written =
      names.mapM (Slot.ofMember? (members.map fun m => (m.1, m.2.written))) := by
  have keyed : Readable.members? (Value.object members).written =
      some (members.map fun m => (m.1, m.2.written)) := by
    rw [Value.written, writtenMembers_eq, Readable.members?]
    exact List.mapM_map.trans List.mapM_pure
  simp only [Slot.ofRecord?, keyed]
  rfl

theorem value?_list (depth : Nat) (items : List Value) :
    (Value.list items).written.value? (depth + 1) =
      (items.mapM fun item : Value => item.written.value? depth).map .list := by
  have each : itemValues? depth (writtenItems items) =
      items.mapM fun item => item.written.value? depth := by
    induction items with
    | nil => rfl
    | cons item items ih =>
      rw [writtenItems, itemValues?, ih, List.mapM_cons]
  rw [Value.written, Written.value?, if_neg (Nat.succ_ne_zero depth), Nat.add_sub_cancel, each]

end ContentImport.Json

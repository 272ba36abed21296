import ContentImport.Proofs.Attempt
import ContentImport.Proofs.Json.Tree
import ContentImport.Proofs.Table

/-!
Trees and what they mean. One value has many trees: members stand in any order, and numbers are
written in many ways. Reading a record from a tree in which no key is repeated depends on its value
alone, and every value that was read has such a tree.
-/

set_option autoImplicit false
set_option relaxedAutoImplicit false

namespace ContentImport.Json

mutual

/-- Whether no object of a tree has a key twice. -/
def Written.isPlain : Written → Bool
  | .null => true
  | .bool _ => true
  | .number _ => true
  | .text _ => true
  | .list items => arePlainItems items
  | .object members => decide (members.map (·.1)).Nodup && arePlainMembers members

def arePlainItems : List Written → Bool
  | [] => true
  | item :: rest => item.isPlain && arePlainItems rest

def arePlainMembers : List (Option String × Written) → Bool
  | [] => true
  | (_, member) :: rest => member.isPlain && arePlainMembers rest

end

mutual

/-- A value with the members of each of its objects in order of keys. -/
def Value.ordered : Value → Value
  | .null => .null
  | .bool b => .bool b
  | .number n => .number n
  | .text s => .text s
  | .list items => .list (orderedItems items)
  | .object members => .object (Table.ofEntries (orderedMembers members))

def orderedItems : List Value → List Value
  | [] => []
  | item :: rest => item.ordered :: orderedItems rest

def orderedMembers : List (String × Value) → List (String × Value)
  | [] => []
  | (key, v) :: rest => (key, v.ordered) :: orderedMembers rest

end

private theorem arePlainItems_iff {items : List Written} :
    arePlainItems items = true ↔ ∀ item ∈ items, item.isPlain = true := by
  induction items with
  | nil => simp [arePlainItems]
  | cons item items ih => simp [arePlainItems, ih]

private theorem arePlainMembers_iff {members : List (Option String × Written)} :
    arePlainMembers members = true ↔ ∀ m ∈ members, m.2.isPlain = true := by
  induction members with
  | nil => simp [arePlainMembers]
  | cons member members ih => simp [arePlainMembers, ih]

private theorem areWordyMembers_iff {members : List (String × Value)} :
    areWordyMembers members = true ↔ ∀ m ∈ members, m.2.isWordy = true := by
  induction members with
  | nil => simp [areWordyMembers]
  | cons member members ih => simp [areWordyMembers, ih]

theorem orderedItems_eq (items : List Value) : orderedItems items = items.map Value.ordered := by
  induction items with
  | nil => rfl
  | cons item items ih => rw [orderedItems, ih, List.map_cons]

private theorem orderedMembers_eq (members : List (String × Value)) :
    orderedMembers members = members.map fun m => (m.1, m.2.ordered) := by
  induction members with
  | nil => rfl
  | cons member members ih => rw [orderedMembers, ih, List.map_cons]

theorem Value.ordered_list (items : List Value) :
    (Value.list items).ordered = .list (items.map ordered) := by
  rw [ordered, orderedItems_eq]

theorem Value.ordered_object (members : List (String × Value)) :
    (Value.object members).ordered =
      .object (Table.ofEntries (members.map fun m => (m.1, m.2.ordered))) := by
  rw [ordered, orderedMembers_eq]

/-! ## Meaning -/

private theorem itemValues?_eq (depth : Nat) (items : List Written) :
    itemValues? depth items = items.mapM (Written.value? depth) := by
  induction items with
  | nil => rfl
  | cons item items ih => rw [itemValues?, ih, List.mapM_cons]

private theorem memberValues?_eq_some_iff {depth : Nat} {members : List (Option String × Written)}
    {entries : List (String × Value)} :
    memberValues? depth members = some entries ↔
      List.Forall₂ (fun m e => m.1 = some e.1 ∧ m.2.value? depth = some e.2) members entries := by
  induction members generalizing entries with
  | nil => simp [memberValues?, eq_comm]
  | cons member members ih =>
    obtain ⟨key, w⟩ := member
    rw [List.forall₂_cons_left_iff, memberValues?]
    simp only [Option.bind_eq_bind, Option.bind_eq_some_iff, Option.pure_def, Option.some.injEq, ih]
    constructor
    · rintro ⟨name, rfl, v, first, vs, others, rfl⟩
      exact ⟨(name, v), vs, ⟨rfl, first⟩, others, rfl⟩
    · rintro ⟨⟨name, v⟩, vs, ⟨rfl, first⟩, others, rfl⟩
      exact ⟨name, rfl, v, first, vs, others, rfl⟩

private theorem Written.value?_list_eq_some {depth : Nat} {items : List Written} {v : Value}
    (read : (Written.list items).value? depth = some v) :
    ∃ inner values, depth = inner + 1 ∧ itemValues? inner items = some values ∧
      v = .list values := by
  cases depth with
  | zero => simp [value?] at read
  | succ inner =>
    rw [value?, if_neg (Nat.succ_ne_zero inner), Nat.add_sub_cancel, Option.map_eq_some_iff] at read
    obtain ⟨values, found, rfl⟩ := read
    exact ⟨inner, values, rfl, found, rfl⟩

private theorem Written.value?_object_eq_some {depth : Nat}
    {members : List (Option String × Written)}
    {v : Value} (read : (Written.object members).value? depth = some v) :
    ∃ inner entries, depth = inner + 1 ∧ memberValues? inner members = some entries ∧
      v = .object (Table.ofEntries entries) := by
  cases depth with
  | zero => simp [value?] at read
  | succ inner =>
    rw [value?, if_neg (Nat.succ_ne_zero inner), Nat.add_sub_cancel, Option.map_eq_some_iff] at read
    obtain ⟨entries, found, rfl⟩ := read
    exact ⟨inner, entries, rfl, found, rfl⟩

/-- A tree without repeated keys, and the value that it has within a depth. -/
structure Written.Means (depth : Nat) (w : Written) (v : Value) : Prop where
  plain : w.isPlain = true
  value : w.value? depth = some v

namespace Written.Means

variable {depth : Nat} {w : Written}

theorem eq_text {s : String} (means : w.Means depth (.text s)) : w = .text (some s) := by
  have value := means.value
  cases w <;> simp_all [Written.value?]

private theorem list {values : List Value} (means : w.Means (depth + 1) (.list values)) :
    ∃ items, w = .list items ∧ List.Forall₂ (Means depth) items values := by
  obtain ⟨plain, value⟩ := means
  cases w with
  | list items =>
    obtain ⟨_, _, ⟨⟩, read, ⟨⟩⟩ := value?_list_eq_some value
    rw [isPlain, arePlainItems_iff] at plain
    refine ⟨items, rfl, ?_⟩
    rw [itemValues?_eq, Attempt.mapM_eq_some] at read
    exact ((List.forall₂_and_left _ _).mpr ⟨plain, read⟩).imp
      fun _ _ both => ⟨both.1, both.2⟩
  | _ => simp [Written.value?] at value

private theorem exists_named {members : List (Option String × Written)}
    {entries : List (String × Value)}
    (each : List.Forall₂ (fun m e => m.1 = some e.1 ∧ Means depth m.2 e.2) members entries) :
    ∃ named : List (String × Written), members = named.map (fun m => (some m.1, m.2)) ∧
      List.Forall₂ (fun m e => m.1 = e.1 ∧ Means depth m.2 e.2) named entries := by
  induction each with
  | nil => exact ⟨[], rfl, .nil⟩
  | @cons m e members entries pair _ ih =>
    obtain ⟨key, member⟩ := m
    obtain ⟨rfl, means⟩ := pair
    obtain ⟨named, rfl, pairs⟩ := ih
    exact ⟨(e.1, member) :: named, rfl, .cons ⟨rfl, means⟩ pairs⟩

private theorem object {table : List (String × Value)}
    (means : w.Means (depth + 1) (.object table)) :
    ∃ (members : List (String × Written)) (entries : List (String × Value)),
      w = .object (members.map fun m => (some m.1, m.2)) ∧ table = Table.ofEntries entries ∧
        (members.map (·.1)).Nodup ∧
        List.Forall₂ (fun m e => m.1 = e.1 ∧ Means depth m.2 e.2) members entries := by
  obtain ⟨plain, value⟩ := means
  cases w with
  | object members =>
    obtain ⟨_, entries, ⟨⟩, read, ⟨⟩⟩ := value?_object_eq_some value
    rw [isPlain, Bool.and_eq_true, decide_eq_true_eq, arePlainMembers_iff] at plain
    obtain ⟨distinct, each⟩ := plain
    have pairs := (List.forall₂_and_left _ _).mpr ⟨each, memberValues?_eq_some_iff.mp read⟩
    obtain ⟨named, rfl, related⟩ := exists_named (pairs.imp fun m e both =>
      ⟨both.2.1, both.1, both.2.2⟩)
    refine ⟨named, entries, rfl, rfl, ?_, related⟩
    rw [List.map_map] at distinct
    exact List.Nodup.of_map some (by rwa [List.map_map])
  | _ => simp [Written.value?] at value

end Written.Means

/-! ## Reading -/

/-- What a record gives for a field is a tree of the value that it has for it. -/
def Slot.Holds (depth : Nat) : Slot Written → Option Value → Prop
  | .given w, some v => w.Means depth v
  | .unnamed, none => True
  | _, _ => False

namespace Slot

variable {depth : Nat} {slot : Slot Written} {β : Type}

private theorem ofMember?_of_related {members : List (String × Written)}
    {entries : List (String × Value)}
    (distinct : (members.map (·.1)).Nodup)
    (related : List.Forall₂ (fun m e => m.1 = e.1 ∧ m.2.Means depth e.2) members entries)
    (name : String) :
    ∃ slot, ofMember? members name = some slot ∧ slot.Holds depth (Table.get? entries name) := by
  induction related with
  | nil => exact ⟨.unnamed, rfl, trivial⟩
  | @cons m e members entries pair _ ih =>
    obtain ⟨key, member⟩ := m
    obtain ⟨other, v⟩ := e
    obtain ⟨rfl, means⟩ := pair
    obtain ⟨absent, distinct⟩ := List.nodup_cons.mp distinct
    by_cases same : key = name
    · subst same
      have none : members.filter (·.1 = key) = [] := by
        refine List.filter_eq_nil_iff.mpr fun m listed named => absent ?_
        exact List.mem_map.mpr ⟨m, listed, of_decide_eq_true named⟩
      refine ⟨.given member, ?_, ?_⟩
      · rw [ofMember?, List.filter_cons_of_pos (by simp), none]
      · rwa [Table.get?, if_pos rfl]
    · rw [ofMember?, List.filter_cons_of_neg (by simpa using same), Table.get?, if_neg same]
      exact ih distinct

theorem ofRecord?_of_means {w : Written} {entries : List (String × Value)}
    (distinct : (entries.map (·.1)).Nodup)
    (means : w.Means (depth + 1) (Value.object entries).ordered) :
    ∃ slot : String → Slot Written, (∀ names, ofRecord? names w = some (names.map slot)) ∧
      ∀ name, (slot name).Holds depth ((Table.get? entries name).map Value.ordered) := by
  rw [Value.ordered_object] at means
  obtain ⟨members, others, rfl, same, single, related⟩ := means.object
  have keyed : Readable.members? (Written.object (members.map fun m => (some m.1, m.2))) =
      some members := by
    refine List.mapM_map.trans (List.mapM_pure.trans (congrArg some (List.map_id _)))
  have keys : members.map (·.1) = others.map (·.1) := by
    rw [← List.forall₂_eq_eq_eq, List.forall₂_map_left_iff, List.forall₂_map_right_iff]
    exact related.imp fun _ _ pair => pair.1
  have found : ∀ name, Table.get? others name = (Table.get? entries name).map Value.ordered := by
    intro name
    have listed : ((entries.map fun m => (m.1, m.2.ordered)).map (·.1)).Nodup := by
      rw [List.map_map]
      exact distinct
    rw [← Table.get?_ofEntries (keys ▸ single), ← same, Table.get?_ofEntries listed, Table.get?_map]
  have each : ∀ name, ∃ slot, ofMember? members name = some slot ∧
      slot.Holds depth ((Table.get? entries name).map Value.ordered) :=
    fun name => found name ▸ ofMember?_of_related single related name
  choose slot given holds using each
  refine ⟨slot, fun names => ?_, holds⟩
  simp only [ofRecord?, keyed]
  exact mapM_eq_some_map fun name _ => given name

theorem required_of_holds {v : Value} (holds : slot.Holds depth (some v)) {read : Written → Option β}
    {result : β} (reads : ∀ w : Written, w.Means depth v → read w = some result) :
    slot.required read = some result := by
  cases slot with
  | given w => exact reads w holds
  | unnamed => cases holds
  | beyond => cases holds

theorem defaulted_of_holds {v : Value} (holds : slot.Holds depth (some v)) {ownValue : β}
    {read : Written → Option β} {result : β}
    (reads : ∀ w : Written, w.Means depth v → read w = some result) :
    slot.defaulted ownValue read = some result := by
  cases slot with
  | given w => exact reads w holds
  | unnamed => cases holds
  | beyond => cases holds

theorem defaulted_of_absent (absent : slot.Holds depth none) {ownValue : β}
    {read : Written → Option β} : slot.defaulted ownValue read = some ownValue := by
  cases slot with
  | unnamed => rfl
  | given w => cases absent
  | beyond => cases absent

theorem optional_of_holds {value : Option β} {toText : β → String}
    (holds : slot.Holds depth (value.map fun b => .text (toText b))) {read : Written → Option β}
    (reads : ∀ b, read (.text (some (toText b))) = some b) : slot.optional read = some value := by
  cases value with
  | none =>
    cases slot with
    | unnamed => rfl
    | given w => cases holds
    | beyond => cases holds
  | some b =>
    cases slot with
    | given w =>
      obtain rfl := Written.Means.eq_text holds
      rw [optional, reads]
      rfl
    | unnamed => cases holds
    | beyond => cases holds

end Slot

theorem listOf?_of_means {α β : Type} {depth : Nat} {w : Written} {toValue : α → Value}
    {items : List α} (means : w.Means (depth + 1) (.list (items.map toValue)))
    {read : Written → Option β} {result : α → β}
    (reads : ∀ a ∈ items, ∀ w : Written, w.Means depth (toValue a) → read w = some (result a)) :
    listOf? read w = some (items.map result) := by
  obtain ⟨trees, rfl, each⟩ := means.list
  rw [List.forall₂_map_right_iff] at each
  clear means
  change trees.mapM read = _
  induction each with
  | nil => rfl
  | @cons tree a trees items first _ ih =>
    obtain ⟨readFirst, readOthers⟩ := List.forall_mem_cons.mp reads
    rw [List.mapM_cons, readFirst tree first, ih readOthers]
    rfl

/-! ## Trees of values -/

instance : Inhabited Written := ⟨.null⟩

/-- A value has a tree within a depth; where the value has no numbers, its own tree is one. -/
def Value.Writable (depth : Nat) (v : Value) : Prop :=
  ∃ w : Written, w.Means depth v.ordered ∧ (v.isWordy = true → w = v.written)

namespace Value

variable {depth : Nat}

theorem writable_text (s : String) : (text s).Writable depth :=
  ⟨.text (some s), ⟨rfl, rfl⟩, fun _ => rfl⟩

theorem writable_list {items : List Value} (each : ∀ v ∈ items, v.Writable depth) :
    (list items).Writable (depth + 1) := by
  choose! tree means own using each
  refine ⟨.list (items.map tree), ⟨?_, ?_⟩, fun wordy => ?_⟩
  · rw [Written.isPlain, arePlainItems_iff]
    exact List.forall_mem_map.mpr fun v listed => (means v listed).plain
  · have read : itemValues? depth (items.map tree) = some (items.map ordered) := by
      rw [itemValues?_eq, Attempt.mapM_eq_some, List.forall₂_map_left_iff,
        List.forall₂_map_right_iff]
      exact List.forall₂_same.mpr fun v listed => (means v listed).value
    rw [Written.value?, if_neg (Nat.succ_ne_zero depth), Nat.add_sub_cancel, read, ordered_list]
    rfl
  · rw [isWordy, areWordyItems_iff] at wordy
    rw [written, writtenItems_eq]
    exact congrArg Written.list (List.map_congr_left fun v listed => own v listed (wordy v listed))

theorem writable_object {members : List (String × Value)}
    (distinct : (members.map (·.1)).Nodup) (each : ∀ m ∈ members, m.2.Writable depth) :
    (object members).Writable (depth + 1) := by
  choose! tree means own using each
  refine ⟨.object (members.map fun m => (some m.1, tree m)), ⟨?_, ?_⟩, fun wordy => ?_⟩
  · rw [Written.isPlain, Bool.and_eq_true, decide_eq_true_eq, arePlainMembers_iff]
    refine ⟨?_, List.forall_mem_map.mpr fun m listed => (means m listed).plain⟩
    have keys := distinct.map (Option.some_injective String)
    rw [List.map_map] at keys ⊢
    exact keys
  · have read : memberValues? depth (members.map fun m => (some m.1, tree m)) =
        some (members.map fun m => (m.1, m.2.ordered)) := by
      rw [memberValues?_eq_some_iff, List.forall₂_map_left_iff, List.forall₂_map_right_iff]
      exact List.forall₂_same.mpr fun m listed => ⟨rfl, (means m listed).value⟩
    rw [Written.value?, if_neg (Nat.succ_ne_zero depth), Nat.add_sub_cancel, read, ordered_object]
    rfl
  · rw [isWordy, areWordyMembers_iff] at wordy
    rw [written, writtenMembers_eq]
    refine congrArg Written.object (List.map_congr_left fun m listed => ?_)
    rw [own m listed (wordy m listed)]

/-- A value that was read from a tree is in order, and has a tree without repeated keys. -/
theorem writable_of_read {w : Written} {v : Value} (read : w.value? depth = some v) :
    v.ordered = v ∧ v.Writable depth := by
  induction depth using Nat.strongRecOn generalizing w v with
  | ind depth ih =>
    cases w with
    | null =>
      obtain rfl := Option.some.inj read
      exact ⟨rfl, .null, ⟨rfl, rfl⟩, fun _ => rfl⟩
    | bool b =>
      obtain rfl := Option.some.inj read
      exact ⟨rfl, .bool b, ⟨rfl, rfl⟩, fun _ => rfl⟩
    | number t =>
      obtain ⟨n, found, rfl⟩ := Option.map_eq_some_iff.mp read
      exact ⟨rfl, .number t, ⟨rfl, read⟩, fun wordy => nomatch wordy⟩
    | text s =>
      obtain ⟨s, found, rfl⟩ := Option.map_eq_some_iff.mp read
      exact ⟨rfl, writable_text s⟩
    | list items =>
      obtain ⟨inner, values, rfl, found, rfl⟩ := Written.value?_list_eq_some read
      rw [itemValues?_eq, Attempt.mapM_eq_some] at found
      have each : ∀ v ∈ values, v.ordered = v ∧ v.Writable inner := by
        intro v listed
        obtain ⟨item, -, read⟩ := Attempt.exists_of_mem_right found v listed
        exact ih inner (Nat.lt_succ_self inner) read
      refine ⟨?_, writable_list fun v listed => (each v listed).2⟩
      rw [ordered_list, List.map_congr_left fun v listed => (each v listed).1, List.map_id']
    | object members =>
      obtain ⟨inner, entries, rfl, found, rfl⟩ := Written.value?_object_eq_some read
      rw [memberValues?_eq_some_iff] at found
      have each : ∀ e ∈ Table.ofEntries entries, e.2.ordered = e.2 ∧ e.2.Writable inner := by
        intro e listed
        obtain ⟨m, -, -, read⟩ :=
          Attempt.exists_of_mem_right found e (Table.mem_of_mem_ofEntries listed)
        exact ih inner (Nat.lt_succ_self inner) read
      have ascending := Table.ofEntries_ascending entries
      refine ⟨?_, writable_object ?_ fun e listed => (each e listed).2⟩
      · have same : (Table.ofEntries entries).map (fun e => (e.1, e.2.ordered)) =
            Table.ofEntries entries := by
          refine (List.map_congr_left fun e listed => ?_).trans (List.map_id _)
          rw [(each e listed).1]
          rfl
        rw [ordered_object, same, ascending.ofEntries_eq]
      · exact List.pairwise_map.mpr (ascending.imp fun less => ne_of_lt less)

end Value

end ContentImport.Json

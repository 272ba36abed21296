import ContentImport.Table
import Mathlib.Data.List.Induction
import Mathlib.Data.List.Nodup
import Mathlib.Data.List.Pairwise
import Mathlib.Data.Nat.Basic
import Mathlib.Data.String.Basic
import Mathlib.Order.Bounds.Basic
import Mathlib.Order.Defs.LinearOrder

/-!
Ascending tables. A table that is only written through `put` keeps its keys in order, so a key has
at most one value, a key behind all others is put at the end, and taking keys away is a filter.
-/

set_option autoImplicit false
set_option relaxedAutoImplicit false

namespace ContentImport

/-- A search by what no two members share finds the one that has it. -/
theorem find?_eq_some_iff_of_nodup {α β : Type} [DecidableEq β] {key : α → β} {xs : List α}
    (distinct : (xs.map key).Nodup) {value : β} {x : α} :
    xs.find? (key · = value) = some x ↔ x ∈ xs ∧ key x = value := by
  constructor
  · exact fun found => ⟨List.mem_of_find?_eq_some found, by simpa using List.find?_some found⟩
  · rintro ⟨member, rfl⟩
    have hit : (xs.find? (key · = key x)).isSome = true :=
      List.find?_isSome.mpr ⟨x, member, decide_eq_true rfl⟩
    obtain ⟨other, found⟩ := Option.isSome_iff_exists.mp hit
    have same : key other = key x := by simpa using List.find?_some found
    rw [found, List.inj_on_of_nodup_map distinct (List.mem_of_find?_eq_some found) member same]

namespace Table

def Ascending {κ ν : Type} [LT κ] (t : Table κ ν) : Prop :=
  t.Pairwise fun a b => a.1 < b.1

section
variable {κ ν : Type} [DecidableEq κ] {t : Table κ ν}

theorem mem_of_get? {key : κ} {value : ν} (found : get? t key = some value) :
    (key, value) ∈ t := by
  induction t with
  | nil => simp at found
  | cons entry rest ih =>
    obtain ⟨k, v⟩ := entry
    simp only [get?] at found
    split at found
    · next same =>
      obtain rfl := Option.some.inj found
      exact same ▸ List.mem_cons_self
    · exact List.mem_cons_of_mem _ (ih found)

theorem holds_iff {key : κ} : holds t key = true ↔ ∃ value, (key, value) ∈ t := by
  constructor
  · intro held
    obtain ⟨value, found⟩ := Option.isSome_iff_exists.mp held
    exact ⟨value, mem_of_get? found⟩
  · rintro ⟨value, member⟩
    induction t with
    | nil => simp at member
    | cons entry rest ih =>
      obtain ⟨k, v⟩ := entry
      simp only [holds, get?] at ih ⊢
      split
      · rfl
      · next differ =>
        refine ih ((List.mem_cons.mp member).resolve_left ?_)
        intro same
        exact differ (Prod.mk.inj same).1.symm

theorem get?_map {μ : Type} (change : ν → μ) (t : Table κ ν) (key : κ) :
    get? (t.map fun e => (e.1, change e.2)) key = (get? t key).map change := by
  induction t with
  | nil => rfl
  | cons entry rest ih =>
    rw [List.map_cons, get?, get?, ih]
    split <;> rfl

theorem foldl_erase (t : Table κ ν) (keys : List κ) :
    keys.foldl erase t = t.filter fun e => e.1 ∉ keys := by
  induction keys generalizing t with
  | nil => exact (List.filter_eq_self.mpr fun e _ => by simp).symm
  | cons key keys ih =>
    rw [List.foldl_cons, ih, erase, List.filter_filter]
    refine List.filter_congr ?_
    intro e _
    simp [Bool.and_comm]

theorem Ascending.adjust [LT κ] (ascending : t.Ascending) (key : κ) (change : ν → ν) :
    (adjust t key change).Ascending := by
  unfold Table.adjust Ascending
  rw [List.pairwise_map]
  refine ascending.imp ?_
  intro a b less
  split <;> split <;> exact less

end

section
variable {κ ν : Type} [LinearOrder κ] {t : Table κ ν}

theorem Ascending.eq_of_mem (ascending : t.Ascending) {a b : κ × ν} (first : a ∈ t)
    (second : b ∈ t) (same : a.1 = b.1) : a = b := by
  have distinct : (t.map Prod.fst).Nodup :=
    List.pairwise_map.mpr (ascending.imp fun less => ne_of_lt less)
  exact List.inj_on_of_nodup_map distinct first second same

theorem Ascending.get?_of_mem (ascending : t.Ascending) {e : κ × ν} (member : e ∈ t) :
    get? t e.1 = some e.2 := by
  obtain ⟨value, found⟩ := Option.isSome_iff_exists.mp (holds_iff.mpr ⟨e.2, member⟩)
  have same := ascending.eq_of_mem (mem_of_get? found) member rfl
  rw [found, ← same]

theorem Ascending.find?_key_eq_some_iff (ascending : t.Ascending) (test : κ × ν → Bool) {key : κ} :
    (t.find? test).map (·.1) = some key ↔
      IsLeast { key | ∃ value, (key, value) ∈ t ∧ test (key, value) = true } key := by
  have least : ∀ e, t.find? test = some e →
      IsLeast { key | ∃ value, (key, value) ∈ t ∧ test (key, value) = true } e.1 := by
    intro e found
    refine ⟨⟨e.2, List.mem_of_find?_eq_some found, List.find?_some found⟩, ?_⟩
    rintro other ⟨value, member, passes⟩
    obtain ⟨-, before, after, rfl, fail⟩ := List.find?_eq_some_iff_append.mp found
    rcases List.mem_append.mp member with early | late
    · have failed := fail _ early
      rw [passes] at failed
      cases failed
    · rcases List.mem_cons.mp late with rfl | later
      · exact le_refl _
      · have ordered := (List.pairwise_append.mp ascending).2.1
        exact le_of_lt ((List.pairwise_cons.mp ordered).1 _ later)
  constructor
  · intro found
    obtain ⟨e, hit, rfl⟩ := Option.map_eq_some_iff.mp found
    exact least e hit
  · intro lowest
    obtain ⟨value, member, passes⟩ := lowest.1
    obtain ⟨e, hit⟩ := Option.isSome_iff_exists.mp (List.find?_isSome.mpr ⟨_, member, passes⟩)
    rw [hit, Option.map_some, (least e hit).unique lowest]

theorem Ascending.eq_of_map_key (ascending : t.Ascending) {a b : List (κ × ν)}
    (same : a.map (·.1) = b.map (·.1)) (first : ∀ e ∈ a, e ∈ t) (second : ∀ e ∈ b, e ∈ t) :
    a = b := by
  induction a generalizing b with
  | nil => exact (List.map_eq_nil_iff.mp same.symm).symm
  | cons x a ih =>
    cases b with
    | nil => cases same
    | cons y b =>
      obtain ⟨heads, tails⟩ := List.cons_eq_cons.mp same
      obtain ⟨inX, inA⟩ := List.forall_mem_cons.mp first
      obtain ⟨inY, inB⟩ := List.forall_mem_cons.mp second
      rw [ascending.eq_of_mem inX inY heads, ih tails inA inB]

theorem Ascending.mem_keys_filter (ascending : t.Ascending) (test : κ × ν → Bool) {e : κ × ν}
    (member : e ∈ t) : e.1 ∈ (t.filter test).map (·.1) ↔ test e = true := by
  rw [List.mem_map]
  constructor
  · rintro ⟨other, picked, same⟩
    obtain ⟨held, passes⟩ := List.mem_filter.mp picked
    rwa [← ascending.eq_of_mem held member same]
  · exact fun passes => ⟨e, List.mem_filter.mpr ⟨member, passes⟩, rfl⟩

theorem Ascending.foldl_erase_filter (ascending : t.Ascending) (test : κ × ν → Bool) :
    ((t.filter test).map (·.1)).foldl erase t = t.filter fun e => !test e := by
  rw [foldl_erase]
  refine List.filter_congr ?_
  intro e member
  have picked := ascending.mem_keys_filter test member
  simp only [decide_not, picked, Bool.decide_eq_true]

theorem Ascending.filter_keys_filter (ascending : t.Ascending) (test other : κ × ν → Bool)
    {listed : List κ} (entered : listed = (t.filter test).map (·.1)) :
    ((t.filter other).map (·.1)).filter (· ∉ listed) =
      ((t.filter fun e => !test e).filter other).map (·.1) := by
  rw [List.filter_map, List.filter_filter, List.filter_filter]
  refine congrArg (List.map _) (List.filter_congr ?_)
  intro e member
  have picked := ascending.mem_keys_filter test member
  simp only [Function.comp_apply, entered, decide_not, picked, Bool.decide_eq_true, Bool.and_comm]

theorem put_map {μ : Type} (change : ν → μ) (key : κ) (value : ν) (t : Table κ ν) :
    put key (change value) (t.map fun e => (e.1, change e.2)) =
      (put key value t).map fun e => (e.1, change e.2) := by
  induction t with
  | nil => rfl
  | cons entry rest ih =>
    rw [List.map_cons, put, put, ih]
    split
    · rfl
    · split <;> rfl

theorem put_eq_cons {key : κ} (before : ∀ e ∈ t, key < e.1) (value : ν) :
    put key value t = (key, value) :: t := by
  cases t with
  | nil => rfl
  | cons entry rest =>
    have less : key < entry.1 := before entry List.mem_cons_self
    rw [put, if_neg (ne_of_lt less), if_pos less]

theorem put_eq_append {key : κ} (behind : ∀ e ∈ t, e.1 < key) (value : ν) :
    put key value t = t ++ [(key, value)] := by
  induction t with
  | nil => rfl
  | cons entry rest ih =>
    have less : entry.1 < key := behind entry List.mem_cons_self
    rw [put, if_neg (ne_of_gt less), if_neg (lt_asymm less),
      ih fun e member => behind e (List.mem_cons_of_mem _ member), List.cons_append]

theorem Ascending.append (ascending : t.Ascending) {key : κ} (behind : ∀ e ∈ t, e.1 < key)
    (value : ν) : Ascending (t ++ [(key, value)]) := by
  refine List.pairwise_append.mpr ⟨ascending, List.pairwise_singleton _ _, ?_⟩
  intro a member b last
  rw [List.mem_singleton.mp last]
  exact behind a member

private theorem eq_of_mem_put {key : κ} {value : ν} {e : κ × ν} (member : e ∈ put key value t) :
    e = (key, value) ∨ e ∈ t := by
  induction t with
  | nil => exact .inl (List.mem_singleton.mp member)
  | cons entry rest ih =>
    simp only [put] at member
    split at member
    · rcases List.mem_cons.mp member with rfl | later
      · exact .inl rfl
      · exact .inr (List.mem_cons_of_mem _ later)
    · split at member
      · rcases List.mem_cons.mp member with rfl | later
        · exact .inl rfl
        · exact .inr later
      · rcases List.mem_cons.mp member with rfl | later
        · exact .inr List.mem_cons_self
        · exact (ih later).imp id (List.mem_cons_of_mem _)

private theorem key_of_mem_put {key : κ} {value : ν} {e : κ × ν} (member : e ∈ put key value t) :
    e.1 = key ∨ e ∈ t :=
  (eq_of_mem_put member).imp_left (congrArg Prod.fst)

theorem Ascending.put (ascending : t.Ascending) (key : κ) (value : ν) :
    (put key value t).Ascending := by
  induction t with
  | nil => exact List.pairwise_singleton _ _
  | cons entry rest ih =>
    obtain ⟨behind, ordered⟩ := List.pairwise_cons.mp ascending
    unfold Table.put
    split
    · next same =>
      refine List.pairwise_cons.mpr ⟨fun e member => ?_, ordered⟩
      exact same ▸ behind e member
    · next differ =>
      split
      · next less =>
        refine List.pairwise_cons.mpr ⟨fun e member => ?_, ascending⟩
        rcases List.mem_cons.mp member with rfl | later
        · exact less
        · exact lt_trans less (behind e later)
      · next notLess =>
        have less : entry.1 < key := lt_of_le_of_ne (not_lt.mp notLess) (Ne.symm differ)
        refine List.pairwise_cons.mpr ⟨fun e member => ?_, ih ordered⟩
        rcases key_of_mem_put member with same | older
        · exact same ▸ less
        · exact behind e older

/-! ## Tables of entries -/

private theorem ofEntries_concat (entries : List (κ × ν)) (e : κ × ν) :
    ofEntries (entries ++ [e]) = Table.put e.1 e.2 (ofEntries entries) := by
  rw [ofEntries, List.foldl_append]
  rfl

theorem ofEntries_ascending (entries : List (κ × ν)) : Ascending (ofEntries entries) := by
  induction entries using List.reverseRecOn with
  | nil => exact .nil
  | append_singleton entries e ih =>
    rw [ofEntries_concat]
    exact ih.put _ _

theorem mem_of_mem_ofEntries {entries : List (κ × ν)} {e : κ × ν} (member : e ∈ ofEntries entries) :
    e ∈ entries := by
  induction entries using List.reverseRecOn with
  | nil => cases member
  | append_singleton entries last ih =>
    rw [ofEntries_concat] at member
    rcases eq_of_mem_put member with rfl | earlier
    · exact List.mem_append_right _ List.mem_cons_self
    · exact List.mem_append_left _ (ih earlier)

theorem Ascending.ofEntries_eq (ascending : t.Ascending) : ofEntries t = t := by
  induction t using List.reverseRecOn with
  | nil => rfl
  | append_singleton t e ih =>
    obtain ⟨earlier, -, behind⟩ := List.pairwise_append.mp ascending
    rw [ofEntries_concat, ih earlier]
    exact put_eq_append (fun a member => behind a member e List.mem_cons_self) e.2

theorem get?_ofEntries {entries : List (κ × ν)} (distinct : (entries.map (·.1)).Nodup) (key : κ) :
    get? (ofEntries entries) key = get? entries key := by
  induction entries using List.reverseRecOn with
  | nil => rfl
  | append_singleton entries e ih =>
    rw [List.map_append, List.nodup_append] at distinct
    obtain ⟨earlier, -, apart⟩ := distinct
    have behind : ∀ (l : List (κ × ν)), e.1 ∉ l.map (·.1) →
        get? (l ++ [e]) key = if e.1 = key then some e.2 else get? l key := by
      intro l absent
      induction l with
      | nil => rfl
      | cons first l ih =>
        obtain ⟨differs, absent⟩ := not_or.mp (List.mem_cons.not.mp absent)
        rw [List.cons_append, get?, get?, ih absent]
        split
        · next same => rw [if_neg fun other => differs (other.trans same.symm)]
        · rfl
    rw [ofEntries_concat, get?_put, ih earlier, behind entries]
    exact fun member => apart _ member _ List.mem_cons_self rfl

/-- Two tables with the same keys, and values that are related key by key, stay so when a related
pair of values is put for one key; other values may be related more weakly afterwards. -/
theorem Ascending.forall₂_put {t' : Table κ ν} {P Q : κ → ν → ν → Prop} {key : κ} {value value' : ν}
    (weaken : ∀ other, other ≠ key → ∀ x y, P other x y → Q other x y) (new : Q key value value')
    (ascending : t.Ascending)
    (related : List.Forall₂ (fun e e' => e'.1 = e.1 ∧ P e.1 e.2 e'.2) t t') :
    List.Forall₂ (fun e e' => e'.1 = e.1 ∧ Q e.1 e.2 e'.2) (Table.put key value t)
      (Table.put key value' t') := by
  have others : ∀ {rest rest' : Table κ ν}, (∀ e ∈ rest, key < e.1) →
      List.Forall₂ (fun e e' => e'.1 = e.1 ∧ P e.1 e.2 e'.2) rest rest' →
      List.Forall₂ (fun e e' => e'.1 = e.1 ∧ Q e.1 e.2 e'.2) rest rest' := by
    intro rest rest' behind pairs
    induction pairs with
    | nil => exact .nil
    | cons pair _ ih =>
      obtain ⟨first, later⟩ := List.forall_mem_cons.mp behind
      exact .cons ⟨pair.1, weaken _ (ne_of_gt first) _ _ pair.2⟩ (ih later)
  induction related with
  | nil => exact .cons ⟨rfl, new⟩ .nil
  | @cons e e' rest rest' pair pairs ih =>
    obtain ⟨k, x⟩ := e
    obtain ⟨k', y⟩ := e'
    obtain ⟨rfl, held⟩ := pair
    obtain ⟨behind, ordered⟩ := List.pairwise_cons.mp ascending
    unfold Table.put
    by_cases same : key = k'
    · rw [if_pos same, if_pos same]
      exact .cons ⟨rfl, new⟩ (others (fun e member => same ▸ behind e member) pairs)
    · rw [if_neg same, if_neg same]
      by_cases less : key < k'
      · rw [if_pos less, if_pos less]
        refine .cons ⟨rfl, new⟩ (.cons ⟨rfl, weaken _ (Ne.symm same) _ _ held⟩ ?_)
        exact others (fun e member => lt_trans less (behind e member)) pairs
      · rw [if_neg less, if_neg less]
        exact .cons ⟨rfl, weaken _ (Ne.symm same) _ _ held⟩ (ih ordered)

end

end Table

end ContentImport
